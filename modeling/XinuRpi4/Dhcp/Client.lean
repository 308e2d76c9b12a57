import XinuRpi4.Net.Tcp

/-!
# The DHCP client

A reply is decoded from a received frame: the headers, the fixed part and the
list of options. The client is a state machine over the decoded replies. A
message it sends is given by the arguments of `build_dhcp` and the globals it
reads.
-/

namespace XinuRpi4.Dhcp

open XinuRpi4.Foundation XinuRpi4.Net

abbrev Mac := Fin 6 → UInt8

/-- What the options of a reply say; an option that is missing counts as zero. -/
structure DhcpOptions where
  msgType : UInt8
  serverId : Ip4
  router : Ip4
  netmask : Ip4
  dns : Ip4
  lease : UInt32
deriving DecidableEq

def noOptions : DhcpOptions where
  msgType := 0
  serverId := 0
  router := 0
  netmask := 0
  dns := 0
  lease := 0

/-- The `switch` over the code of an option with `olen` bytes at `od`. -/
def takeOption (b : ℕ → UInt8) (code : UInt8) (olen od : ℕ) (opts : DhcpOptions) : DhcpOptions :=
  if code = 53 then if 1 ≤ olen then { opts with msgType := b od } else opts
  else if code = 54 then if 4 ≤ olen then { opts with serverId := ip4At b od } else opts
  else if code = 3 then if 4 ≤ olen then { opts with router := ip4At b od } else opts
  else if code = 1 then if 4 ≤ olen then { opts with netmask := ip4At b od } else opts
  else if code = 6 then if 4 ≤ olen then { opts with dns := ip4At b od } else opts
  else if code = 51 then if 4 ≤ olen then { opts with lease := be32 b od } else opts
  else opts

/-- The loop over the options from offset `o` of the `bpLen` bytes at `bp`, for
so many turns. -/
def parseOptions (b : ℕ → UInt8) (bp bpLen : ℕ) : ℕ → ℕ → DhcpOptions → DhcpOptions
  | 0, _, opts => opts
  | turns + 1, o, opts =>
    if o < bpLen then
      let code := b (bp + o)
      if code = 0 then parseOptions b bp bpLen turns (o + 1) opts
      else if code = 255 then opts
      else if bpLen ≤ o + 1 then opts
      else
        let olen := (b (bp + (o + 1))).toNat
        if bpLen < o + 2 + olen then opts
        else
          parseOptions b bp bpLen turns (o + 2 + olen)
            (takeOption b code olen (bp + (o + 2)) opts)
    else opts

structure DhcpReply where
  xid : UInt32
  yiaddr : Ip4
  opts : DhcpOptions
deriving DecidableEq

/-- The DHCP reply in a frame, if it is one. A turn of the option loop takes a
byte or more, so it ends within the length of the payload. -/
def decode (f : Frame) : Option DhcpReply :=
  let udp := 14 + (f.bytes 14 &&& 0x0F).toNat * 4
  let bp := udp + 8
  let bpLen := f.len - bp
  if f.len < 14 + 20 + 8 + 240 + 4 then none
  else if f.bytes 12 ≠ 0x08 ∨ f.bytes 13 ≠ 0x00 then none
  else if f.bytes 14 >>> 4 ≠ 4 then none
  else if f.bytes 23 ≠ 17 then none
  else if be16 f.bytes udp ≠ 67 ∨ be16 f.bytes (udp + 2) ≠ 68 then none
  else if bpLen < 240 then none
  else if f.bytes (bp + 236) ≠ 0x63 ∨ f.bytes (bp + 237) ≠ 0x82 ∨ f.bytes (bp + 238) ≠ 0x53 ∨
      f.bytes (bp + 239) ≠ 0x63 then none
  else
    some
      { xid := be32 f.bytes (bp + 4)
        yiaddr := ip4At f.bytes (bp + 16)
        opts := parseOptions f.bytes bp bpLen bpLen 240 noOptions }

/-- One turn takes in an option that lies in the payload. -/
theorem parseOptions_option {b : ℕ → UInt8} {opts : DhcpOptions} (bp bpLen turns o : ℕ)
    (code olen : UInt8) (hcode : b (bp + o) = code) (holen : b (bp + (o + 1)) = olen)
    (hpad : code ≠ 0) (hend : code ≠ 255) (hfit : o + 2 + olen.toNat ≤ bpLen) :
    parseOptions b bp bpLen (turns + 1) o opts =
      parseOptions b bp bpLen turns (o + 2 + olen.toNat)
        (takeOption b code olen.toNat (bp + (o + 2)) opts) := by
  rw [parseOptions, hcode, holen, if_pos (by omega), if_neg hpad, if_neg hend,
    if_neg (by omega), if_neg (by omega)]

theorem parseOptions_end {b : ℕ → UInt8} {opts : DhcpOptions} (bp bpLen turns o : ℕ)
    (hcode : b (bp + o) = 255) : parseOptions b bp bpLen (turns + 1) o opts = opts := by
  rw [parseOptions, hcode]
  simp

inductive DhcpState
  | init | discoverSent | requestSent | bound
deriving DecidableEq

/-- A message that the client sends. -/
structure DhcpTx where
  msgType : UInt8
  xid : UInt32
  mac : Mac
  requestedIp : Option Ip4
  serverIp : Option Ip4
deriving DecidableEq

structure DhcpClient where
  gState : DhcpState
  gMyMac : Mac
  gMyIp : Ip4
  gServerIp : Ip4
  gRouterIp : Ip4
  gNetmask : Ip4
  gDnsIp : Ip4
  gLeaseSecs : UInt32
  gXid : UInt32
  gDiscoverCount : ℕ
  gOfferCount : ℕ
  gRequestCount : ℕ
  gAckCount : ℕ
deriving DecidableEq

namespace DhcpClient

/-- The client before `dhcp_set_mac`. -/
def boot : DhcpClient where
  gState := .init
  gMyMac := 0
  gMyIp := 0
  gServerIp := 0
  gRouterIp := 0
  gNetmask := 0
  gDnsIp := 0
  gLeaseSecs := 0
  gXid := 0xC0FFEE00
  gDiscoverCount := 0
  gOfferCount := 0
  gRequestCount := 0
  gAckCount := 0

variable (s : DhcpClient)

def dhcpSetMac (mac : Mac) : DhcpClient :=
  { s with
    gMyMac := mac
    gXid := s.gXid ^^^
      (((mac 3).toUInt32 <<< 16) ||| ((mac 4).toUInt32 <<< 8) ||| (mac 5).toUInt32) }

def dhcpIsBound : Bool := s.gState = .bound

def dhcpGetIp : Ip4 := s.gMyIp

def buildDhcp (msgType : UInt8) (requestedIp serverIp : Option Ip4) : DhcpTx where
  msgType := msgType
  xid := s.gXid
  mac := s.gMyMac
  requestedIp := requestedIp
  serverIp := serverIp

def dhcpSendDiscover : DhcpClient × DhcpTx :=
  ({ s with
      gDiscoverCount := s.gDiscoverCount + 1
      gState := if s.gState = .init then .discoverSent else s.gState },
    s.buildDhcp 1 none none)

def dhcpSendRequest : DhcpClient × DhcpTx :=
  ({ s with gRequestCount := s.gRequestCount + 1, gState := .requestSent },
    s.buildDhcp 3 (some s.gMyIp) (some s.gServerIp))

/-- What a reply with our transaction id does, and the messages it makes the
client send. -/
def handleReply (m : DhcpReply) : DhcpClient × List DhcpTx :=
  if m.opts.msgType = 2 ∧ s.gState = .discoverSent then
    let s := { s with
      gOfferCount := s.gOfferCount + 1
      gMyIp := m.yiaddr
      gServerIp := m.opts.serverId
      gRouterIp := m.opts.router
      gNetmask := m.opts.netmask
      gDnsIp := m.opts.dns
      gLeaseSecs := m.opts.lease }
    let (s, tx) := s.dhcpSendRequest
    (s, [tx])
  else if m.opts.msgType = 5 ∧ s.gState = .requestSent then
    ({ s with gAckCount := s.gAckCount + 1, gMyIp := m.yiaddr, gState := .bound }, [])
  else if m.opts.msgType = 6 then ({ s with gState := .init }, [])
  else (s, [])

/-- The reply in a frame that `dhcp_handle_packet` gets to. -/
def replyIn (f : Frame) : Option DhcpReply := (decode f).filter fun m => decide (m.xid = s.gXid)

def dhcpHandlePacket (f : Frame) : DhcpClient × List DhcpTx :=
  match s.replyIn f with
  | some m => s.handleReply m
  | none => (s, [])

variable (m : DhcpReply)

/-- The client takes an OFFER. -/
def TakesOffer : Prop := m.opts.msgType = 2 ∧ s.gState = .discoverSent

/-- The client takes an ACK. -/
def TakesAck : Prop := m.opts.msgType = 5 ∧ s.gState = .requestSent

instance : Decidable (s.TakesOffer m) := inferInstanceAs (Decidable (_ ∧ _))

instance : Decidable (s.TakesAck m) := inferInstanceAs (Decidable (_ ∧ _))

/-- The address, the mask, the router, the name server and the lease in use. -/
def parameters : Ip4 × Ip4 × Ip4 × Ip4 × UInt32 :=
  (s.gMyIp, s.gNetmask, s.gRouterIp, s.gDnsIp, s.gLeaseSecs)

variable {s m}

theorem handleReply_offer (h : s.TakesOffer m) :
    (s.handleReply m).1 =
      { s with
        gState := .requestSent
        gMyIp := m.yiaddr
        gServerIp := m.opts.serverId
        gRouterIp := m.opts.router
        gNetmask := m.opts.netmask
        gDnsIp := m.opts.dns
        gLeaseSecs := m.opts.lease
        gOfferCount := s.gOfferCount + 1
        gRequestCount := s.gRequestCount + 1 } := by
  unfold TakesOffer at h
  rw [handleReply, if_pos h]
  rfl

theorem handleReply_ack (h : s.TakesAck m) :
    (s.handleReply m).1 =
      { s with gAckCount := s.gAckCount + 1, gMyIp := m.yiaddr, gState := .bound } := by
  have hoffer : ¬ (m.opts.msgType = 2 ∧ s.gState = .discoverSent) := by
    intro h'
    exact absurd (h.2.symm.trans h'.2) (by decide)
  unfold TakesAck at h
  rw [handleReply, if_neg hoffer, if_pos h]

/-- The REQUEST that an OFFER makes the client send. -/
theorem handleReply_request (h : s.TakesOffer m) :
    ∃ tx, (s.handleReply m).2 = [tx] ∧ tx.msgType = 3 ∧ tx.xid = s.gXid ∧
      tx.requestedIp = some m.yiaddr ∧ tx.serverIp = some m.opts.serverId := by
  unfold TakesOffer at h
  rw [handleReply, if_pos h]
  exact ⟨_, rfl, rfl, rfl, rfl, rfl⟩

/-- Any other reply leaves the client as it is, or a NAK sends it back. -/
theorem handleReply_other (hoffer : ¬ s.TakesOffer m) (hack : ¬ s.TakesAck m) :
    (s.handleReply m).1 = { s with gState := if m.opts.msgType = 6 then .init else s.gState } := by
  unfold TakesOffer at hoffer
  unfold TakesAck at hack
  rw [handleReply, if_neg hoffer, if_neg hack]
  split <;> rfl

/-- A discovery takes the client out of the initial state and no other. -/
theorem dhcpSendDiscover_state (s : DhcpClient) :
    s.dhcpSendDiscover.1.gState = s.gState ∨
      s.gState = .init ∧ s.dhcpSendDiscover.1.gState = .discoverSent := by
  by_cases hinit : s.gState = .init
  · exact .inr ⟨hinit, if_pos hinit⟩
  · exact .inl (if_neg hinit)

end DhcpClient

inductive DhcpEvent
  | discover
  | receive (f : Frame)

/-- The client starts a discovery or receives a frame. -/
def DhcpClient.step (s : DhcpClient) : DhcpEvent → Option DhcpClient
  | .discover => some s.dhcpSendDiscover.1
  | .receive f => some (s.dhcpHandlePacket f).1

end XinuRpi4.Dhcp
