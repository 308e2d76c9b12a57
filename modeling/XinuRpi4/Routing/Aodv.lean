import Mathlib.Tactic
import Mathlib.Data.UInt
import XinuRpi4.Foundation.ByteWords
import XinuRpi4.Foundation.Runs

/-!
# The AODV core of the WiFi driver

The route table, the ring of seen requests and the handler of inbound IPv4
frames, on one node; then a network of nodes and the datagrams in flight. A
datagram that was sent stays in flight for ever, so it may be delivered late,
twice or never, and to any node.
-/

namespace XinuRpi4.Routing

open XinuRpi4.Foundation

abbrev Ip4 := Fin 4 → UInt8

structure AodvRt where
  dst : Ip4
  nh : Ip4
  hops : UInt8
  seq : UInt32
  valid : Bool
deriving DecidableEq

def aodvNrt : ℕ := 16

abbrev Routes := Fin aodvNrt → AodvRt

/-- The first valid entry for a destination. -/
def aodvFind (rt : Routes) (d : Ip4) : Option (Fin aodvNrt) :=
  Fin.find? fun i => (rt i).valid && decide ((rt i).dst = d)

/-- The entry `aodv_add` writes to; a full table gives up its first one. -/
def aodvSlot (rt : Routes) (d : Ip4) : Fin aodvNrt :=
  match aodvFind rt d with
  | some r => r
  | none => (Fin.find? fun i => !(rt i).valid).getD ⟨0, by decide⟩

def aodvAdd (rt : Routes) (d nh : Ip4) (hops : UInt8) (seq : UInt32) : Routes :=
  let r := aodvSlot rt d
  if (rt r).valid ∧ (rt r).hops ≤ hops ∧ (rt r).dst = d then rt
  else Function.update rt r { dst := d, nh := nh, hops := hops, seq := seq, valid := true }

/-- The sixteen bytes of a control message. -/
abbrev Payload := Fin 16 → UInt8

namespace Payload

def kind (p : Payload) : UInt8 := p 0

def rid (p : Payload) : UInt16 := (p 1).toUInt16 ||| ((p 2).toUInt16 <<< 8)

def orig (p : Payload) : Ip4 := ![p 3, p 4, p 5, p 6]

def dst (p : Payload) : Ip4 := ![p 7, p 8, p 9, p 10]

def seq (p : Payload) : UInt32 :=
  (p 11).toUInt32 ||| ((p 12).toUInt32 <<< 8) ||| ((p 13).toUInt32 <<< 16) |||
    ((p 14).toUInt32 <<< 24)

def hop (p : Payload) : UInt8 := p 15

/-- `p[15] = hop + 1`. -/
def further (p : Payload) : Payload := Function.update p 15 (p.hop + 1)

def build (kind b₁ b₂ : UInt8) (orig dst : Ip4) (seq : UInt32) : Payload :=
  ![kind, b₁, b₂, orig 0, orig 1, orig 2, orig 3, dst 0, dst 1, dst 2, dst 3,
    seq.toUInt8, (seq >>> 8).toUInt8, (seq >>> 16).toUInt8, (seq >>> 24).toUInt8, 0]

end Payload

def aodvPort : UInt16 := 654
def aodvRreq : UInt8 := 1
def aodvRrep : UInt8 := 2

/-- An IPv4 packet; port and payload are read when the protocol is UDP. -/
structure Packet where
  src : Ip4
  dst : Ip4
  proto : UInt8
  dport : UInt16
  p : Payload
deriving DecidableEq

structure Node where
  wifiIp : Ip4
  gRt : Routes
  gRreqid : UInt16
  gMyseq : UInt32
  gSeenO : Fin 8 → Ip4
  gSeenId : Fin 8 → UInt16
  gSeenN : ℕ

/-- What a run of the handler meets outside its own data: the memory behind the
two arrays of seen requests, whether the address resolution is answered, and
the two bytes of a reply that are never written. -/
structure Surroundings where
  behind : ℕ → Ip4 × UInt16
  resolved : Bool
  stack₁ : UInt8
  stack₂ : UInt8

namespace Node

variable (n : Node)

/-- The ring of seen requests. The loop runs to `g_seen_n`, which goes on
counting when the ring is full, so it reads behind the arrays. -/
def aodvSeen (behind : ℕ → Ip4 × UInt16) (o : Ip4) (id : UInt16) : Bool :=
  (List.range n.gSeenN).any fun i =>
    let e := if h : i < 8 then (n.gSeenO ⟨i, h⟩, n.gSeenId ⟨i, h⟩) else behind i
    decide (e.2 = id) && decide (e.1 = o)

def aodvRemember (o : Ip4) (id : UInt16) : Node :=
  let s : Fin 8 := ⟨n.gSeenN % 8, Nat.mod_lt _ (by decide)⟩
  { n with gSeenO := Function.update n.gSeenO s o,
           gSeenId := Function.update n.gSeenId s id,
           gSeenN := n.gSeenN + 1 }

def wifiUdpTx (dip : Ip4) (p : Payload) : Packet :=
  { src := n.wifiIp, dst := dip, proto := 17, dport := aodvPort, p := p }

def aodvBcast (p : Payload) : Packet := n.wifiUdpTx ![255, 255, 255, 255] p

def aodvSendRreq (dst : Ip4) : Node × Packet :=
  let n : Node := { n with gRreqid := n.gRreqid + 1, gMyseq := n.gMyseq + 1 }
  let p := Payload.build aodvRreq n.gRreqid.toUInt8 (n.gRreqid >>> 8).toUInt8 n.wifiIp dst n.gMyseq
  (n.aodvRemember n.wifiIp n.gRreqid, n.aodvBcast p)

/-- Enter the route to `d` that a control message teaches. -/
def learn (d : Ip4) (e : Packet) : Node :=
  { n with gRt := aodvAdd n.gRt d e.src (e.p.hop + 1) e.p.seq }

/-- The answer of the node that a request looks for. -/
def aodvReply (w : Surroundings) (e : Packet) : Node × Packet :=
  let n := { n with gMyseq := n.gMyseq + 1 }
  (n, n.wifiUdpTx e.src (Payload.build aodvRrep w.stack₁ w.stack₂ e.p.orig n.wifiIp n.gMyseq))

/-- The node afterwards, the packets it puts on the air, and whether the frame
was consumed. -/
def aodvIpIn (w : Surroundings) (e : Packet) : Node × List Packet × Bool :=
  if e.proto = 17 then
    if e.dport ≠ aodvPort then (n, [], false)
    else if e.p.kind = aodvRreq then
      if n.aodvSeen w.behind e.p.orig e.p.rid then (n, [], true)
      else
        let n := (n.aodvRemember e.p.orig e.p.rid).learn e.p.orig e
        if e.p.dst = n.wifiIp then
          let (n, reply) := n.aodvReply w e
          (n, [reply], true)
        else (n, [n.aodvBcast e.p.further], true)
    else if e.p.kind = aodvRrep then
      let n := n.learn e.p.dst e
      if e.p.orig = n.wifiIp then (n, [], true)
      else
        match aodvFind n.gRt e.p.orig with
        | some rr =>
          if w.resolved then (n, [n.wifiUdpTx (n.gRt rr).nh e.p.further], true) else (n, [], true)
        | none => (n, [], true)
    else (n, [], true)
  else if e.dst ≠ n.wifiIp ∧ e.dst 0 ≠ 255 then
    match aodvFind n.gRt e.dst with
    | some _ => if w.resolved then (n, [e], true) else (n, [], true)
    | none => (n, [], true)
  else (n, [], false)

/-- The destination `aodv_ip_in` enters a route to, if it enters one. -/
def learns (w : Surroundings) (e : Packet) : Option Ip4 :=
  if e.proto = 17 ∧ e.dport = aodvPort then
    if e.p.kind = aodvRreq then
      if n.aodvSeen w.behind e.p.orig e.p.rid then none else some e.p.orig
    else if e.p.kind = aodvRrep then some e.p.dst
    else none
  else none

end Node

structure Network (ι : Type*) where
  addr : ι → Ip4
  distinct : Function.Injective addr

structure Air (ι : Type*) where
  node : ι → Node
  sent : List Packet

inductive Event (ι : Type*)
  | discover (i : ι) (dst : Ip4)
  | receive (i : ι) (e : Packet) (w : Surroundings)
  | transit (e : Packet)

variable {ι : Type*} [DecidableEq ι]

def Network.start (net : Network ι) : Air ι where
  node i :=
    { wifiIp := net.addr i
      gRt := fun _ => { dst := 0, nh := 0, hops := 0, seq := 0, valid := false }
      gRreqid := 0, gMyseq := 0, gSeenO := fun _ => 0, gSeenId := fun _ => 0, gSeenN := 0 }
  sent := []

namespace Air

def put (s : Air ι) (i : ι) (n : Node) (out : List Packet) : Air ι where
  node := Function.update s.node i n
  sent := out ++ s.sent

/-- A node starts a discovery, a node receives a packet that is in flight, or a
packet that is not UDP comes in flight. -/
def step (s : Air ι) : Event ι → Option (Air ι)
  | .discover i dst =>
    let (n, rreq) := (s.node i).aodvSendRreq dst
    some (s.put i n [rreq])
  | .receive i e w =>
    if e ∈ s.sent then
      let (n, out, _) := (s.node i).aodvIpIn w e
      some (s.put i n out)
    else none
  | .transit e => if e.proto = 17 then none else some { s with sent := e :: s.sent }

/-- The route that is entered finds a place in the table, and its hop count
fits the byte. -/
def Fits (s : Air ι) : Event ι → Prop
  | .receive i e w => ∀ d, (s.node i).learns w e = some d →
      ((∃ r, aodvFind (s.node i).gRt d = some r) ∨ ∃ r, ((s.node i).gRt r).valid = false) ∧
      e.p.hop.toNat + 1 < 256
  | _ => True

instance (s : Air ι) (ev : Event ι) : Decidable (s.Fits ev) :=
  match ev with
  | .discover _ _ => isTrue trivial
  | .transit _ => isTrue trivial
  | .receive i e w =>
    match hl : (s.node i).learns w e with
    | none => isTrue (by simp [Fits, hl])
    | some d =>
      decidable_of_iff
        (((∃ r, aodvFind (s.node i).gRt d = some r) ∨ ∃ r, ((s.node i).gRt r).valid = false) ∧
          e.p.hop.toNat + 1 < 256)
        (by simp [Fits, hl])

end Air

end XinuRpi4.Routing
