import XinuRpi4.Dhcp.Client

/-!
# DHCP servers

Frames with replies in them, and servers that answer what a client sends.
-/

namespace XinuRpi4.Dhcp

open XinuRpi4.Net

/-- The bytes of a word in network order. -/
def be32Bytes (x : UInt32) : List UInt8 :=
  [(x >>> 24).toUInt8, (x >>> 16).toUInt8, (x >>> 8).toUInt8, x.toUInt8]

def ip4Bytes (ip : Ip4) : List UInt8 := [ip 0, ip 1, ip 2, ip 3]

/-- The headers of a reply: IPv4 without options, UDP, from port 67 to port 68. -/
def replyHeader (o : ℕ) : UInt8 :=
  if o = 12 then 0x08
  else if o = 14 then 0x45
  else if o = 23 then 17
  else if o = 35 then 67
  else if o = 37 then 68
  else 0

/-- The magic cookie and the six options that the client looks at. -/
def replyOptions (opts : DhcpOptions) : List UInt8 :=
  [0x63, 0x82, 0x53, 0x63, 53, 1, opts.msgType,
    54, 4, opts.serverId 0, opts.serverId 1, opts.serverId 2, opts.serverId 3,
    3, 4, opts.router 0, opts.router 1, opts.router 2, opts.router 3,
    1, 4, opts.netmask 0, opts.netmask 1, opts.netmask 2, opts.netmask 3,
    6, 4, opts.dns 0, opts.dns 1, opts.dns 2, opts.dns 3,
    51, 4, (opts.lease >>> 24).toUInt8, (opts.lease >>> 16).toUInt8, (opts.lease >>> 8).toUInt8,
    opts.lease.toUInt8, 255]

/-- A frame with a reply: the transaction id is at 46, the address at 58, and the
cookie at 278. -/
def replyFrame (m : DhcpReply) : Frame where
  bytes o :=
    if o < 42 then replyHeader o
    else if o < 46 then 0
    else if o < 50 then (be32Bytes m.xid).getD (o - 46) 0
    else if o < 58 then 0
    else if o < 62 then (ip4Bytes m.yiaddr).getD (o - 58) 0
    else if o < 278 then 0
    else (replyOptions m.opts).getD (o - 278) 0
  len := 278 + (replyOptions m.opts).length

theorem word_of_bytes (x : UInt32) :
    ((x >>> 24).toUInt8.toUInt32 <<< 24) ||| ((x >>> 16).toUInt8.toUInt32 <<< 16) |||
      ((x >>> 8).toUInt8.toUInt32 <<< 8) ||| x.toUInt8.toUInt32 = x := by
  apply UInt32.eq_of_toBitVec_eq
  apply BitVec.eq_of_getLsbD_eq
  intro i hi
  simp [hi, -UInt32.toUInt32_toUInt8]
  grind

theorem be32_of_bytes {b : ℕ → UInt8} {o : ℕ} {x : UInt32}
    (h : ∀ k : Fin 4, b (o + k) = (be32Bytes x)[k]) : be32 b o = x := by
  have h0 : b o = _ := h 0
  have h1 : b (o + 1) = _ := h 1
  have h2 : b (o + 2) = _ := h 2
  have h3 : b (o + 3) = _ := h 3
  rw [be32, h0, h1, h2, h3]
  exact word_of_bytes x

section ReplyFrame

variable (m : DhcpReply)

theorem replyFrame_header {o : ℕ} (ho : o < 42) : (replyFrame m).bytes o = replyHeader o :=
  if_pos ho

theorem replyFrame_xid (k : Fin 4) : (replyFrame m).bytes (46 + k) = (be32Bytes m.xid)[k] := by
  have hk := k.isLt
  simp only [replyFrame]
  rw [if_neg (by omega), if_neg (by omega), if_pos (by omega), Nat.add_sub_cancel_left]
  fin_cases k <;> rfl

theorem replyFrame_yiaddr (k : Fin 4) : (replyFrame m).bytes (58 + k) = m.yiaddr k := by
  have hk := k.isLt
  simp only [replyFrame]
  rw [if_neg (by omega), if_neg (by omega), if_neg (by omega), if_neg (by omega),
    if_pos (by omega), Nat.add_sub_cancel_left]
  fin_cases k <;> rfl

theorem replyFrame_option (k : ℕ) :
    (replyFrame m).bytes (278 + k) = (replyOptions m.opts).getD k 0 := by
  simp only [replyFrame]
  rw [if_neg (by omega), if_neg (by omega), if_neg (by omega), if_neg (by omega),
    if_neg (by omega), if_neg (by omega), Nat.add_sub_cancel_left]

/-- An address among the options. -/
theorem replyFrame_ip4 {k : ℕ} {ip : Ip4}
    (h : ∀ j : Fin 4, (replyOptions m.opts).getD (k + j) 0 = ip j) :
    ip4At (replyFrame m).bytes (278 + k) = ip := by
  funext j
  rw [ip4At, Nat.add_assoc, replyFrame_option, h]

/-- The option loop reads the options one after the other. -/
theorem parseOptions_replyFrame :
    parseOptions (replyFrame m).bytes 42 274 274 240 noOptions = m.opts := by
  have h := replyFrame_option m
  have htype : (replyFrame m).bytes 284 = m.opts.msgType := h 6
  have hid : ip4At (replyFrame m).bytes 287 = m.opts.serverId :=
    replyFrame_ip4 m (k := 9) fun j => by fin_cases j <;> rfl
  have hrouter : ip4At (replyFrame m).bytes 293 = m.opts.router :=
    replyFrame_ip4 m (k := 15) fun j => by fin_cases j <;> rfl
  have hmask : ip4At (replyFrame m).bytes 299 = m.opts.netmask :=
    replyFrame_ip4 m (k := 21) fun j => by fin_cases j <;> rfl
  have hdns : ip4At (replyFrame m).bytes 305 = m.opts.dns :=
    replyFrame_ip4 m (k := 27) fun j => by fin_cases j <;> rfl
  have hlease : be32 (replyFrame m).bytes 311 = m.opts.lease :=
    be32_of_bytes fun k => by
      rw [show 311 + (k : ℕ) = 278 + (33 + k) by omega, h]
      fin_cases k <;> rfl
  have hturn := fun opts => @parseOptions_option (replyFrame m).bytes opts 42 274
  refine (hturn _ 273 240 53 1 (h 4) (h 5) (by decide) (by decide) (by decide)).trans ?_
  refine (hturn _ 272 243 54 4 (h 7) (h 8) (by decide) (by decide) (by decide)).trans ?_
  refine (hturn _ 271 249 3 4 (h 13) (h 14) (by decide) (by decide) (by decide)).trans ?_
  refine (hturn _ 270 255 1 4 (h 19) (h 20) (by decide) (by decide) (by decide)).trans ?_
  refine (hturn _ 269 261 6 4 (h 25) (h 26) (by decide) (by decide) (by decide)).trans ?_
  refine (hturn _ 268 267 51 4 (h 31) (h 32) (by decide) (by decide) (by decide)).trans ?_
  refine (parseOptions_end 42 274 267 273 (h 37)).trans ?_
  simp [takeOption, htype, hid, hrouter, hmask, hdns, hlease, noOptions]

end ReplyFrame

/-- The client reads a reply as it was meant. -/
theorem decode_replyFrame (m : DhcpReply) : decode (replyFrame m) = some m := by
  have hxid : be32 (replyFrame m).bytes 46 = m.xid := be32_of_bytes (replyFrame_xid m)
  have hyiaddr : ip4At (replyFrame m).bytes 58 = m.yiaddr := funext (replyFrame_yiaddr m)
  have hlen : (replyFrame m).len = 316 := rfl
  have hihl : (replyFrame m).bytes 14 = 0x45 := rfl
  have hsrc : be16 (replyFrame m).bytes 34 = 67 := by
    rw [be16, replyFrame_header m (by decide), replyFrame_header m (by decide)]
    decide
  have hdst : be16 (replyFrame m).bytes 36 = 68 := by
    rw [be16, replyFrame_header m (by decide), replyFrame_header m (by decide)]
    decide
  have hcookie : (replyFrame m).bytes 278 = 0x63 ∧ (replyFrame m).bytes 279 = 0x82 ∧
      (replyFrame m).bytes 280 = 0x53 ∧ (replyFrame m).bytes 281 = 0x63 := ⟨rfl, rfl, rfl, rfl⟩
  have htype : (replyFrame m).bytes 12 = 0x08 ∧ (replyFrame m).bytes 13 = 0x00 := ⟨rfl, rfl⟩
  have hproto : (replyFrame m).bytes 23 = 17 := rfl
  unfold decode
  simp [hihl, hlen, hsrc, hdst, hcookie, htype, hproto, hxid, hyiaddr,
    parseOptions_replyFrame]
  rfl

inductive DhcpMessage
  | discover | offer | request | ack
deriving DecidableEq

/-- A frame with a reply to a message: it has the transaction id of the message,
a type and the address it is about. -/
def Answers (tx : DhcpTx) (msgType : UInt8) (yiaddr : Ip4) (f : Frame) (m : DhcpReply) : Prop :=
  decode f = some m ∧ m.xid = tx.xid ∧ m.opts.msgType = msgType ∧ m.yiaddr = yiaddr

/-- A server that answers a DISCOVER by an OFFER of an address, and a REQUEST to
it for that address by an ACK. -/
structure DhcpServer where
  id : Ip4
  offered : Ip4
  reply : DhcpTx → Option Frame
  offers : ∀ tx, tx.msgType = 1 →
    ∃ f m, reply tx = some f ∧ Answers tx 2 offered f m ∧ m.opts.serverId = id
  acks : ∀ tx, tx.msgType = 3 → tx.requestedIp = some offered → tx.serverIp = some id →
    ∃ f m, reply tx = some f ∧ Answers tx 5 offered f m

namespace DhcpServer

/-- The client receives what the server answers a message by. -/
def serve (srv : DhcpServer) (s : DhcpClient) (tx : DhcpTx) : DhcpClient × List DhcpTx :=
  match srv.reply tx with
  | some f => s.dhcpHandlePacket f
  | none => (s, [])

/-- The client sends a DISCOVER, and each message gets its answer up to the one
that is lost. -/
def conversation (srv : DhcpServer) (lost : Option DhcpMessage) (s : DhcpClient) : DhcpClient :=
  let (s, tx) := s.dhcpSendDiscover
  if lost = some .discover ∨ lost = some .offer then s
  else
    let (s, txs) := srv.serve s tx
    if lost = some .request ∨ lost = some .ack then s
    else txs.foldl (fun s tx => (srv.serve s tx).1) s

/-- A server with fixed parameters. -/
def fixed (id offered : Ip4) (opts : DhcpOptions) : DhcpServer where
  id := id
  offered := offered
  reply tx :=
    if tx.msgType = 1 then
      some (replyFrame
        { xid := tx.xid, yiaddr := offered, opts := { opts with msgType := 2, serverId := id } })
    else if tx.msgType = 3 ∧ tx.requestedIp = some offered ∧ tx.serverIp = some id then
      some (replyFrame
        { xid := tx.xid, yiaddr := offered, opts := { opts with msgType := 5, serverId := id } })
    else none
  offers tx htype :=
    ⟨_, _, if_pos htype, ⟨decode_replyFrame _, rfl, rfl, rfl⟩, rfl⟩
  acks tx htype hip hid := by
    have hnot : ¬ tx.msgType = 1 := by
      rw [htype]
      decide
    exact ⟨_, _, (if_neg hnot).trans (if_pos ⟨htype, hip, hid⟩), decode_replyFrame _, rfl, rfl, rfl⟩

end DhcpServer

/-- An OFFER to a client that has no hardware address. -/
def homeOffer : DhcpReply where
  xid := 0xC0FFEE00
  yiaddr := ![192, 168, 1, 50]
  opts := { noOptions with msgType := 2, serverId := ![192, 168, 1, 1] }

end XinuRpi4.Dhcp
