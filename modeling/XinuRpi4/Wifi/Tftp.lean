import XinuRpi4.Wifi.UdpFrames

/-!
# The TFTP client

A call of `wifi_tftp_get` is a loop around the frame reader. Each turn either goes
on with changed locals or returns, and sends datagrams. The call returns what it
has stored at `dst`, or nothing.
-/

namespace XinuRpi4.Wifi

open XinuRpi4.Net

/-- A file name for which the request fits `pkt`. -/
abbrev FileName : Type := CString 591

/-- The local port of every transfer. -/
def tftpPort : UInt16 := 0xB100

def rrqPayload (fname : FileName) : List UInt8 :=
  [0, 1] ++ fname.val ++ [0] ++ [0x6F, 0x63, 0x74, 0x65, 0x74] ++ [0]

def ackPayload (blk : UInt16) : List UInt8 := [0, 4, (blk >>> 8).toUInt8, blk.toUInt8]

theorem ackPayload_injective : Function.Injective ackPayload := by
  intro a b h
  simp only [ackPayload, List.cons.injEq, true_and, and_true] at h
  rw [← be16_of_bytes a, h.1, h.2, be16_of_bytes]

theorem rrqPayload_ne_ackPayload (fname : FileName) (blk : UInt16) :
    rrqPayload fname ≠ ackPayload blk := by
  simp [rrqPayload, ackPayload]

/-- What the client looks at in a datagram of the server. -/
structure TftpMsg where
  ssport : UInt16
  op : UInt16
  blk : UInt16
  data : List UInt8
deriving DecidableEq

/-- The datagram of the server in a frame. The lengths are those in the UDP header. -/
def tftpIn (srv : Ip4) (f : Frame) : Option TftpMsg :=
  (udpFrom srv tftpPort (14 + 20 + 8) f).bind fun udp =>
    let tlen := (be16 f.bytes (udp + 4)).toNat - 8
    if tlen < 4 then none
    else
      some
        { ssport := be16 f.bytes udp
          op := be16 f.bytes (udp + 8)
          blk := be16 f.bytes (udp + 10)
          data := (List.range (tlen - 4)).map fun i => f.bytes (udp + 12 + i) }

/-- A frame with a message of the server in it. -/
def tftpFrame (srv : Ip4) (m : TftpMsg) : Frame :=
  udpFrame srv m.ssport tftpPort
    ([(m.op >>> 8).toUInt8, m.op.toUInt8, (m.blk >>> 8).toUInt8, m.blk.toUInt8] ++ m.data)

/-- The locals of a call; `dst` is what it has stored so far. -/
structure TftpGet where
  fname : FileName
  maxlen : ℤ
  dst : List UInt8
  nextblk : ℕ
  srvTid : UInt16
  w : ℕ
deriving DecidableEq

inductive TftpTurn
  | more (c : TftpGet)
  | returned (got : Option (List UInt8))

namespace TftpGet

def start (fname : FileName) (maxlen : ℤ) : TftpGet where
  fname := fname
  maxlen := maxlen
  dst := []
  nextblk := 1
  srvTid := 0
  w := 0

variable (c : TftpGet) (m : TftpMsg)

def rrq : List UdpTx := udpTx tftpPort 69 (rrqPayload c.fname)

/-- The ACK of the last block once more. -/
def reAck : List UdpTx :=
  if c.srvTid ≠ 0 then udpTx tftpPort c.srvTid (ackPayload (UInt16.ofNat (c.nextblk - 1))) else []

/-- The end of a turn. -/
def next : TftpTurn := if c.w + 1 < 8000 then .more { c with w := c.w + 1 } else .returned none

/-- A turn in which no frame is read. -/
def quiet : TftpTurn × List UdpTx :=
  (c.next, if c.w % 200 = 199 then if c.nextblk = 1 then c.rrq else c.reAck else [])

/-- The next block: as much of it as fits is stored. -/
def accept : TftpGet :=
  { c with
    srvTid := m.ssport
    dst := c.dst ++ m.data.take (c.maxlen - c.dst.length).toNat
    nextblk := c.nextblk + 1
    w := 0 }

def message : TftpTurn × List UdpTx :=
  if m.op = 5 then (.returned none, [])
  else if m.op ≠ 3 then (c.next, [])
  else if m.blk.toNat = c.nextblk then
    (if m.data.length < 512 then .returned (some (c.accept m).dst) else (c.accept m).next,
      udpTx tftpPort m.ssport (ackPayload m.blk))
  else (c.next, c.reAck)

/-- A turn in which a frame is read. -/
def frame (srv : Ip4) (f : Frame) : TftpTurn × List UdpTx :=
  match tftpIn srv f with
  | none => (c.next, [])
  | some m => c.message m

/-- What a turn that reads a message, or none, can come to: the call fails, goes on as
it was, or has taken the message as its next block. -/
inductive Turned : Option TftpMsg → TftpTurn × List UdpTx → Prop
  | failed {i : Option TftpMsg} : Turned i (.returned none, [])
  | waited {i : Option TftpMsg} {txs : List UdpTx} :
      (∀ t ∈ txs, t ∈ c.rrq ∨ t ∈ c.reAck) → Turned i (c.next, txs)
  | accepted {m : TftpMsg} : m.op = 3 → m.blk.toNat = c.nextblk →
      Turned (some m)
        (if m.data.length < 512 then .returned (some (c.accept m).dst) else (c.accept m).next,
          udpTx tftpPort m.ssport (ackPayload m.blk))

theorem quiet_turned : c.Turned none c.quiet := by
  apply Turned.waited
  intro t ht
  split_ifs at ht
  · exact .inl ht
  · exact .inr ht
  · cases ht

theorem message_turned : c.Turned (some m) (c.message m) := by
  unfold message
  by_cases herror : m.op = 5
  · rw [if_pos herror]
    exact .failed
  by_cases hdata : m.op = 3
  · rw [if_neg herror, if_neg (not_not.mpr hdata)]
    by_cases hblk : m.blk.toNat = c.nextblk
    · rw [if_pos hblk]
      exact .accepted hdata hblk
    · rw [if_neg hblk]
      exact .waited fun t ht => .inr ht
  · rw [if_neg herror, if_pos hdata]
    exact .waited nofun

theorem frame_turned (srv : Ip4) (f : Frame) : c.Turned (tftpIn srv f) (c.frame srv f) := by
  unfold frame
  cases tftpIn srv f with
  | none => exact .waited nofun
  | some m => exact c.message_turned m

end TftpGet

end XinuRpi4.Wifi
