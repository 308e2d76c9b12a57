import XinuRpi4.Foundation.ByteWords
import XinuRpi4.Foundation.Runs
import Mathlib.Data.UInt
import Mathlib.Tactic

/-!
# The TCP server and its hand-over to the app worker

Connections live in four slots. A segment is decoded from a received frame and
handled by the slot of its peer. A complete request is copied into the single
mailbox of the app worker; when the worker is done, its response is sent on the
slot the mailbox remembers. The building of a response is left open: a run may
put any bytes into it.

Each slot also keeps a history that the code does not read: the number of the
SYN that opened it, the initial sequence number of that SYN, the stream bytes
that were accepted since, and the sequence number of the FIN that was taken.

The scans of the HTTP server over a request. A C string is the list of its bytes
before the NUL.
-/

namespace XinuRpi4.Net

open XinuRpi4.Foundation

def startsWith (s p : List UInt8) : Bool := p.isPrefixOf s

/-- The index just past `\r\n\r\n`; the scan stands at index `i`. -/
def findHeaderEnd : List UInt8 → ℕ → Option ℕ
  | [], _ => none
  | c :: cs, i =>
    if startsWith (c :: cs) [13, 10, 13, 10] then some (i + 4) else findHeaderEnd cs (i + 1)

def lc (c : UInt8) : UInt8 := if 65 ≤ c ∧ c ≤ 90 then c + 32 else c

/-- What follows the key in `s`, if `s` starts with it in any case. -/
def matchKey : List UInt8 → List UInt8 → Option (List UInt8)
  | [], s => some s
  | _ :: _, [] => none
  | k :: ks, c :: cs => if lc c = k then matchKey ks cs else none

/-- `content-length:` -/
def contentLengthKey : List UInt8 :=
  [99, 111, 110, 116, 101, 110, 116, 45, 108, 101, 110, 103, 116, 104, 58]

/-- The digits at the start; the `int` that they are added up in wraps. -/
def digits : ℤ → List UInt8 → ℤ
  | n, [] => n
  | n, c :: cs =>
    if 48 ≤ c ∧ c ≤ 57 then digits (Int.bmod (n * 10 + (c.toNat - 48)) (2 ^ 32)) cs else n

/-- The value of the first Content-Length header, or -1. -/
def contentLength : List UInt8 → ℤ
  | [] => -1
  | c :: cs =>
    match matchKey contentLengthKey (c :: cs) with
    | some q =>
      match q.dropWhile (· == 32) with
      | d :: ds => if 48 ≤ d ∧ d ≤ 57 then digits 0 (d :: ds) else -1
      | [] => -1
    | none => contentLength cs

def requestComplete (req : List UInt8) (len : ℕ) : Bool :=
  match findHeaderEnd req 0 with
  | none => false
  | some he =>
    if startsWith req [80, 79, 83, 84] then
      let cl := contentLength req
      if cl < 0 then true else decide (cl ≤ (len : ℤ) - he)
    else true

theorem requestComplete_nil (len : ℕ) : requestComplete [] len = false := rfl

abbrev Ip4 := Fin 4 → UInt8

inductive TcpState
  | closed | listen | synRcvd | established | finWait1 | lastAck
deriving DecidableEq

def TcpState.free : TcpState → Bool
  | .closed => true
  | .listen => true
  | _ => false

def flagFin : UInt8 := 0x01
def flagSyn : UInt8 := 0x02
def flagRst : UInt8 := 0x04
def flagPsh : UInt8 := 0x08
def flagAck : UInt8 := 0x10

abbrev nconn : ℕ := 4

/-- `sizeof(c->httpreq)`, and the size of the mailbox. -/
def reqCap : ℕ := 32768

/-- A received frame of `len` bytes, with whatever lies behind them. -/
structure Frame where
  bytes : ℕ → UInt8
  len : ℕ

structure Segment where
  ip : Ip4
  port : UInt16
  seq : UInt32
  ack : UInt32
  flags : UInt8
  data : List UInt8
deriving DecidableEq

def Segment.has (seg : Segment) (flag : UInt8) : Bool := seg.flags &&& flag != 0

structure Config where
  myIp : Ip4
  listenPort : UInt16

def be16 (b : ℕ → UInt8) (o : ℕ) : UInt16 :=
  ((b o).toUInt16 <<< 8) ||| (b (o + 1)).toUInt16

/-- The four bytes at an offset. -/
def ip4At (b : ℕ → UInt8) (o : ℕ) : Ip4 := fun k => b (o + k)

def be32 (b : ℕ → UInt8) (o : ℕ) : UInt32 :=
  ((b o).toUInt32 <<< 24) ||| ((b (o + 1)).toUInt32 <<< 16) ||| ((b (o + 2)).toUInt32 <<< 8) |||
    (b (o + 3)).toUInt32

/-- The TCP segment in a frame, if it is one for the listening port. -/
def decode (cfg : Config) (f : Frame) : Option Segment :=
  let ihl := (f.bytes 14 &&& 0x0F).toNat * 4
  let tcp := 14 + ihl
  let dataOff := (f.bytes (tcp + 12) >>> 4).toNat * 4
  let dataLen := (be16 f.bytes 16).toNat - ihl - dataOff
  if f.len < 14 + 20 + 20 then none
  else if f.bytes 12 ≠ 0x08 ∨ f.bytes 13 ≠ 0x00 then none
  else if f.bytes 14 >>> 4 ≠ 4 then none
  else if f.bytes 23 ≠ 6 then none
  else if (fun k : Fin 4 => f.bytes (30 + k)) ≠ cfg.myIp then none
  else if be16 f.bytes (tcp + 2) ≠ cfg.listenPort then none
  else
    some
      { ip := fun k => f.bytes (26 + k)
        port := be16 f.bytes tcp
        seq := be32 f.bytes (tcp + 4)
        ack := be32 f.bytes (tcp + 8)
        flags := f.bytes (tcp + 13) &&& 0x3F
        data := (List.range dataLen).map fun k => f.bytes (tcp + dataOff + k) }

/-- A segment that the server puts on the wire. -/
structure Tx where
  ip : Ip4
  port : UInt16
  flags : UInt8
  seq : UInt32
  ack : UInt32
  payload : List UInt8

structure TcpConn where
  state : TcpState
  peerIp : Ip4
  peerPort : UInt16
  mySeq : UInt64
  peerSeq : UInt64
  httpreq : ℕ → UInt8
  httpreqlen : ℕ
  inc : ℕ
  isn : UInt32
  received : List UInt8
  finSeq : Option UInt32

/-- The bytes from `pos` to the NUL, in a buffer that ends after `fuel` more. -/
def cString (buf : ℕ → UInt8) : ℕ → ℕ → List UInt8
  | 0, _ => []
  | fuel + 1, pos => if buf pos = 0 then [] else buf pos :: cString buf fuel (pos + 1)

/-- What a slot does on a segment: its new contents, the segments it sends, and
whether it wants its request handed over. -/
structure Reply where
  conn : TcpConn
  out : List Tx
  ready : Bool

def refusal : List UInt8 :=
  ("HTTP/1.0 413 Payload Too Large\r\nContent-Type: text/plain\r\nConnection: close\r\n\r\n" ++
    "cc: request too large for /compile buffer\n").toUTF8.toList

namespace TcpConn

variable (c : TcpConn)

/-- The request accumulator as the scans see it. -/
def request : List UInt8 := cString c.httpreq reqCap 0

def complete : Bool := requestComplete c.request c.httpreqlen

/-- A frame that is too long is not sent. -/
def tcpSend (flags : UInt8) (payload : List UInt8) : List Tx :=
  if 14 + (20 + (20 + payload.length)) > 1518 then []
  else
    [{ ip := c.peerIp, port := c.peerPort, flags := flags, seq := c.mySeq.toUInt32,
       ack := c.peerSeq.toUInt32, payload := payload }]

/-- A payload and the FIN behind it. -/
def sendLast (payload : List UInt8) : TcpConn × List Tx :=
  let out := c.tcpSend (flagPsh ||| flagAck) payload
  let c := { c with mySeq := c.mySeq + UInt64.ofNat payload.length }
  let out := out ++ c.tcpSend (flagFin ||| flagAck) []
  ({ c with mySeq := c.mySeq + 1, state := .finWait1 }, out)

/-- In-order data: what fits is stored and ended with a NUL, all is acknowledged. -/
def append (seg : Segment) : TcpConn :=
  let n := min seg.data.length (reqCap - 1 - c.httpreqlen)
  { c with
    httpreq := fun k =>
      if k < c.httpreqlen then c.httpreq k
      else if k < c.httpreqlen + n then seg.data.getD (k - c.httpreqlen) 0
      else if k = c.httpreqlen + n then 0
      else c.httpreq k
    httpreqlen := c.httpreqlen + n
    peerSeq := seg.seq.toUInt64 + UInt64.ofNat seg.data.length
    received := c.received ++ seg.data }

def onSynRcvd (seg : Segment) : Reply :=
  if seg.has flagRst then ⟨{ c with state := .listen }, [], false⟩
  else if seg.has flagAck ∧ seg.ack.toUInt64 = c.mySeq then
    ⟨{ c with state := .established, httpreqlen := 0 }, [], false⟩
  else ⟨c, [], false⟩

/-- Data that is not in order is not taken. -/
def accept (seg : Segment) : TcpConn :=
  if seg.seq.toUInt64 = c.peerSeq then c.append seg else c

def onData (seg : Segment) : Reply :=
  let c := c.accept seg
  if c.complete then ⟨c, c.tcpSend flagAck [], true⟩
  else if reqCap - 1 ≤ c.httpreqlen then
    let (c, out) := c.sendLast refusal
    ⟨c, out, false⟩
  else ⟨c, c.tcpSend flagAck [], false⟩

def onFin (seg : Segment) : Reply :=
  let c := { c with peerSeq := seg.seq.toUInt64 + 1, finSeq := some seg.seq }
  let out := c.tcpSend (flagFin ||| flagAck) []
  ⟨{ c with mySeq := c.mySeq + 1, state := .lastAck }, out, false⟩

def onEstablished (seg : Segment) : Reply :=
  if seg.has flagRst then ⟨{ c with state := .listen }, [], false⟩
  else if 0 < seg.data.length then c.onData seg
  else if seg.has flagFin then c.onFin seg
  else ⟨c, [], false⟩

def onFinWait1 (seg : Segment) : Reply :=
  if seg.has flagAck ∧ seg.ack.toUInt64 = c.mySeq then
    if seg.has flagFin then
      let c := { c with peerSeq := seg.seq.toUInt64 + 1 }
      ⟨{ c with state := .listen }, c.tcpSend flagAck [], false⟩
    else ⟨c, [], false⟩
  else ⟨c, [], false⟩

def onLastAck (seg : Segment) : Reply :=
  if seg.has flagAck ∧ seg.ack.toUInt64 = c.mySeq then ⟨{ c with state := .listen }, [], false⟩
  else ⟨c, [], false⟩

def onSegment (seg : Segment) : Reply :=
  match c.state with
  | .synRcvd => c.onSynRcvd seg
  | .established => c.onEstablished seg
  | .finWait1 => c.onFinWait1 seg
  | .lastAck => c.onLastAck seg
  | _ => ⟨c, [], false⟩

/-- A slot that a SYN takes over; the request buffer keeps its bytes. -/
def opened (seg : Segment) (isnSeed : UInt64) (inc : ℕ) : TcpConn :=
  { c with
    state := .synRcvd, peerIp := seg.ip, peerPort := seg.port, mySeq := isnSeed,
    peerSeq := seg.seq.toUInt64 + 1, httpreqlen := 0,
    inc := inc, isn := seg.seq, received := [], finSeq := none }

end TcpConn

inductive AppState
  | idle | queued | working | done
deriving DecidableEq

/-- A request that was handed over: on which connection, the bytes that were
copied, and the bytes that the connection had received. -/
structure Handover where
  inc : ℕ
  copied : List UInt8
  received : List UInt8

/-- A response that was sent: on which connection and what that had received,
and the connection and the bytes of the request it was built from. -/
structure Answer where
  inc : ℕ
  received : List UInt8
  requestInc : ℕ
  request : List UInt8
  payload : List UInt8

structure Tcp where
  conns : Fin nconn → TcpConn
  gIsnSeed : UInt64
  gSynSeen : ℕ
  appState : AppState
  gAppConnIdx : Option (Fin nconn)
  gAppReq : List UInt8
  gAppResp : List UInt8
  sent : List Tx
  requestInc : ℕ
  handovers : List Handover
  answers : List Answer

namespace Tcp

variable (s : Tcp)

def findConn (ip : Ip4) (port : UInt16) : Option (Fin nconn) :=
  Fin.find? fun i =>
    !(s.conns i).state.free && decide ((s.conns i).peerPort = port) &&
      decide ((s.conns i).peerIp = ip)

def allocConn : Option (Fin nconn) := Fin.find? fun i => (s.conns i).state.free

def setConn (i : Fin nconn) (c : TcpConn) (out : List Tx) : Tcp :=
  { s with conns := Function.update s.conns i c, sent := s.sent ++ out }

def queueToApp (i : Fin nconn) : Tcp :=
  let c := s.conns i
  let n := min c.httpreqlen (reqCap - 1)
  let req := (List.range n).map c.httpreq
  { s with
    gAppReq := req, gAppConnIdx := some i, appState := .queued, requestInc := c.inc,
    handovers := s.handovers ++ [{ inc := c.inc, copied := req, received := c.received }] }

/-- An established connection with a complete request. -/
def pending (i : Fin nconn) : Bool :=
  decide ((s.conns i).state = .established) && decide (0 < (s.conns i).httpreqlen) &&
    (s.conns i).complete

def drainPendingToApp : Tcp :=
  if s.appState = .idle then
    match Fin.find? s.pending with
    | some i => s.queueToApp i
    | none => s
  else s

/-- Send the finished response on the slot the mailbox remembers. -/
def respond : Tcp :=
  match s.gAppConnIdx with
  | some i =>
    let c := s.conns i
    if c.state = .established then
      let (c', out) := c.sendLast s.gAppResp
      let s' := s.setConn i c' out
      if 14 + (20 + (20 + s.gAppResp.length)) > 1518 then s'
      else
        { s' with answers := s.answers ++
            [{ inc := c.inc, received := c.received, requestInc := s.requestInc,
               request := s.gAppReq, payload := s.gAppResp }] }
    else s
  | none => s

def tcpAppFlush : Tcp :=
  if s.appState = .done then
    { s.respond with gAppConnIdx := none, appState := .idle }.drainPendingToApp
  else s

/-- The worker takes the request. -/
def workBegin : Tcp := if s.appState = .queued then { s with appState := .working } else s

/-- The worker has built the response. -/
def workEnd (resp : List UInt8) : Tcp :=
  if s.appState = .working then { s with gAppResp := resp, appState := .done } else s

def openConn (i : Fin nconn) (seg : Segment) : Tcp :=
  let c := (s.conns i).opened seg s.gIsnSeed (s.gSynSeen + 1)
  let out := c.tcpSend (flagSyn ||| flagAck) []
  { s.setConn i { c with mySeq := c.mySeq + 1 } out with
    gIsnSeed := s.gIsnSeed + 0x100, gSynSeen := s.gSynSeen + 1 }

def onSyn (seg : Segment) : Tcp :=
  if seg.has flagSyn then
    match s.allocConn with
    | some i => s.openConn i seg
    | none => s
  else s

def handleSegment (seg : Segment) : Tcp :=
  match s.findConn seg.ip seg.port with
  | none => s.onSyn seg
  | some i =>
    let r := (s.conns i).onSegment seg
    let s' := s.setConn i r.conn r.out
    if r.ready ∧ s.appState = .idle then s'.queueToApp i else s'

def tcpHandlePacket (cfg : Config) (f : Frame) : Tcp :=
  match decode cfg f with
  | some seg => s.handleSegment seg
  | none => s

end Tcp

inductive TcpEvent
  | rx (f : Frame)
  | workBegin
  | workEnd (resp : List UInt8)
  | flush

def Tcp.step (cfg : Config) (s : Tcp) : TcpEvent → Option Tcp
  | .rx f => some (s.tcpHandlePacket cfg f)
  | .workBegin => some s.workBegin
  | .workEnd resp => some (s.workEnd resp)
  | .flush => some s.tcpAppFlush

/-- All slots listen and all buffers are zero. -/
def Tcp.start : Tcp where
  conns _ :=
    { state := .listen, peerIp := 0, peerPort := 0, mySeq := 0, peerSeq := 0, httpreq := fun _ => 0,
      httpreqlen := 0, inc := 0, isn := 0, received := [], finSeq := none }
  gIsnSeed := 0xDEADBEEF
  gSynSeen := 0
  appState := .idle
  gAppConnIdx := none
  gAppReq := []
  gAppResp := []
  sent := []
  requestInc := 0
  handovers := []
  answers := []

def bytes16 (n : UInt16) : List UInt8 := [(n >>> 8).toUInt8, n.toUInt8]

def bytes32 (n : UInt32) : List UInt8 :=
  [(n >>> 24).toUInt8, (n >>> 16).toUInt8, (n >>> 8).toUInt8, n.toUInt8]

/-- The frame in which a peer sends a segment. -/
def Segment.frame (cfg : Config) (seg : Segment) : Frame :=
  let l : List UInt8 :=
    [0, 0, 0, 0, 0, 0, 0, 0, 0, 0, 0, 0, 8, 0, 0x45, 0] ++
      bytes16 (UInt16.ofNat (40 + seg.data.length)) ++ [0, 0, 0, 0, 64, 6, 0, 0] ++
      [seg.ip 0, seg.ip 1, seg.ip 2, seg.ip 3] ++
      [cfg.myIp 0, cfg.myIp 1, cfg.myIp 2, cfg.myIp 3] ++
      bytes16 seg.port ++ bytes16 cfg.listenPort ++ bytes32 seg.seq ++ bytes32 seg.ack ++
      [0x50, seg.flags, 0x20, 0, 0, 0, 0, 0] ++ seg.data
  { bytes := fun k => l.getD k 0, len := l.length }

/-- The addresses that the server is built with. -/
def server : Config where
  myIp := ![192, 168, 3, 100]
  listenPort := 23

/-- A segment from port 5000 of 192.168.3.2. -/
def peerSegment (seq ack : UInt32) (flags : UInt8) (data : List UInt8) : Segment where
  ip := ![192, 168, 3, 2]
  port := 5000
  seq := seq
  ack := ack
  flags := flags
  data := data

def fromPeer (seq ack : UInt32) (flags : UInt8) (data : List UInt8) : TcpEvent :=
  .rx ((peerSegment seq ack flags data).frame server)

end XinuRpi4.Net
