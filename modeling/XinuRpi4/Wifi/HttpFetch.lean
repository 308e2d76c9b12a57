import XinuRpi4.Foundation.Runs
import XinuRpi4.Net.FrameFormat
import XinuRpi4.Wifi.UdpFrames

/-!
# The HTTP client

`wifi_http` takes the data of a segment when it begins at `our_ack`, and a FIN whenever it sees
one. The page is whole when the FIN is read behind the data it follows.
-/

namespace XinuRpi4.Wifi

open XinuRpi4.Foundation XinuRpi4.Net

/-- What the client looks at in a segment. -/
structure TcpIn where
  seq : UInt32
  flags : UInt8
  payload : List UInt8
deriving DecidableEq

def httpPort : UInt16 := 0xC0DE

/-- The segment in a frame, if both loops of `wifi_http` take it for one of the connection. -/
def tcpIn (f : Frame) : Option TcpIn :=
  let e := etherOffset f
  let ip4 := e + 14
  let ihl := (f.bytes ip4 &&& 0xF).toNat * 4
  let tcp := ip4 + ihl
  if chan f ≠ 2 ∨ f.len < doff f + 4 then none
  else if f.len < e + (14 + 20 + 20) ∨ f.bytes (e + 12) ≠ 0x08 ∨ f.bytes (e + 13) ≠ 0x00 then none
  else if f.bytes (ip4 + 9) ≠ 6 ∨ be16 f.bytes (tcp + 2) ≠ httpPort then none
  else
    let thl := (f.bytes (tcp + 12) >>> 4).toNat * 4
    let dlen := (be16 f.bytes (ip4 + 2)).toNat - ihl - thl
    some
      { seq := be32 f.bytes (tcp + 4)
        flags := f.bytes (tcp + 13)
        payload := (List.range dlen).map fun k => f.bytes (tcp + thl + k) }

structure TcpTx where
  seq : UInt32
  ack : UInt32
  flags : UInt8
  data : List UInt8

/-- `wifi_tcp_send`: what does not fit the frame buffer is not sent. -/
def tcpSend (seq ack : UInt32) (flags : UInt8) (data : List UInt8) : List TcpTx :=
  if 14 + 20 + 20 + data.length > 700 then [] else [{ seq, ack, flags, data }]

inductive HttpPhase
  | handshake | failed | receiving | ended
deriving DecidableEq

/-- A call behind its SYN. `received` counts the bytes that were taken in order. -/
structure HttpGet where
  phase : HttpPhase
  w : ℕ
  idle : ℕ
  ourSeq : UInt32
  ourAck : UInt32
  fin : Bool
  buf : List UInt8
  received : ℕ
  tx : List TcpTx

/-- `sizeof(wifi_http_buf) - 1` -/
def httpBufRoom : ℕ := 12287

def httpIss : UInt32 := 0x015A0000

namespace HttpGet

def start : HttpGet where
  phase := .handshake
  w := 0
  idle := 0
  ourSeq := httpIss
  ourAck := 0
  fin := false
  buf := []
  received := 0
  tx := tcpSend httpIss 0 0x02 []

variable (c : HttpGet)

/-- The SYN is sent again every 60 turns. -/
def resend : HttpGet :=
  if c.w ≠ 0 ∧ c.w % 60 = 0 then { c with tx := c.tx ++ tcpSend httpIss 0 0x02 [] } else c

/-- A turn of the handshake without a SYN-ACK. -/
def waited : HttpGet :=
  let c := c.resend
  { c with w := c.w + 1, phase := if c.w + 1 < 600 then .handshake else .failed }

/-- `GET / HTTP/1.0` with the host. -/
def request (host : List UInt8) : List UInt8 :=
  ("GET / HTTP/1.0\r\nHost: ".toList.map fun c => UInt8.ofNat c.toNat) ++ host ++
    ("\r\nConnection: close\r\n\r\n".toList.map fun c => UInt8.ofNat c.toNat)

/-- A SYN-ACK is answered, and the request is sent. -/
def connected (host : List UInt8) (theirSeq : UInt32) : HttpGet :=
  let c := c.resend
  let seq := httpIss + 1
  let ack := theirSeq + 1
  { c with
    phase := .receiving
    w := 0
    ourSeq := seq + UInt32.ofNat (request host).length
    ourAck := ack
    tx := c.tx ++ tcpSend seq ack 0x10 [] ++ tcpSend seq ack 0x18 (request host) }

/-- The turn of the receive loop is over. -/
def turned : HttpGet :=
  { c with w := c.w + 1, phase := if c.w + 1 < 2000 ∧ c.fin = false then .receiving else .ended }

/-- Nothing to read. -/
def rested : HttpGet :=
  if c.idle + 1 > 400 then { c with idle := c.idle + 1, phase := .ended }
  else { c with idle := c.idle + 1 }.turned

/-- The data of a segment. -/
def takeData (t : TcpIn) : HttpGet :=
  if t.payload ≠ [] ∧ t.seq = c.ourAck then
    let ack := c.ourAck + UInt32.ofNat t.payload.length
    { c with
      buf := c.buf ++ t.payload.take (httpBufRoom - c.buf.length)
      received := c.received + t.payload.length
      ourAck := ack
      tx := c.tx ++ tcpSend c.ourSeq ack 0x10 [] }
  else if t.payload ≠ [] then { c with tx := c.tx ++ tcpSend c.ourSeq c.ourAck 0x10 [] }
  else c

/-- The FIN of a segment. -/
def takeFin (t : TcpIn) : HttpGet :=
  if t.flags &&& 0x01 ≠ 0 then
    { c with
      ourAck := c.ourAck + 1
      tx := c.tx ++ tcpSend c.ourSeq (c.ourAck + 1) 0x11 []
      fin := true }
  else c

/-- A turn of the receive loop with a segment. -/
def segment (t : TcpIn) : HttpGet :=
  let c := ({ c with idle := 0 }.takeData t).takeFin t
  if c.buf.length ≥ httpBufRoom then { c with phase := .ended } else c.turned

/-- A frame is read; the call is over in the other phases. -/
def frame (host : List UInt8) (f : Frame) : Option HttpGet :=
  match c.phase with
  | .handshake =>
    match tcpIn f with
    | some t => if t.flags &&& 0x12 = 0x12 then some (c.connected host t.seq) else some c.waited
    | none => some c.waited
  | .receiving =>
    match tcpIn f with
    | some t => some (c.segment t)
    | none => some { c with idle := 0 }.turned
  | _ => none

def quiet : Option HttpGet :=
  match c.phase with
  | .handshake => some c.waited
  | .receiving => some c.rested
  | _ => none

end HttpGet

structure HttpPeer where
  isn : UInt32
  stream : List UInt8

/-- A segment of the peer: bytes of its stream, and a FIN behind the last one. -/
structure PeerSegment where
  pos : ℕ
  len : ℕ
  fin : Bool
deriving DecidableEq

namespace HttpPeer

variable (p : HttpPeer)

def data (seg : PeerSegment) : List UInt8 := (p.stream.drop seg.pos).take seg.len

/-- The window that the client announces. -/
def window : ℕ := 0x2000

/-- A segment that may be sent when so many bytes may have been acknowledged. -/
def Sends (acked : ℕ) (seg : PeerSegment) : Prop :=
  seg.pos + seg.len ≤ p.stream.length ∧ (seg.fin = true → seg.pos + seg.len = p.stream.length) ∧
    seg.pos + seg.len ≤ acked + window

instance (acked : ℕ) (seg : PeerSegment) : Decidable (p.Sends acked seg) :=
  inferInstanceAs (Decidable (_ ∧ _ ∧ _))

/-- How a segment looks to the client. -/
def Shows (seg : PeerSegment) (t : TcpIn) : Prop :=
  t.seq = p.isn + 1 + UInt32.ofNat seg.pos ∧ t.payload = p.data seg ∧
    (t.flags &&& 0x01 ≠ 0 ↔ seg.fin = true) ∧ t.flags &&& 0x02 = 0

instance (seg : PeerSegment) (t : TcpIn) : Decidable (p.Shows seg t) :=
  inferInstanceAs (Decidable (_ ∧ _ ∧ _ ∧ _))

/-- How its SYN-ACK looks to the client. -/
def ShowsSynAck (t : TcpIn) : Prop :=
  t.seq = p.isn ∧ t.payload = [] ∧ t.flags &&& 0x12 = 0x12 ∧ t.flags &&& 0x01 = 0

instance (t : TcpIn) : Decidable (p.ShowsSynAck t) := inferInstanceAs (Decidable (_ ∧ _ ∧ _ ∧ _))

/-- The headers in front of a segment of `n` bytes: those of the chip, Ethernet, IPv4 and TCP
without options. -/
def tcpHeader (seq : UInt32) (flags : UInt8) (n : ℕ) : List UInt8 :=
  [0, 0, 0, 0, 0, 2, 0, 12, 0, 0, 0, 0, 0, 0, 0, 0,
    0, 0, 0, 0, 0, 0, 0, 0, 0, 0, 0, 0, 0x08, 0x00,
    0x45, 0, UInt8.ofNat ((n + 40) / 256), UInt8.ofNat (n + 40), 0, 0, 0, 0, 0, 6, 0, 0,
    0, 0, 0, 0, 0, 0, 0, 0] ++
  ([0, 80, 0xC0, 0xDE, (seq >>> 24).toUInt8, (seq >>> 16).toUInt8, (seq >>> 8).toUInt8, seq.toUInt8,
    0, 0, 0, 0, 0x50, flags, 0, 0, 0, 0, 0, 0] : List UInt8)

def tcpFrame (seq : UInt32) (flags : UInt8) (data : List UInt8) : Frame where
  bytes o := (tcpHeader seq flags data.length ++ data).getD o 0
  len := 70 + data.length

theorem tcpFrame_data (seq : UInt32) (flags : UInt8) (data : List UInt8) :
    ((List.range data.length).map fun k => (tcpFrame seq flags data).bytes (70 + k)) = data := by
  apply List.ext_getElem
  · simp
  · intro k hk hk'
    have hlen : (tcpHeader seq flags data.length).length = 70 := rfl
    simp only [List.getElem_map, List.getElem_range, tcpFrame, List.getD_eq_getElem?_getD]
    rw [List.getElem?_append_right (by omega), hlen, Nat.add_sub_cancel_left,
      List.getElem?_eq_getElem hk', Option.getD_some]

/-- A segment is found where it was put. -/
theorem tcpIn_tcpFrame (seq : UInt32) (flags : UInt8) {data : List UInt8}
    (hlen : data.length + 40 < 65536) :
    tcpIn (tcpFrame seq flags data) = some { seq, flags, payload := data } := by
  have hdoff : doff (tcpFrame seq flags data) = 12 := rfl
  have hether : etherOffset (tcpFrame seq flags data) = 16 := rfl
  have hihl : ((tcpFrame seq flags data).bytes 30 &&& 0xF).toNat * 4 = 20 := by
    rw [show (tcpFrame seq flags data).bytes 30 = 0x45 from rfl]
    decide
  have hthl : ((tcpFrame seq flags data).bytes 62 >>> 4).toNat * 4 = 20 := by
    rw [show (tcpFrame seq flags data).bytes 62 = 0x50 from rfl]
    decide
  have hchan : chan (tcpFrame seq flags data) = 2 := by
    rw [chan, show (tcpFrame seq flags data).bytes 5 = 2 from rfl]
    decide
  have htotal : be16 (tcpFrame seq flags data).bytes 32 = UInt16.ofNat (data.length + 40) :=
    be16_halves _ _ hlen rfl rfl
  have hseq : be32 (tcpFrame seq flags data).bytes 54 = seq := be32_bytes32 _ _ rfl rfl rfl rfl
  have hport : be16 (tcpFrame seq flags data).bytes 52 = httpPort := by
    rw [be16, show (tcpFrame seq flags data).bytes 52 = 0xC0 from rfl,
      show (tcpFrame seq flags data).bytes (52 + 1) = 0xDE from rfl]
    decide
  have htype : (tcpFrame seq flags data).bytes 28 = 0x08 ∧
      (tcpFrame seq flags data).bytes 29 = 0x00 := ⟨rfl, rfl⟩
  have hproto : (tcpFrame seq flags data).bytes 39 = 6 := rfl
  have hflags : (tcpFrame seq flags data).bytes 63 = flags := rfl
  have hsize : (tcpFrame seq flags data).len = 70 + data.length := rfl
  have hdlen : (UInt16.ofNat (data.length + 40)).toNat - 20 - 20 = data.length := by
    rw [UInt16.toNat_ofNat']
    omega
  unfold tcpIn
  simp only [hether, hdoff, hchan, htype, hihl, hproto, hsize, hport, hthl, htotal, hdlen, hseq, hflags]
  rw [if_neg (by simp; omega), if_neg (by simp), if_neg (by simp)]
  exact congrArg (fun d => some (TcpIn.mk seq flags d)) (tcpFrame_data seq flags data)

/-- A frame with a segment of the peer in it. -/
def frame (seg : PeerSegment) : Frame :=
  tcpFrame (p.isn + 1 + UInt32.ofNat seg.pos) (if seg.fin then 0x11 else 0x10) (p.data seg)

def synAckFrame : Frame := tcpFrame p.isn 0x12 []

/-- A segment in a frame shows what the peer has sent. -/
theorem frame_shows {seg : PeerSegment} (hlen : seg.len + 40 < 65536) :
    ∃ t, tcpIn (p.frame seg) = some t ∧ p.Shows seg t := by
  have hdata : (p.data seg).length + 40 < 65536 := by
    rw [data, List.length_take]
    omega
  have hbits : ∀ fin : Bool, ((if fin then 0x11 else 0x10 : UInt8) &&& 0x01 ≠ 0 ↔ fin = true) ∧
      (if fin then 0x11 else 0x10 : UInt8) &&& 0x02 = 0 := by decide
  exact ⟨_, tcpIn_tcpFrame _ _ hdata, rfl, rfl, hbits seg.fin⟩

theorem synAckFrame_shows : ∃ t, tcpIn p.synAckFrame = some t ∧ p.ShowsSynAck t := by
  have hbits : (0x12 : UInt8) &&& 0x12 = 0x12 ∧ (0x12 : UInt8) &&& 0x01 = 0 := by decide
  exact ⟨_, tcpIn_tcpFrame _ _ (by decide), rfl, rfl, hbits⟩

end HttpPeer

/-- The call, and the segments that the peer has sent so far; any of them may be lost, or be read
late and more than once. -/
structure HttpSystem where
  client : HttpGet
  sent : List PeerSegment

inductive HttpEvent
  | send (seg : PeerSegment)
  | quiet
  /-- A frame without a segment of the connection is read. -/
  | other (f : Frame)
  | synAck (f : Frame)
  | deliver (i : ℕ) (f : Frame)

namespace HttpSystem

def init : HttpSystem := ⟨.start, []⟩

variable (p : HttpPeer) (host : List UInt8)

def step (s : HttpSystem) : HttpEvent → Option HttpSystem
  | .send seg => if p.Sends s.client.received seg then some { s with sent := s.sent ++ [seg] } else none
  | .quiet => s.client.quiet.map fun c => { s with client := c }
  | .other f =>
    if tcpIn f = none then (s.client.frame host f).map fun c => { s with client := c } else none
  | .synAck f =>
    match tcpIn f with
    | some t =>
      if p.ShowsSynAck t then (s.client.frame host f).map fun c => { s with client := c } else none
    | none => none
  | .deliver i f =>
    match s.sent[i]?, tcpIn f with
    | some seg, some t =>
      if p.Shows seg t then (s.client.frame host f).map fun c => { s with client := c } else none
    | _, _ => none

/-- The handshake is over, and the call goes on or has ended behind it. -/
def Connected (s : HttpSystem) : Prop := s.client.phase = .receiving ∨ s.client.phase = .ended

instance (s : HttpSystem) : Decidable s.Connected := inferInstanceAs (Decidable (_ ∨ _))

/-- Behind a FIN the number is one more. -/
def AckInOrder (s : HttpSystem) : Prop :=
  s.client.ourAck = p.isn + 1 + UInt32.ofNat s.client.received + if s.client.fin then 1 else 0

def Whole (s : HttpSystem) : Prop :=
  s.client.phase = .ended → s.client.fin = true → s.client.buf.length < httpBufRoom →
    s.client.buf = p.stream

instance (s : HttpSystem) : Decidable (s.Whole p) := inferInstanceAs (Decidable (_ → _ → _ → _))

def PageKept (s : HttpSystem) : Prop :=
  s.client.buf <+: p.stream ∧ (s.Connected → s.AckInOrder p) ∧ s.Whole p

/-- A FIN that is read has no byte in front of it that is missing, apart from those of its own
segment. -/
def FinInOrder (s : HttpSystem) : HttpEvent → Prop
  | .deliver i f => ∀ seg, s.sent[i]? = some seg → seg.fin = true →
      (s.step p host (.deliver i f)).isSome → s.client.phase = .receiving →
        seg.pos = s.client.received ∨ s.client.received = p.stream.length
  | _ => True

instance (s : HttpSystem) : ∀ e, Decidable (s.FinInOrder p host e)
  | .deliver i f => inferInstanceAs (Decidable (∀ seg ∈ s.sent[i]?, seg.fin = true →
      (s.step p host (.deliver i f)).isSome → s.client.phase = .receiving →
        seg.pos = s.client.received ∨ s.client.received = p.stream.length))
  | .send _ | .quiet | .other _ | .synAck _ => .isTrue trivial

/-- What holds in every run. -/
structure Inv (s : HttpSystem) : Prop where
  sent : ∀ seg ∈ s.sent, p.Sends s.client.received seg
  received_le : s.client.received ≤ p.stream.length
  buf : s.client.buf = (p.stream.take s.client.received).take httpBufRoom
  early : s.client.phase = .handshake ∨ s.client.phase = .failed →
    s.client.received = 0 ∧ s.client.fin = false
  room : s.client.phase = .receiving → s.client.received < httpBufRoom ∧ s.client.fin = false
  ack : s.Connected → s.AckInOrder p

/-- No byte is missing in front of a FIN that was read. -/
def FinWhole (s : HttpSystem) : Prop := s.client.fin = true → s.client.received = p.stream.length

variable {p host} {s s' : HttpSystem}

theorem Inv.begins (h : s.Inv p) : s.client.buf <+: p.stream := by
  rw [h.buf]
  exact (List.take_prefix _ _).trans (List.take_prefix _ _)

theorem Inv.kept (h : s.Inv p) (hwhole : s.FinWhole p) : s.PageKept p := by
  refine ⟨h.begins, h.ack, fun _ hfin hroom => ?_⟩
  have hbuf := h.buf
  rw [hwhole hfin, List.take_length] at hbuf
  rw [hbuf, List.length_take] at hroom
  rw [hbuf, List.take_of_length_le (by omega)]

theorem Inv.buf_length (h : s.Inv p) : s.client.buf.length = min s.client.received httpBufRoom := by
  rw [h.buf, List.length_take, List.length_take, min_eq_left h.received_le, min_comm]

theorem init_inv : init.Inv p where
  sent := by simp [init]
  received_le := Nat.zero_le _
  buf := by simp [init, HttpGet.start]
  early _ := ⟨rfl, rfl⟩
  room h := by cases h
  ack h := by rcases h with h | h <;> cases h

/-- A turn that takes no byte and no FIN. -/
structure Idle (c c' : HttpGet) : Prop where
  received : c'.received = c.received
  buf : c'.buf = c.buf
  ourAck : c'.ourAck = c.ourAck
  fin : c'.fin = c.fin
  phase : c.phase = .handshake ∧ (c'.phase = .handshake ∨ c'.phase = .failed) ∨
    c.phase = .receiving ∧ (c'.phase = .receiving ∨ c'.phase = .ended)

theorem resend_same (c : HttpGet) : c.resend.received = c.received ∧ c.resend.buf = c.buf ∧
    c.resend.ourAck = c.ourAck ∧ c.resend.fin = c.fin := by
  unfold HttpGet.resend
  split_ifs <;> exact ⟨rfl, rfl, rfl, rfl⟩

theorem waited_idle {c : HttpGet} (h : c.phase = .handshake) : Idle c c.waited := by
  obtain ⟨hr, hb, ha, hf⟩ := resend_same c
  refine ⟨hr, hb, ha, hf, .inl ⟨h, ?_⟩⟩
  simp only [HttpGet.waited]
  split_ifs
  · exact .inl rfl
  · exact .inr rfl

theorem turned_phase (c : HttpGet) : c.turned.phase = .receiving ∨ c.turned.phase = .ended := by
  simp only [HttpGet.turned]
  split_ifs
  · exact .inl rfl
  · exact .inr rfl

theorem quiet_idle {c c' : HttpGet} (h : c.quiet = some c') : Idle c c' := by
  unfold HttpGet.quiet at h
  split at h
  · next hc =>
    cases h
    exact waited_idle hc
  · next hc =>
    cases h
    unfold HttpGet.rested
    split_ifs
    · exact ⟨rfl, rfl, rfl, rfl, .inr ⟨hc, .inr rfl⟩⟩
    · exact ⟨rfl, rfl, rfl, rfl, .inr ⟨hc, turned_phase _⟩⟩
  · cases h

theorem other_idle {c c' : HttpGet} {f : Frame} (hf : tcpIn f = none)
    (h : c.frame host f = some c') : Idle c c' := by
  unfold HttpGet.frame at h
  rw [hf] at h
  split at h
  · next hc =>
    cases h
    exact waited_idle hc
  · next hc =>
    cases h
    exact ⟨rfl, rfl, rfl, rfl, .inr ⟨hc, turned_phase _⟩⟩
  · cases h

theorem segment_phase (c : HttpGet) (t : TcpIn) :
    (c.segment t).phase = .receiving ∨ (c.segment t).phase = .ended := by
  simp only [HttpGet.segment]
  split_ifs
  · exact .inr rfl
  · exact turned_phase _

theorem segment_idle {c : HttpGet} {t : TcpIn} (hc : c.phase = .receiving)
    (hdata : t.payload = [] ∨ t.seq ≠ c.ourAck) (hfin : t.flags &&& 0x01 = 0) :
    Idle c (c.segment t) := by
  have hsame : Idle c { ({ c with idle := 0 }.takeData t).takeFin t with phase := .ended } := by
    simp only [HttpGet.takeFin, hfin, ne_eq, not_true_eq_false, if_false, HttpGet.takeData]
    rcases hdata with hnil | hseq
    · simp only [hnil, not_true_eq_false, false_and, if_false]
      exact ⟨rfl, rfl, rfl, rfl, .inr ⟨hc, .inr rfl⟩⟩
    · simp only [hseq, and_false, if_false]
      split_ifs <;> exact ⟨rfl, rfl, rfl, rfl, .inr ⟨hc, .inr rfl⟩⟩
  obtain ⟨hr, hb, ha, hf, -⟩ := hsame
  refine ⟨?_, ?_, ?_, ?_, .inr ⟨hc, segment_phase c t⟩⟩
  all_goals
    simp only [HttpGet.segment]
    split_ifs
    all_goals assumption

/-- What becomes of a segment. -/
theorem frame_segment {c c' : HttpGet} {f : Frame} {t : TcpIn} (ht : tcpIn f = some t)
    (h : c.frame host f = some c') :
    c.phase = .handshake ∧
        c' = (if t.flags &&& 0x12 = 0x12 then c.connected host t.seq else c.waited) ∨
      c.phase = .receiving ∧ c' = c.segment t := by
  unfold HttpGet.frame at h
  rw [ht] at h
  split at h
  · next hc =>
    refine .inl ⟨hc, ?_⟩
    simp only at h
    split_ifs at h ⊢ <;> exact (Option.some_inj.mp h).symm
  · next hc => exact .inr ⟨hc, (Option.some_inj.mp h).symm⟩
  · cases h

/-- Without the SYN bit it is no SYN-ACK. -/
theorem not_synAck {flags : UInt8} (h : flags &&& 0x02 = 0) : ¬ flags &&& 0x12 = 0x12 := by
  intro hk
  have hbit : flags &&& 0x12 &&& 0x02 = 0x02 := by
    rw [hk]
    rfl
  rw [UInt8.and_assoc] at hbit
  have h02 : (0x12 : UInt8) &&& 0x02 = 0x02 := rfl
  rw [h02, h] at hbit
  cases hbit

theorem Inv.idle {c' : HttpGet} (h : s.Inv p) (hidle : Idle s.client c') :
    Inv p { s with client := c' } := by
  obtain ⟨hr, hb, ha, hf, hphase⟩ := hidle
  refine ⟨?_, ?_, ?_, ?_, ?_, ?_⟩
  · simpa only [hr] using h.sent
  · simpa only [hr] using h.received_le
  · simpa only [hr, hb] using h.buf
  · intro hearly
    rcases hphase with ⟨hc, -⟩ | ⟨-, hc' | hc'⟩
    · simpa only [hr, hf] using h.early (.inl hc)
    · rw [hc'] at hearly
      rcases hearly with he | he <;> cases he
    · rw [hc'] at hearly
      rcases hearly with he | he <;> cases he
  · intro hrecv
    rcases hphase with ⟨-, hc' | hc'⟩ | ⟨hc, -⟩
    · cases hc'.symm.trans hrecv
    · cases hc'.symm.trans hrecv
    · simpa only [hr, hf] using h.room hc
  · intro hconn
    rcases hphase with ⟨-, hc' | hc'⟩ | ⟨hc, -⟩
    · rcases hconn with hk | hk <;> cases hc'.symm.trans hk
    · rcases hconn with hk | hk <;> cases hc'.symm.trans hk
    · simpa only [AckInOrder, hr, ha, hf] using h.ack (.inl hc)

theorem FinWhole.idle {c' : HttpGet} (h : s.FinWhole p) (hidle : Idle s.client c') :
    FinWhole p { s with client := c' } := by
  intro hfin
  rw [hidle.received]
  exact h (hidle.fin.symm.trans hfin)

theorem connected_inv (h : s.Inv p) (hc : s.client.phase = .handshake) :
    Inv p { s with client := s.client.connected host p.isn } := by
  obtain ⟨hreceived, hfin⟩ := h.early (.inl hc)
  obtain ⟨hr, hb, -, hf⟩ := resend_same s.client
  have hr' : (s.client.connected host p.isn).received = 0 := hr.trans hreceived
  have hf' : (s.client.connected host p.isn).fin = false := hf.trans hfin
  have hb' : (s.client.connected host p.isn).buf = s.client.buf := hb
  refine ⟨?_, ?_, ?_, ?_, ?_, ?_⟩
  · have hsent := h.sent
    rw [hreceived] at hsent
    simpa only [hr'] using hsent
  · simpa only [hr'] using Nat.zero_le _
  · have hbuf := h.buf
    rw [hreceived] at hbuf
    simpa only [hr', hb'] using hbuf
  · rintro (he | he) <;> cases he
  · intro _
    rw [hr', hf']
    exact ⟨by decide, rfl⟩
  · intro _
    simp only [AckInOrder, hr', hf']
    simp [HttpGet.connected]

theorem segment_fields (c : HttpGet) (t : TcpIn) :
    (c.segment t).received = (c.takeData t).received ∧ (c.segment t).buf = (c.takeData t).buf ∧
    (c.segment t).fin = (c.fin || decide (t.flags &&& 0x01 ≠ 0)) ∧
    (c.segment t).ourAck = (c.takeData t).ourAck + if t.flags &&& 0x01 ≠ 0 then 1 else 0 := by
  have hsame : ∀ c' : HttpGet, (if c'.buf.length ≥ httpBufRoom then { c' with phase := .ended }
      else c'.turned).received = c'.received ∧ (if c'.buf.length ≥ httpBufRoom then
        { c' with phase := .ended } else c'.turned).buf = c'.buf ∧
      (if c'.buf.length ≥ httpBufRoom then { c' with phase := .ended } else c'.turned).fin = c'.fin ∧
      (if c'.buf.length ≥ httpBufRoom then { c' with phase := .ended }
        else c'.turned).ourAck = c'.ourAck := by
    intro c'
    split_ifs <;> exact ⟨rfl, rfl, rfl, rfl⟩
  obtain ⟨hr, hb, hf, ha⟩ := hsame (({ c with idle := 0 }.takeData t).takeFin t)
  simp only [HttpGet.segment]
  rw [hr, hb, hf, ha]
  simp only [HttpGet.takeFin, HttpGet.takeData]
  split_ifs <;> simp_all

theorem data_length {seg : PeerSegment} (h : seg.pos + seg.len ≤ p.stream.length) :
    (p.data seg).length = seg.len := by
  rw [HttpPeer.data, List.length_take, List.length_drop]
  omega

theorem seq_eq_iff {m n : ℕ} (hm : m < 2 ^ 32) (hn : n < 2 ^ 32) :
    p.isn + 1 + UInt32.ofNat m = p.isn + 1 + UInt32.ofNat n ↔ m = n := by
  rw [UInt32.add_right_inj]
  constructor
  · intro h
    have hnat := congrArg UInt32.toNat h
    rwa [UInt32.toNat_ofNat', UInt32.toNat_ofNat', Nat.mod_eq_of_lt hm, Nat.mod_eq_of_lt hn] at hnat
  · rintro rfl
    rfl

theorem data_eq_nil_iff {seg : PeerSegment} (h : seg.pos + seg.len ≤ p.stream.length) :
    p.data seg = [] ↔ seg.len = 0 := by
  rw [← List.length_eq_zero_iff, data_length h]

/-- What is stored of the bytes that are taken is the next part of the page. -/
theorem stored_eq {n : ℕ} (hn : n < httpBufRoom) {seg : PeerSegment} (hpos : seg.pos = n)
    (hend : seg.pos + seg.len ≤ p.stream.length) :
    (p.stream.take n).take httpBufRoom ++ (p.data seg).take
        (httpBufRoom - ((p.stream.take n).take httpBufRoom).length) =
      (p.stream.take (n + seg.len)).take httpBufRoom := by
  subst hpos
  have hshort : (p.stream.take seg.pos).length = seg.pos := by
    rw [List.length_take]
    omega
  rw [List.take_of_length_le (by omega : (p.stream.take seg.pos).length ≤ httpBufRoom), hshort,
    List.take_add, List.take_append, hshort,
    List.take_of_length_le (by omega : (p.stream.take seg.pos).length ≤ httpBufRoom)]
  rfl

/-- The data of a segment is taken when it begins where the bytes so far end. -/
theorem takeData_eq (h : s.Inv p) (hc : s.client.phase = .receiving) {seg : PeerSegment} {t : TcpIn}
    (hsends : p.Sends s.client.received seg) (hshows : p.Shows seg t) :
    (s.client.takeData t).received =
        (if seg.pos = s.client.received then s.client.received + seg.len else s.client.received) ∧
      (s.client.takeData t).buf = (p.stream.take (s.client.takeData t).received).take httpBufRoom ∧
      (s.client.takeData t).ourAck =
        p.isn + 1 + UInt32.ofNat (s.client.takeData t).received := by
  obtain ⟨hroom, hfin⟩ := h.room hc
  obtain ⟨hend, -, hwindow⟩ := hsends
  obtain ⟨hseq, hpayload, -, -⟩ := hshows
  have hack : s.client.ourAck = p.isn + 1 + UInt32.ofNat s.client.received := by
    have hinv := h.ack (.inl hc)
    rw [AckInOrder, hfin] at hinv
    simpa using hinv
  have hbound : s.client.received < 2 ^ 32 ∧ seg.pos < 2 ^ 32 := by
    simp only [httpBufRoom, HttpPeer.window] at hroom hwindow
    omega
  have hseqiff : t.seq = s.client.ourAck ↔ seg.pos = s.client.received := by
    rw [hseq, hack]
    exact seq_eq_iff hbound.2 hbound.1
  have hnil : t.payload = [] ↔ seg.len = 0 := by
    rw [hpayload]
    exact data_eq_nil_iff hend
  have hcount : t.payload.length = seg.len := by rw [hpayload, data_length hend]
  unfold HttpGet.takeData
  by_cases hlen : seg.len = 0
  · rw [if_neg (fun hk => hk.1 (hnil.mpr hlen)), if_neg (fun hk => hk (hnil.mpr hlen))]
    refine ⟨?_, h.buf, hack⟩
    rw [hlen, Nat.add_zero, ite_self]
  · by_cases hpos : seg.pos = s.client.received
    · rw [if_pos ⟨fun hk => hlen (hnil.mp hk), hseqiff.mpr hpos⟩, if_pos hpos]
      refine ⟨congrArg _ hcount, ?_, ?_⟩
      · simp only [hpayload, h.buf, data_length hend]
        exact stored_eq hroom hpos hend
      · simp only [hcount, hack, UInt32.ofNat_add]
        exact add_assoc _ _ _
    · rw [if_neg (fun hk => hpos (hseqiff.mp hk.2)), if_pos (fun hk => hlen (hnil.mp hk)),
        if_neg hpos]
      exact ⟨rfl, h.buf, hack⟩

theorem segment_receiving {c : HttpGet} {t : TcpIn} (h : (c.segment t).phase = .receiving) :
    (c.segment t).buf.length < httpBufRoom ∧ (c.segment t).fin = false := by
  simp only [HttpGet.segment] at h ⊢
  generalize ({ c with idle := 0 }.takeData t).takeFin t = c' at h ⊢
  by_cases hroom : c'.buf.length ≥ httpBufRoom
  · rw [if_pos hroom] at h
    cases h
  · rw [if_neg hroom] at h ⊢
    simp only [HttpGet.turned] at h ⊢
    split_ifs at h with hgo
    exact ⟨not_le.mp hroom, hgo.2⟩

theorem segment_ends {c : HttpGet} {t : TcpIn} (h : (c.segment t).fin = true) :
    (c.segment t).phase = .ended := by
  rcases segment_phase c t with hphase | hphase
  · have hfin := (segment_receiving hphase).2
    cases hfin.symm.trans h
  · exact hphase

/-- The bytes that are taken once a segment has been read. -/
theorem segment_received (h : s.Inv p) (hc : s.client.phase = .receiving) {seg : PeerSegment}
    {t : TcpIn} (hsends : p.Sends s.client.received seg) (hshows : p.Shows seg t) :
    (s.client.segment t).received =
      if seg.pos = s.client.received then s.client.received + seg.len else s.client.received := by
  rw [(segment_fields s.client t).1]
  exact (takeData_eq h hc hsends hshows).1

theorem segment_fin (h : s.Inv p) (hc : s.client.phase = .receiving) {seg : PeerSegment}
    {t : TcpIn} (hshows : p.Shows seg t) : (s.client.segment t).fin = seg.fin := by
  rw [(segment_fields s.client t).2.2.1, (h.room hc).2, Bool.false_or]
  simp only [hshows.2.2.1, Bool.decide_eq_true]

theorem segment_inv (h : s.Inv p) (hc : s.client.phase = .receiving) {seg : PeerSegment} {t : TcpIn}
    (hsends : p.Sends s.client.received seg) (hshows : p.Shows seg t) :
    Inv p { s with client := s.client.segment t } := by
  have hreceived := segment_received h hc hsends hshows
  obtain ⟨hr, hb, -, ha⟩ := segment_fields s.client t
  obtain ⟨-, hbuf, hack⟩ := takeData_eq h hc hsends hshows
  rw [← hr] at hbuf hack
  have hmore : s.client.received ≤ (s.client.segment t).received := by
    rw [hreceived]
    split_ifs <;> omega
  have hless : (s.client.segment t).received ≤ p.stream.length := by
    have hend := hsends.1
    have hle := h.received_le
    rw [hreceived]
    split_ifs <;> omega
  refine ⟨?_, hless, hb.trans hbuf, ?_, ?_, ?_⟩
  · intro seg' hmem
    obtain ⟨hend, hfin, hwindow⟩ := h.sent seg' hmem
    exact ⟨hend, hfin, hwindow.trans (Nat.add_le_add_right hmore _)⟩
  · intro hearly
    rcases segment_phase s.client t with hphase | hphase <;> rcases hearly with he | he <;>
      cases hphase.symm.trans he
  · intro hphase
    obtain ⟨hroom, hfin⟩ := segment_receiving hphase
    rw [hb, hbuf, List.length_take, List.length_take, min_eq_left hless] at hroom
    exact ⟨(min_lt_iff.mp hroom).resolve_left (lt_irrefl _), hfin⟩
  · intro _
    simp only [AckInOrder]
    rw [ha, hack, segment_fin h hc hshows]
    simp only [hshows.2.2.1]

/-- What a step can do. -/
theorem step_cases {e : HttpEvent} (h : s.step p host e = some s') :
    (∃ seg, p.Sends s.client.received seg ∧ s.FinInOrder p host e ∧
      s' = { s with sent := s.sent ++ [seg] }) ∨
    (∃ c', Idle s.client c' ∧ s.FinInOrder p host e ∧ s' = { s with client := c' }) ∨
    (s.client.phase = .handshake ∧ s.FinInOrder p host e ∧
      s' = { s with client := s.client.connected host p.isn }) ∨
    ∃ i f seg t, e = .deliver i f ∧ s.client.phase = .receiving ∧ s.sent[i]? = some seg ∧
      p.Shows seg t ∧ s' = { s with client := s.client.segment t } := by
  cases e with
  | send seg =>
    rw [step] at h
    split_ifs at h with hsends
    cases h
    exact .inl ⟨seg, hsends, trivial, rfl⟩
  | quiet =>
    obtain ⟨c', hc', rfl⟩ := Option.map_eq_some_iff.mp h
    exact .inr (.inl ⟨c', quiet_idle hc', trivial, rfl⟩)
  | other f =>
    rw [step] at h
    split_ifs at h with hf
    obtain ⟨c', hc', rfl⟩ := Option.map_eq_some_iff.mp h
    exact .inr (.inl ⟨c', other_idle hf hc', trivial, rfl⟩)
  | synAck f =>
    rw [step] at h
    split at h
    · next t ht =>
      split_ifs at h with hshows
      obtain ⟨hseq, hnil, hflags, hnofin⟩ := hshows
      obtain ⟨c', hc', rfl⟩ := Option.map_eq_some_iff.mp h
      rcases frame_segment ht hc' with ⟨hphase, rfl⟩ | ⟨hphase, rfl⟩
      · rw [if_pos hflags, hseq]
        exact .inr (.inr (.inl ⟨hphase, trivial, rfl⟩))
      · exact .inr (.inl ⟨_, segment_idle hphase (.inl hnil) hnofin, trivial, rfl⟩)
    · cases h
  | deliver i f =>
    have hstep := h
    rw [step] at h
    split at h
    · next seg t hseg ht =>
      split_ifs at h with hshows
      obtain ⟨c', hc', rfl⟩ := Option.map_eq_some_iff.mp h
      rcases frame_segment ht hc' with ⟨hphase, rfl⟩ | ⟨hphase, rfl⟩
      · have hflags : ¬ t.flags &&& 0x12 = 0x12 := not_synAck hshows.2.2.2
        rw [if_neg hflags]
        refine .inr (.inl ⟨_, waited_idle hphase, fun _ _ _ _ hrecv => ?_, rfl⟩)
        cases hphase.symm.trans hrecv
      · exact .inr (.inr (.inr ⟨i, f, seg, t, rfl, hphase, hseg, hshows, rfl⟩))
    · cases h

theorem Inv.mem_sent (h : s.Inv p) {i : ℕ} {seg : PeerSegment} (hseg : s.sent[i]? = some seg) :
    p.Sends s.client.received seg := h.sent seg (List.mem_of_getElem? hseg)

theorem step_inv {e : HttpEvent} (h : s.Inv p) (hstep : s.step p host e = some s') : s'.Inv p := by
  obtain ⟨seg, hsends, -, rfl⟩ | ⟨c', hidle, -, rfl⟩ | ⟨hphase, -, rfl⟩ |
    ⟨i, f, seg, t, -, hphase, hseg, hshows, rfl⟩ := step_cases hstep
  · exact { h with sent := forall_mem_snoc h.sent hsends }
  · exact h.idle hidle
  · exact connected_inv h hphase
  · exact segment_inv h hphase (h.mem_sent hseg) hshows

/-- A FIN that is read in order has the whole page in front of it. -/
theorem step_finWhole {e : HttpEvent} (h : s.Inv p) (hwhole : s.FinWhole p)
    (horder : s.FinInOrder p host e) (hstep : s.step p host e = some s') : s'.FinWhole p := by
  obtain ⟨seg, -, -, rfl⟩ | ⟨c', hidle, -, rfl⟩ | ⟨hphase, -, rfl⟩ |
    ⟨i, f, seg, t, rfl, hphase, hseg, hshows, rfl⟩ := step_cases hstep
  · exact hwhole
  · exact hwhole.idle hidle
  · intro hfin
    have hnone : (s.client.connected host p.isn).fin = s.client.fin := (resend_same s.client).2.2.2
    cases (hnone.symm.trans hfin).symm.trans (h.early (.inl hphase)).2
  · intro hfin
    have hsends := h.mem_sent hseg
    rw [segment_received h hphase hsends hshows]
    rw [segment_fin h hphase hshows] at hfin
    have hend := hsends.2.1 hfin
    have hfound := horder seg hseg hfin (by rw [hstep]; rfl) hphase
    split_ifs with hpos
    · omega
    · exact hfound.resolve_left hpos

/-- A FIN that is read too early ends the call, and the page is cut short. -/
theorem step_cut {e : HttpEvent} (h : s.Inv p) (horder : ¬ s.FinInOrder p host e)
    (hstep : s.step p host e = some s') : ¬ s'.Whole p := by
  obtain ⟨seg, -, hok, -⟩ | ⟨c', -, hok, -⟩ | ⟨-, hok, -⟩ |
    ⟨i, f, seg, t, rfl, hphase, hseg, hshows, rfl⟩ := step_cases hstep
  · exact absurd hok horder
  · exact absurd hok horder
  · exact absurd hok horder
  · intro hwhole
    apply horder
    intro seg' hseg' hfin _ _
    cases hseg.symm.trans hseg'
    by_contra hearly
    obtain ⟨hpos, hmissing⟩ := not_or.mp hearly
    have hinv := segment_inv h hphase (h.mem_sent hseg) hshows
    have hreceived := segment_received h hphase (h.mem_sent hseg) hshows
    rw [if_neg hpos] at hreceived
    have hfin' := (segment_fin h hphase hshows).trans hfin
    have hlen : (s.client.segment t).buf.length = s.client.received := by
      have hbuf : (s.client.segment t).buf = _ := hinv.buf
      have hroom := (h.room hphase).1
      have hle := h.received_le
      rw [hbuf, hreceived, List.length_take, List.length_take]
      omega
    have hpage := hwhole (segment_ends hfin') hfin' (by rw [hlen]; exact (h.room hphase).1)
    rw [hpage] at hlen
    exact hmissing hlen.symm

/-- The page is kept throughout a run exactly when every FIN is read in order. -/
theorem pageKept_iff (p : HttpPeer) (host : List UInt8) (es : List HttpEvent) :
    Always (step p host) (PageKept p) init es ↔ EachStep (step p host) (FinInOrder p host) init es := by
  refine always_iff_eachStep_of_none (fun s => s.Inv p ∧ s.FinWhole p) _ (fun s h => h.1.kept h.2)
    (fun s e s' h hok hstep => ⟨step_inv h.1 hstep, step_finWhole h.1 h.2 hok hstep⟩)
    (fun s e s' h hnok hstep hkept => step_cut h.1 hnok hstep hkept.2.2) ?_
    ⟨init_inv, fun hfin => by cases hfin⟩ es
  intro s e hnone
  cases e with
  | deliver i f =>
    intro seg _ _ hsome _
    rw [hnone] at hsome
    cases hsome
  | _ => trivial

/-- In every run the buffer begins like the stream, and `our_ack` is behind the bytes that were
taken until a FIN is. When the FINs are read in order, it is one more then, and a page that ends
with one is whole. -/
theorem http_client_stream (p : HttpPeer) (host : List UInt8) (es : List HttpEvent) :
    Always (step p host) (fun s => s.client.buf <+: p.stream ∧
        s.client.buf.length = min s.client.received httpBufRoom ∧ (s.Connected →
          s.client.fin = false → s.client.ourAck = p.isn + 1 + UInt32.ofNat s.client.received))
      init es ∧
    (EachStep (step p host) (FinInOrder p host) init es →
      Always (step p host) (PageKept p) init es) := by
  refine ⟨?_, (pageKept_iff p host es).mpr⟩
  refine always_of_invariant (Inv p) _ (fun s h => ⟨h.begins, h.buf_length, fun hconn hfin => ?_⟩)
    (fun s e s' h hstep => step_inv h hstep) init_inv es
  have hack := h.ack hconn
  rw [AckInOrder, hfin] at hack
  simpa using hack

/-- A page of two bytes, numbered across the end of the range. -/
def shortPage : HttpPeer := ⟨0xFFFFFFFF, [72, 105]⟩

/-- The SYN-ACK and the two bytes in a segment each. The second one carries the FIN; the first
one comes again in front of it. -/
def twoSegmentsRun : List HttpEvent :=
  [.synAck (shortPage.synAckFrame), .send ⟨0, 1, false⟩, .send ⟨1, 1, true⟩,
    .deliver 0 (shortPage.frame ⟨0, 1, false⟩), .deliver 0 (shortPage.frame ⟨0, 1, false⟩),
    .deliver 1 (shortPage.frame ⟨1, 1, true⟩)]

theorem http_client_stream_short :
    EachStep (step shortPage []) (FinInOrder shortPage []) init twoSegmentsRun ∧
      Always (step shortPage []) (fun s => s.client.buf <+: shortPage.stream ∧
        s.client.buf.length = min s.client.received httpBufRoom ∧ (s.Connected →
          s.client.fin = false → s.client.ourAck = shortPage.isn + 1 + UInt32.ofNat s.client.received))
        init twoSegmentsRun ∧
      Always (step shortPage []) (PageKept shortPage) init twoSegmentsRun ∧
      (exec (step shortPage []) init twoSegmentsRun).map (·.client.buf) = some [72, 105] := by
  have horder : EachStep (step shortPage []) (FinInOrder shortPage []) init twoSegmentsRun := by
    decide
  have hstream := http_client_stream shortPage [] twoSegmentsRun
  exact ⟨horder, hstream.1, hstream.2 horder, by decide⟩

/-- The SYN-ACK, and the page in one segment with the FIN. -/
def shortPageRun : List HttpEvent :=
  [.synAck (shortPage.synAckFrame), .send ⟨0, 2, true⟩, .deliver 0 (shortPage.frame ⟨0, 2, true⟩)]

/-- Behind the FIN the number is not the one of the next byte. -/
theorem fin_moves_our_ack : ¬ Always (step shortPage []) (fun s => s.client.buf <+: shortPage.stream ∧
    (s.Connected → s.client.ourAck = shortPage.isn + 1 + UInt32.ofNat s.client.received) ∧
      s.Whole shortPage) init shortPageRun := by
  decide

end HttpSystem

end XinuRpi4.Wifi
