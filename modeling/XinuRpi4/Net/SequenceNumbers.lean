import XinuRpi4.Net.TcpSteps

/-!
# Sequence numbers and the width of the counters

The counters `my_seq` and `peer_seq` have 64 bits and are never reduced, the
fields they are compared with have 32. A slot recognises the segments that agree
with its counter modulo 2^32 as long as the counter it compares is below 2^32.
-/

namespace XinuRpi4.Net

open XinuRpi4.Foundation

namespace TcpConn

variable {c : TcpConn} {seg : Segment}

/-- The tests of received fields turn out as they would modulo 2^32: of the
handshake ACK, of data in order, and of the ACK of the FIN. -/
structure Recognises (c : TcpConn) : Prop where
  handshake : c.state = .synRcvd → ∀ seg : Segment, seg.has flagRst = false →
    seg.has flagAck = true → ((c.onSegment seg).conn.state = .established ↔
      seg.ack.toNat ≡ c.mySeq.toNat [MOD 2 ^ 32])
  inOrder : c.state = .established → ∀ seg : Segment, seg.has flagRst = false → seg.data ≠ [] →
    ((c.onSegment seg).conn.received = c.received ++ seg.data ↔
      seg.seq.toNat ≡ c.peerSeq.toNat [MOD 2 ^ 32])
  closing : c.state = .finWait1 → ∀ seg : Segment, seg.has flagAck = true →
    seg.has flagFin = true → ((c.onSegment seg).conn.state = .listen ↔
      seg.ack.toNat ≡ c.mySeq.toNat [MOD 2 ^ 32])
  lastAck : c.state = .lastAck → ∀ seg : Segment, seg.has flagAck = true →
    ((c.onSegment seg).conn.state = .listen ↔ seg.ack.toNat ≡ c.mySeq.toNat [MOD 2 ^ 32])

/-- The counter that a slot compares with received fields. -/
def tested (c : TcpConn) : Option UInt64 :=
  match c.state with
  | .synRcvd => some c.mySeq
  | .established => some c.peerSeq
  | .finWait1 => some c.mySeq
  | .lastAck => some c.mySeq
  | _ => none

/-- A 32-bit field equals a counter below 2^32 exactly when they agree. -/
theorem field_eq_iff {q : UInt64} (hq : q.toNat < 2 ^ 32) (field : UInt32) :
    field.toUInt64 = q ↔ field.toNat ≡ q.toNat [MOD 2 ^ 32] := by
  have hf := field.toNat_lt
  rw [← UInt64.toNat_inj, UInt32.toNat_toUInt64, Nat.ModEq, Nat.mod_eq_of_lt hf, Nat.mod_eq_of_lt hq]

/-- The field that agrees with a counter equals it only below 2^32. -/
theorem lt_of_field_eq {q : UInt64} (h : q.toUInt32.toUInt64 = q) : q.toNat < 2 ^ 32 := by
  rw [← h, UInt32.toNat_toUInt64]
  exact q.toUInt32.toNat_lt

theorem agrees_toUInt32 (q : UInt64) : q.toUInt32.toNat ≡ q.toNat [MOD 2 ^ 32] := by
  simp [Nat.ModEq]

theorem onSynRcvd_established (hstate : c.state = .synRcvd) (hrst : seg.has flagRst = false)
    (hack : seg.has flagAck = true) :
    (c.onSegment seg).conn.state = .established ↔ seg.ack.toUInt64 = c.mySeq := by
  by_cases h : seg.ack.toUInt64 = c.mySeq <;>
    simp [onSegment, hstate, onSynRcvd, hrst, hack, h]

theorem onEstablished_received (hstate : c.state = .established) (hrst : seg.has flagRst = false)
    (hdata : seg.data ≠ []) :
    (c.onSegment seg).conn.received = c.received ++ seg.data ↔ seg.seq.toUInt64 = c.peerSeq := by
  have hpos : 0 < seg.data.length := List.length_pos_of_ne_nil hdata
  have hreceived : (c.onSegment seg).conn.received = (c.accept seg).received := by
    simp only [onSegment, hstate, onEstablished, hrst, hpos, onData]
    split_ifs <;> first | rfl | simp_all
  rw [hreceived]
  by_cases h : seg.seq.toUInt64 = c.peerSeq <;> simp [accept, append, h, hdata]

theorem onFinWait1_listen (hstate : c.state = .finWait1) (hack : seg.has flagAck = true)
    (hfin : seg.has flagFin = true) :
    (c.onSegment seg).conn.state = .listen ↔ seg.ack.toUInt64 = c.mySeq := by
  by_cases h : seg.ack.toUInt64 = c.mySeq <;>
    simp [onSegment, hstate, onFinWait1, hack, hfin, h]

theorem onLastAck_listen (hstate : c.state = .lastAck) (hack : seg.has flagAck = true) :
    (c.onSegment seg).conn.state = .listen ↔ seg.ack.toUInt64 = c.mySeq := by
  by_cases h : seg.ack.toUInt64 = c.mySeq <;>
    simp [onSegment, hstate, onLastAck, hack, h]

/-- A segment with given fields, from anywhere. -/
def probe (seq ack : UInt32) (flags : UInt8) (data : List UInt8) : Segment where
  ip := 0
  port := 0
  seq := seq
  ack := ack
  flags := flags
  data := data

theorem probe_has (seq ack : UInt32) (flags flag : UInt8) (data : List UInt8) :
    (probe seq ack flags data).has flag = (flags &&& flag != 0) := rfl

/-- A slot recognises what it should exactly as long as the counter it compares
has not outgrown the field. -/
theorem recognises_iff (c : TcpConn) :
    c.Recognises ↔ ∀ q, c.tested = some q → q.toNat < 2 ^ 32 := by
  constructor
  · intro h q hq
    apply lt_of_field_eq
    cases hstate : c.state with
    | closed => simp [tested, hstate] at hq
    | listen => simp [tested, hstate] at hq
    | synRcvd =>
      obtain rfl : c.mySeq = q := by simpa [tested, hstate] using hq
      have hrst : (probe 0 c.mySeq.toUInt32 flagAck []).has flagRst = false := by
        rw [probe_has]
        decide
      have hack : (probe 0 c.mySeq.toUInt32 flagAck []).has flagAck = true := by
        rw [probe_has]
        decide
      refine (onSynRcvd_established hstate hrst hack).mp ?_
      exact (h.handshake hstate _ hrst hack).mpr (agrees_toUInt32 _)
    | established =>
      obtain rfl : c.peerSeq = q := by simpa [tested, hstate] using hq
      have hdata : (probe c.peerSeq.toUInt32 0 flagAck [0]).data ≠ [] := by simp [probe]
      have hrst : (probe c.peerSeq.toUInt32 0 flagAck [0]).has flagRst = false := by
        rw [probe_has]
        decide
      refine (onEstablished_received hstate hrst hdata).mp ?_
      exact (h.inOrder hstate _ hrst hdata).mpr (agrees_toUInt32 _)
    | finWait1 =>
      obtain rfl : c.mySeq = q := by simpa [tested, hstate] using hq
      have hack : (probe 0 c.mySeq.toUInt32 (flagAck ||| flagFin) []).has flagAck = true := by
        rw [probe_has]
        decide
      have hfin : (probe 0 c.mySeq.toUInt32 (flagAck ||| flagFin) []).has flagFin = true := by
        rw [probe_has]
        decide
      refine (onFinWait1_listen hstate hack hfin).mp ?_
      exact (h.closing hstate _ hack hfin).mpr (agrees_toUInt32 _)
    | lastAck =>
      obtain rfl : c.mySeq = q := by simpa [tested, hstate] using hq
      have hack : (probe 0 c.mySeq.toUInt32 flagAck []).has flagAck = true := by
        rw [probe_has]
        decide
      refine (onLastAck_listen hstate hack).mp ?_
      exact (h.lastAck hstate _ hack).mpr (agrees_toUInt32 _)
  · intro h
    constructor
    · intro hstate seg hrst hack
      rw [onSynRcvd_established hstate hrst hack]
      exact field_eq_iff (h _ (by simp [tested, hstate])) _
    · intro hstate seg hrst hdata
      rw [onEstablished_received hstate hrst hdata]
      exact field_eq_iff (h _ (by simp [tested, hstate])) _
    · intro hstate seg hack hfin
      rw [onFinWait1_listen hstate hack hfin]
      exact field_eq_iff (h _ (by simp [tested, hstate])) _
    · intro hstate seg hack
      rw [onLastAck_listen hstate hack]
      exact field_eq_iff (h _ (by simp [tested, hstate])) _

/-- The counter a slot will compare next stays below 2^32 on this segment. -/
def Room (c : TcpConn) (seg : Segment) : Prop :=
  match c.state with
  | .synRcvd => seg.has flagRst = false → seg.has flagAck = true →
      seg.ack.toUInt64 = c.mySeq → c.peerSeq.toNat < 2 ^ 32
  | .established => seg.has flagRst = false →
      if seg.data = [] then seg.has flagFin = true → (c.mySeq + 1).toNat < 2 ^ 32
      else if (c.accept seg).complete = false ∧ reqCap - 1 ≤ (c.accept seg).httpreqlen then
        (c.mySeq + UInt64.ofNat refusal.length + 1).toNat < 2 ^ 32
      else seg.seq.toUInt64 = c.peerSeq →
        (seg.seq.toUInt64 + UInt64.ofNat seg.data.length).toNat < 2 ^ 32
  | _ => True

def Counts (c : TcpConn) : Prop := ∀ q, c.tested = some q → q.toNat < 2 ^ 32

theorem counts_of_free (h : c.state.free = true) : c.Counts := by
  intro q hq
  cases hstate : c.state <;> simp_all [tested, TcpState.free]

theorem onData_counts (h : c.Counts) (hstate : c.state = .established) :
    (c.onData seg).conn.Counts ↔
      if (c.accept seg).complete = false ∧ reqCap - 1 ≤ (c.accept seg).httpreqlen then
        (c.mySeq + UInt64.ofNat refusal.length + 1).toNat < 2 ^ 32
      else seg.seq.toUInt64 = c.peerSeq →
        (seg.seq.toUInt64 + UInt64.ofNat seg.data.length).toNat < 2 ^ 32 := by
  -- what has been accepted leaves the slot established and comparing `peer_seq`
  have haccept : (c.accept seg).Counts ↔ (seg.seq.toUInt64 = c.peerSeq →
      (seg.seq.toUInt64 + UInt64.ofNat seg.data.length).toNat < 2 ^ 32) := by
    by_cases hseq : seg.seq.toUInt64 = c.peerSeq
    · simp [accept, hseq, append, Counts, tested, hstate]
    · simp [accept, hseq, h]
  by_cases hcomplete : (c.accept seg).complete = true
  · simp [onData, hcomplete, haccept]
  · by_cases hfull : reqCap - 1 ≤ (c.accept seg).httpreqlen
    · have hmy : (c.accept seg).mySeq = c.mySeq := by
        unfold accept
        split_ifs <;> rfl
      simp [onData, hcomplete, hfull, sendLast, Counts, tested, hmy]
    · simp [onData, hcomplete, hfull, haccept]

theorem onSegment_counts (h : c.Counts) (seg : Segment) :
    (c.onSegment seg).conn.Counts ↔ c.Room seg := by
  cases hstate : c.state with
  | closed => simp [onSegment, Room, hstate, h]
  | listen => simp [onSegment, Room, hstate, h]
  | synRcvd =>
    by_cases hrst : seg.has flagRst = true
    · simp [onSegment, Room, hstate, onSynRcvd, hrst, Counts, tested]
    · by_cases hack : seg.has flagAck = true ∧ seg.ack.toUInt64 = c.mySeq
      · simp [onSegment, Room, hstate, onSynRcvd, hrst, hack, Counts, tested]
      · have hno : seg.has flagAck = true → ¬ seg.ack.toUInt64 = c.mySeq := not_and.mp hack
        have hkept : (c.onSegment seg).conn = c := by
          simp [onSegment, hstate, onSynRcvd, hrst, hack]
        simp only [hkept, Room, hstate, h, true_iff]
        intro _ hack' heq
        exact absurd heq (hno hack')
  | established =>
    by_cases hrst : seg.has flagRst = true
    · simp [onSegment, Room, hstate, onEstablished, hrst, Counts, tested]
    · by_cases hdata : seg.data = []
      · by_cases hfin : seg.has flagFin = true
        · simp [onSegment, Room, hstate, onEstablished, hrst, hdata, hfin, onFin, Counts, tested]
        · simp [onSegment, Room, hstate, onEstablished, hrst, hdata, hfin, h]
      · have hpos : 0 < seg.data.length := List.length_pos_of_ne_nil hdata
        have hin : (c.onSegment seg).conn = (c.onData seg).conn := by
          simp [onSegment, hstate, onEstablished, hrst, hpos]
        rw [hin, onData_counts h hstate]
        simp [Room, hstate, hrst, hdata]
  | finWait1 =>
    have hcounts : (c.onSegment seg).conn.Counts := by
      simp only [onSegment, hstate, onFinWait1]
      split_ifs
      · exact counts_of_free rfl
      · exact h
      · exact h
    simp [Room, hstate, hcounts]
  | lastAck =>
    have hcounts : (c.onSegment seg).conn.Counts := by
      simp only [onSegment, hstate, onLastAck]
      split_ifs
      · exact counts_of_free rfl
      · exact h
    simp [Room, hstate, hcounts]

end TcpConn

/-- The counters that the step sets up stay below 2^32: the initial sequence
number of the next connection, the positions in the streams of the peers, and
the end of a response. -/
def NoCarry (cfg : Config) (s : Tcp) : TcpEvent → Prop
  | .rx f => ∀ seg, decode cfg f = some seg →
      match s.findConn seg.ip seg.port with
      | some i => (s.conns i).Room seg
      | none => seg.has flagSyn = true → ∀ i, s.allocConn = some i →
          (s.gIsnSeed + 1).toNat < 2 ^ 32
  | .flush => s.appState = .done → ∀ i, s.gAppConnIdx = some i →
      (s.conns i).state = .established →
        ((s.conns i).mySeq + UInt64.ofNat s.gAppResp.length + 1).toNat < 2 ^ 32
  | _ => True

namespace Tcp

variable {cfg : Config} {s s' : Tcp} {e : TcpEvent}

def Counts (s : Tcp) : Prop := ∀ i, (s.conns i).Counts

theorem counts_update (h : s.Counts) {i : Fin nconn} {c : TcpConn}
    (hs' : s'.conns = Function.update s.conns i c) : s'.Counts ↔ c.Counts := by
  constructor
  · intro h'
    simpa [hs'] using h' i
  · intro hc j
    by_cases hj : j = i
    · subst hj
      simpa [hs'] using hc
    · simpa [hs', hj] using h j

theorem handleSegment_counts (h : s.Counts) (seg : Segment) :
    (s.handleSegment seg).Counts ↔
      match s.findConn seg.ip seg.port with
      | some i => (s.conns i).Room seg
      | none => seg.has flagSyn = true → ∀ i, s.allocConn = some i →
          (s.gIsnSeed + 1).toNat < 2 ^ 32 := by
  unfold handleSegment
  cases hfind : s.findConn seg.ip seg.port with
  | some i =>
    simp only
    rw [← TcpConn.onSegment_counts (h i)]
    split_ifs
    · exact counts_update h rfl
    · exact counts_update h rfl
  | none =>
    simp only [onSyn]
    split_ifs with hsyn
    · cases halloc : s.allocConn with
      | none => simp [hsyn, h]
      | some i =>
        rw [counts_update h rfl]
        simp [hsyn, TcpConn.Counts, TcpConn.tested, TcpConn.opened]
    · simp [hsyn, h]

theorem respond_counts (h : s.Counts) :
    s.respond.Counts ↔ ∀ i, s.gAppConnIdx = some i → (s.conns i).state = .established →
      ((s.conns i).mySeq + UInt64.ofNat s.gAppResp.length + 1).toNat < 2 ^ 32 := by
  cases hidx : s.gAppConnIdx with
  | none => simp [respond, hidx, h]
  | some i =>
    by_cases hstate : (s.conns i).state = .established
    · have hconns : s.respond.conns =
          Function.update s.conns i ((s.conns i).sendLast s.gAppResp).1 := by
        simp only [respond, hidx, hstate, if_true]
        split_ifs <;> rfl
      rw [counts_update h hconns]
      simp [hstate, TcpConn.Counts, TcpConn.tested, TcpConn.sendLast]
    · simp [respond, hidx, hstate, h]

theorem tcpAppFlush_counts (h : s.Counts) : s.tcpAppFlush.Counts ↔ NoCarry cfg s .flush := by
  by_cases hdone : s.appState = .done
  · have hconns : s.tcpAppFlush.conns = s.respond.conns := by simp [tcpAppFlush, hdone]
    have hcounts : s.tcpAppFlush.Counts ↔ s.respond.Counts := by simp only [Counts, hconns]
    rw [hcounts, respond_counts h]
    simp [NoCarry, hdone]
  · simp [tcpAppFlush, NoCarry, hdone, h]

/-- The step lemma. -/
theorem step_counts (h : s.Counts) (hstep : s.step cfg e = some s') :
    s'.Counts ↔ NoCarry cfg s e := by
  cases e with
  | rx f =>
    obtain rfl := Option.some.inj hstep
    simp only [tcpHandlePacket, NoCarry]
    cases hdec : decode cfg f with
    | none => exact ⟨fun _ seg hseg => by simp at hseg, fun _ => h⟩
    | some seg =>
      simp only [handleSegment_counts h seg]
      constructor
      · rintro hroom _ ⟨⟩
        exact hroom
      · intro hall
        exact hall seg rfl
  | workBegin =>
    obtain rfl := Option.some.inj hstep
    simpa [NoCarry, Counts] using h
  | workEnd resp =>
    obtain rfl := Option.some.inj hstep
    simpa [NoCarry, Counts] using h
  | flush =>
    obtain rfl := Option.some.inj hstep
    exact tcpAppFlush_counts h

end Tcp

/-- Along a run every comparison of a received field with a counter turns out as
it would modulo 2^32, in every state, exactly when no step carries a counter
that is compared next to 2^32. -/
theorem sequence_numbers_exact_iff (cfg : Config) (es : List TcpEvent) :
    Always (Tcp.step cfg) (fun s => ∀ i, (s.conns i).Recognises) Tcp.start es ↔
      EachStep (Tcp.step cfg) (NoCarry cfg) Tcp.start es := by
  have hcounts : ∀ s : Tcp, (∀ i, (s.conns i).Recognises) ↔ s.Counts :=
    fun s => forall_congr' fun i => TcpConn.recognises_iff (s.conns i)
  refine always_iff_eachStep Tcp.Counts _ ?_ ?_ ?_ ?_ (Tcp.exec_isSome cfg _ es)
  · intro s hs
    exact (hcounts s).mpr hs
  · intro s e s' hs hok hstep
    exact (Tcp.step_counts hs hstep).mpr hok
  · intro s e s' hs hbad hstep h
    exact hbad ((Tcp.step_counts hs hstep).mp ((hcounts s').mp h))
  · intro i
    exact TcpConn.counts_of_free rfl

/-- A peer whose initial sequence number is the largest connects. -/
def wrapRun : List TcpEvent :=
  [fromPeer 0xFFFFFFFF 0 flagSyn [], fromPeer 0 0xDEADBEF0 flagAck []]

/-- Its connection is established, and its first byte, which has the sequence
number 0, is not taken. -/
theorem first_byte_after_wrap_not_taken :
    ∃ s i, exec (Tcp.step server) Tcp.start wrapRun = some s ∧
      (s.conns i).state = .established ∧
      (0 : UInt32).toNat ≡ (s.conns i).peerSeq.toNat [MOD 2 ^ 32] ∧
      ((s.conns i).onSegment (peerSegment 0 0xDEADBEF0 flagAck [71])).conn.received =
        (s.conns i).received := by
  have hrun := Option.some_get (Tcp.exec_isSome server Tcp.start wrapRun)
  exact ⟨_, 0, hrun.symm, by decide, by decide, by decide⟩

end XinuRpi4.Net
