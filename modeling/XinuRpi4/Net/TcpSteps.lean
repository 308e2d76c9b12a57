import XinuRpi4.Net.Tcp

/-!
# What a step does to a slot

The transitions of one slot, and what each step of the server does to each slot
and to the mailbox. The invariants of the server are read off from these.
-/

namespace XinuRpi4.Net

open XinuRpi4.Foundation

namespace TcpConn

variable {c : TcpConn} {seg : Segment}

/-- The transitions of a slot in use on a segment of its peer. -/
inductive Change (c : TcpConn) (seg : Segment) : TcpConn → Prop
  | kept : Change c seg c
  | establish : c.state = .synRcvd → seg.ack.toUInt64 = c.mySeq →
      Change c seg { c with state := .established, httpreqlen := 0 }
  | data : c.state = .established → seg.data ≠ [] → Change c seg (c.accept seg)
  | refuse : c.state = .established → seg.data ≠ [] →
      Change c seg ((c.accept seg).sendLast refusal).1
  | fin : c.state = .established → Change c seg (c.onFin seg).conn
  | drop (q : UInt64) : Change c seg { c with state := .listen, peerSeq := q }

theorem onSegment_change (c : TcpConn) (seg : Segment) : Change c seg (c.onSegment seg).conn := by
  unfold onSegment
  cases hstate : c.state with
  | closed => exact .kept
  | listen => exact .kept
  | synRcvd =>
    simp only [onSynRcvd]
    split_ifs with hrst hack
    · exact .drop c.peerSeq
    · exact .establish hstate hack.2
    · exact .kept
  | established =>
    simp only [onEstablished]
    split_ifs with hrst hdata hfin
    · exact .drop c.peerSeq
    · have hne : seg.data ≠ [] := List.ne_nil_of_length_pos hdata
      simp only [onData]
      split_ifs with hcomplete hfull
      · exact .data hstate hne
      · exact .refuse hstate hne
      · exact .data hstate hne
    · exact .fin hstate
    · exact .kept
  | finWait1 =>
    simp only [onFinWait1]
    split_ifs with hack hfin
    · exact .drop _
    · exact .kept
    · exact .kept
  | lastAck =>
    simp only [onLastAck]
    split_ifs with hack
    · exact .drop c.peerSeq
    · exact .kept

/-- A slot wants its request handed over when it has just looked at data and the
request is complete. -/
theorem onSegment_ready_iff (c : TcpConn) (seg : Segment) : (c.onSegment seg).ready = true ↔
    c.state = .established ∧ seg.has flagRst = false ∧ seg.data ≠ [] ∧
      (c.accept seg).complete = true := by
  cases hstate : c.state with
  | closed => simp [onSegment, hstate]
  | listen => simp [onSegment, hstate]
  | synRcvd =>
    simp only [onSegment, hstate, onSynRcvd]
    split_ifs <;> simp
  | established =>
    by_cases hrst : seg.has flagRst = true
    · simp [onSegment, hstate, onEstablished, hrst]
    · by_cases hdata : seg.data = []
      · simp only [onSegment, hstate, onEstablished, hrst, hdata, onFin]
        split_ifs <;> simp_all
      · have hpos : 0 < seg.data.length := List.length_pos_of_ne_nil hdata
        simp only [onSegment, hstate, onEstablished, hrst, hpos, onData]
        split_ifs <;> simp_all
  | finWait1 =>
    simp only [onSegment, hstate, onFinWait1]
    split_ifs <;> simp
  | lastAck =>
    simp only [onSegment, hstate, onLastAck]
    split_ifs <;> simp

theorem onSegment_ready (h : (c.onSegment seg).ready = true) :
    (c.onSegment seg).conn = c.accept seg := by
  obtain ⟨hstate, hrst, hdata, hcomplete⟩ := (onSegment_ready_iff c seg).mp h
  have hpos : 0 < seg.data.length := List.length_pos_of_ne_nil hdata
  simp [onSegment, hstate, onEstablished, hrst, hpos, onData, hcomplete]

end TcpConn

namespace Tcp

variable {s : Tcp} {seg : Segment} {i j : Fin nconn}

theorem findConn_some (h : s.findConn seg.ip seg.port = some i) :
    (s.conns i).state.free = false ∧ (s.conns i).peerIp = seg.ip ∧
      (s.conns i).peerPort = seg.port := by
  have := (Fin.find?_eq_some_iff.mp h).1
  simp only [Bool.and_eq_true, Bool.not_eq_true', decide_eq_true_eq] at this
  exact ⟨this.1.1, this.2, this.1.2⟩

theorem allocConn_some (h : s.allocConn = some i) : (s.conns i).state.free = true :=
  (Fin.find?_eq_some_iff.mp h).1

theorem pending_iff : s.pending i = true ↔ (s.conns i).state = .established ∧
    0 < (s.conns i).httpreqlen ∧ (s.conns i).complete = true := by
  simp [pending, and_assoc]

@[simp] theorem setConn_self (c : TcpConn) (out : List Tx) : (s.setConn i c out).conns i = c := by
  simp [setConn]

theorem setConn_of_ne (h : j ≠ i) (c : TcpConn) (out : List Tx) :
    (s.setConn i c out).conns j = s.conns j := by
  simp [setConn, h]

@[simp] theorem queueToApp_conns : (s.queueToApp i).conns = s.conns := rfl

@[simp] theorem drainPendingToApp_conns : s.drainPendingToApp.conns = s.conns := by
  unfold drainPendingToApp
  split_ifs
  · split <;> rfl
  · rfl

theorem respond_conns (s : Tcp) :
    (∀ i, s.gAppConnIdx = some i → (s.conns i).state ≠ .established) ∧ s.respond = s ∨
      ∃ i, s.gAppConnIdx = some i ∧ (s.conns i).state = .established ∧
        s.respond.conns =
          Function.update s.conns i ((s.conns i).sendLast s.gAppResp).1 := by
  unfold respond
  cases hidx : s.gAppConnIdx with
  | none => exact Or.inl ⟨fun i hi => by simp at hi, rfl⟩
  | some i =>
    by_cases hstate : (s.conns i).state = .established
    · right
      refine ⟨i, rfl, hstate, ?_⟩
      simp only [hstate, if_true]
      split_ifs <;> rfl
    · left
      refine ⟨?_, by simp [hstate]⟩
      rintro _ ⟨⟩
      exact hstate

/-- What becomes of a slot when a segment is handled. -/
inductive OnSegment (s : Tcp) (seg : Segment) (i : Fin nconn) : TcpConn → Prop
  | kept : OnSegment s seg i (s.conns i)
  | opened : (s.conns i).state.free = true → OnSegment s seg i
      { (s.conns i).opened seg s.gIsnSeed (s.gSynSeen + 1) with mySeq := s.gIsnSeed + 1 }
  | change {c : TcpConn} : s.findConn seg.ip seg.port = some i →
      (s.conns i).Change seg c → OnSegment s seg i c

/-- What handling a segment comes to. -/
theorem handleSegment_cases (s : Tcp) (seg : Segment) :
    (s.findConn seg.ip seg.port = none ∧ s.handleSegment seg = s) ∨
      (s.findConn seg.ip seg.port = none ∧
        ∃ i, (s.conns i).state.free = true ∧ s.handleSegment seg = s.openConn i seg) ∨
      ∃ i, s.findConn seg.ip seg.port = some i ∧
        let r := (s.conns i).onSegment seg
        (s.handleSegment seg = s.setConn i r.conn r.out ∧
            (s.appState = .idle → r.ready = false)) ∨
          s.appState = .idle ∧ r.ready = true ∧
            s.handleSegment seg = (s.setConn i r.conn r.out).queueToApp i := by
  unfold handleSegment
  cases hfind : s.findConn seg.ip seg.port with
  | none =>
    simp only [onSyn]
    split_ifs with hsyn
    · cases halloc : s.allocConn with
      | none => exact Or.inl ⟨trivial, rfl⟩
      | some i => exact Or.inr (Or.inl ⟨trivial, i, allocConn_some halloc, rfl⟩)
    · exact Or.inl ⟨trivial, rfl⟩
  | some i =>
    refine Or.inr (Or.inr ⟨i, rfl, ?_⟩)
    by_cases hidle : s.appState = .idle
    · cases hready : ((s.conns i).onSegment seg).ready <;> simp [hidle, hready]
    · simp [hidle]

/-- A segment of a peer changes the slot of that peer and no other. -/
theorem handleSegment_conns (hfind : s.findConn seg.ip seg.port = some j) (i : Fin nconn) :
    (s.handleSegment seg).conns i =
      if i = j then ((s.conns j).onSegment seg).conn else s.conns i := by
  have hset : (s.setConn j ((s.conns j).onSegment seg).conn
      ((s.conns j).onSegment seg).out).conns i =
        if i = j then ((s.conns j).onSegment seg).conn else s.conns i := by
    split_ifs with hij
    · rw [hij, setConn_self]
    · rw [setConn_of_ne hij]
  rw [← hset]
  unfold handleSegment
  rw [hfind]
  simp only
  split_ifs <;> rfl

theorem openConn_self (i : Fin nconn) (seg : Segment) :
    (s.openConn i seg).conns i =
      { (s.conns i).opened seg s.gIsnSeed (s.gSynSeen + 1) with mySeq := s.gIsnSeed + 1 } := by
  simp [openConn, TcpConn.opened]

theorem openConn_of_ne (h : j ≠ i) (seg : Segment) :
    (s.openConn i seg).conns j = s.conns j := by
  simp [openConn, setConn_of_ne h]

theorem handleSegment_slot (s : Tcp) (seg : Segment) (i : Fin nconn) :
    OnSegment s seg i ((s.handleSegment seg).conns i) := by
  have hset : ∀ j, s.findConn seg.ip seg.port = some j →
      OnSegment s seg i ((s.setConn j ((s.conns j).onSegment seg).conn
        ((s.conns j).onSegment seg).out).conns i) := by
    intro j hfind
    by_cases hi : i = j
    · subst hi
      rw [setConn_self]
      exact .change hfind (TcpConn.onSegment_change _ _)
    · rw [setConn_of_ne hi]
      exact .kept
  obtain ⟨_, h⟩ | ⟨_, j, hfree, h⟩ | ⟨j, hfind, ⟨h, _⟩ | ⟨_, _, h⟩⟩ :=
    handleSegment_cases s seg
  · rw [h]
    exact .kept
  · rw [h]
    by_cases hi : i = j
    · subst hi
      rw [openConn_self]
      exact .opened hfree
    · rw [openConn_of_ne hi]
      exact .kept
  · rw [h]
    exact hset j hfind
  · rw [h, queueToApp_conns]
    exact hset j hfind

/-- What becomes of a slot when the response is flushed. -/
inductive OnFlush (s : Tcp) (i : Fin nconn) : TcpConn → Prop
  | kept : OnFlush s i (s.conns i)
  | answered : s.appState = .done → s.gAppConnIdx = some i → (s.conns i).state = .established →
      OnFlush s i ((s.conns i).sendLast s.gAppResp).1

theorem tcpAppFlush_slot (s : Tcp) (i : Fin nconn) : OnFlush s i (s.tcpAppFlush.conns i) := by
  unfold tcpAppFlush
  split_ifs with hdone
  · rw [drainPendingToApp_conns]
    obtain ⟨_, hsame⟩ | ⟨j, hidx, hstate, hconns⟩ := respond_conns s
    · simp only [hsame]
      exact .kept
    · simp only [hconns]
      by_cases hi : i = j
      · subst hi
        rw [Function.update_self]
        exact .answered hdone hidx hstate
      · rw [Function.update_of_ne hi]
        exact .kept
  · exact .kept

@[simp] theorem workBegin_conns : s.workBegin.conns = s.conns := by
  unfold workBegin
  split_ifs <;> rfl

@[simp] theorem workEnd_conns (resp : List UInt8) : (s.workEnd resp).conns = s.conns := by
  unfold workEnd
  split_ifs <;> rfl

/-- A property of a slot that no step of the server can break. -/
theorem step_slot {cfg : Config} (ok : Tcp → TcpEvent → Prop) (P : TcpConn → Prop) (i : Fin nconn)
    (hopened : ∀ (s : Tcp) seg, (s.conns i).state.free = true →
      P { (s.conns i).opened seg s.gIsnSeed (s.gSynSeen + 1) with mySeq := s.gIsnSeed + 1 })
    (hchange : ∀ s f seg c, ok s (.rx f) → decode cfg f = some seg →
      s.findConn seg.ip seg.port = some i → P (s.conns i) → (s.conns i).Change seg c → P c)
    (hanswered : ∀ c resp, P c → c.state = .established → P (c.sendLast resp).1)
    {s' : Tcp} {e : TcpEvent} (hs : P (s.conns i)) (hok : ok s e)
    (hstep : s.step cfg e = some s') : P (s'.conns i) := by
  cases e with
  | rx f =>
    obtain rfl := Option.some.inj hstep
    simp only [tcpHandlePacket]
    cases hdec : decode cfg f with
    | none => exact hs
    | some seg =>
      have hslot := handleSegment_slot s seg i
      simp only
      generalize (s.handleSegment seg).conns i = c at hslot ⊢
      cases hslot with
      | kept => exact hs
      | opened hfree => exact hopened s seg hfree
      | change hfind hchg => exact hchange s f seg _ hok hdec hfind hs hchg
  | workBegin =>
    obtain rfl := Option.some.inj hstep
    simpa using hs
  | workEnd resp =>
    obtain rfl := Option.some.inj hstep
    simpa using hs
  | flush =>
    obtain rfl := Option.some.inj hstep
    have hslot := tcpAppFlush_slot s i
    generalize s.tcpAppFlush.conns i = c at hslot ⊢
    cases hslot with
    | kept => exact hs
    | answered _ _ hstate => exact hanswered _ _ hs hstate

theorem exec_isSome (cfg : Config) (s : Tcp) (es : List TcpEvent) :
    (exec (Tcp.step cfg) s es).isSome := by
  induction es generalizing s with
  | nil => rfl
  | cons e es ih => cases e <;> exact ih _

end Tcp

end XinuRpi4.Net
