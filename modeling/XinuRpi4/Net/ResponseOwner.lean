import XinuRpi4.Net.Handover

/-!
# Who gets a response

The mailbox knows the connection of a request by its slot only. A response goes
to the connection that asked, unless the slot has passed to another peer, whose
connection is established when the response is flushed.
-/

namespace XinuRpi4.Net

open XinuRpi4.Foundation

/-- The response was built from a request whose bytes came from the connection it
is sent on. -/
def Answer.Owned (a : Answer) : Prop := a.requestInc = a.inc ∧ a.request <+: a.received

/-- When a response that fits a frame is flushed, the slot does not hold another
established connection than the one the request came from. -/
def SameConn (s : Tcp) : TcpEvent → Prop
  | .flush => s.appState = .done → ∀ i, s.gAppConnIdx = some i →
      (s.conns i).state = .established → 14 + (20 + (20 + s.gAppResp.length)) ≤ 1518 →
      (s.conns i).inc = s.requestInc
  | _ => True

namespace Tcp

variable {cfg : Config} {s s' : Tcp} {e : TcpEvent}

def AllOwned (s : Tcp) : Prop := ∀ a ∈ s.answers, a.Owned

/-- The request in the mailbox is what its connection has received, as long as
that connection is there. -/
structure Boxed (s : Tcp) : Prop where
  old : s.requestInc ≤ s.gSynSeen
  request : ∀ i, s.gAppConnIdx = some i → (s.conns i).state.free = false →
    (s.conns i).inc = s.requestInc → s.gAppReq <+: (s.conns i).received

theorem Boxed.age (hs : s.Boxed) (hages : ∀ i, Ages (s.conns i) (s'.conns i))
    (hsyn : s'.gSynSeen = s.gSynSeen) (hinc : s'.requestInc = s.requestInc)
    (hreq : s'.gAppReq = s.gAppReq)
    (hidx : ∀ i, s'.gAppConnIdx = some i → s.gAppConnIdx = some i) : s'.Boxed where
  old := by
    rw [hinc, hsyn]
    exact hs.old
  request i hi hfree heq := by
    obtain ⟨hold, hsame⟩ := (hages i).used hfree
    rw [hreq]
    rw [hinc, hsame] at heq
    exact (hs.request i (hidx i hi) hold heq).trans (hages i).grown

theorem boxed_queueToApp {i : Fin nconn} (hknown : (s.conns i).inc ≤ s.gSynSeen)
    (hh : (s.conns i).Holds) : (s.queueToApp i).Boxed where
  old := hknown
  request := by
    rintro _ ⟨⟩ _ _
    simp only [queueToApp, hh.copied]
    exact List.take_prefix _ _

theorem Boxed.openConn (hs : s.Boxed) {i : Fin nconn} (seg : Segment) :
    (s.openConn i seg).Boxed where
  old := hs.old.trans (Nat.le_succ _)
  request j hj hfree heq := by
    have hinc : (s.openConn i seg).requestInc = s.requestInc := rfl
    by_cases hji : j = i
    · subst hji
      -- the new connection has a number of its own
      rw [openConn_self, hinc] at heq
      have := hs.old
      simp only [TcpConn.opened] at heq
      omega
    · rw [openConn_of_ne hji] at hfree heq ⊢
      exact hs.request j hj hfree heq

theorem handleSegment_boxed (hs : s.Boxed) (hh : s.SlotsHold) (hlog : s.HandedOver) {seg : Segment}
    (hlen : seg.data.length < 2 ^ 16) : (s.handleSegment seg).Boxed := by
  obtain ⟨_, h⟩ | ⟨_, j, hfree, h⟩ | ⟨j, hfind, ⟨h, _⟩ | ⟨hidle, hready, h⟩⟩ :=
    handleSegment_cases s seg
  · rwa [h]
  · rw [h]
    exact hs.openConn seg
  · rw [h]
    have hages := ages_of_change (TcpConn.onSegment_change (s.conns j) seg) (findConn_some hfind).1
    exact hs.age (ages_setConn hages _) rfl rfl rfl fun i => id
  · rw [h]
    obtain ⟨hstate, _⟩ := (TcpConn.onSegment_ready_iff _ seg).mp hready
    have hfree : (s.conns j).state.free = false := by rw [hstate]; rfl
    have hages := ages_of_change (TcpConn.onSegment_change (s.conns j) seg) hfree
    rw [TcpConn.onSegment_ready hready] at hages ⊢
    apply boxed_queueToApp
    · rw [setConn_self]
      have hused : ((s.conns j).accept seg).state.free = false := by
        rw [TcpConn.accept_state, hfree]
      rw [(hages.used hused).2]
      exact hlog.known j hfree
    · rw [setConn_self]
      exact (hh j hfree).accept hstate hlen

theorem tcpAppFlush_boxed (hs : s.Boxed) (hh : s.SlotsHold) (hlog : s.HandedOver) :
    s.tcpAppFlush.Boxed := by
  by_cases hdone : s.appState = .done
  · rw [tcpAppFlush_eq hdone]
    cases hnext : s.nextPending with
    | none =>
      have hinc : s.responded.requestInc = s.requestInc := by
        simp only [responded, respond]
        split
        · split_ifs <;> rfl
        · rfl
      refine ⟨?_, fun i hi => by simp [responded] at hi⟩
      simp only [hinc, responded_gSynSeen]
      exact hs.old
    | some i =>
      obtain ⟨hpend, hidx⟩ := nextPending_some hnext
      have hstate := (pending_iff.mp hpend).1
      have hfree : (s.conns i).state.free = false := by rw [hstate]; rfl
      apply boxed_queueToApp
      · rw [responded_conns_of_ne hidx, responded_gSynSeen]
        exact hlog.known i hfree
      · rw [responded_conns_of_ne hidx]
        exact hh i hfree
  · simpa [tcpAppFlush, hdone] using hs

theorem respond_owned (hs : s.AllOwned) (hbox : s.Boxed) :
    s.respond.AllOwned ↔ ∀ i, s.gAppConnIdx = some i → (s.conns i).state = .established →
      14 + (20 + (20 + s.gAppResp.length)) ≤ 1518 → (s.conns i).inc = s.requestInc := by
  cases hidx : s.gAppConnIdx with
  | none => simp [respond, hidx, hs]
  | some i =>
    by_cases hstate : (s.conns i).state = .established
    · by_cases hlong : 14 + (20 + (20 + s.gAppResp.length)) > 1518
      · have hkept : s.respond.answers = s.answers := by
          simp only [respond, hidx, hstate, hlong, if_true]
          rfl
        have hfits : ¬ 14 + (20 + (20 + s.gAppResp.length)) ≤ 1518 := by omega
        simpa [AllOwned, hkept, hfits] using hs
      · have hadded : s.respond.answers = s.answers ++
            [{ inc := (s.conns i).inc, received := (s.conns i).received,
               requestInc := s.requestInc, request := s.gAppReq, payload := s.gAppResp }] := by
          simp only [respond, hidx, hstate, hlong, if_true, if_false]
        have hfits : 14 + (20 + (20 + s.gAppResp.length)) ≤ 1518 := by omega
        simp only [AllOwned, hadded, List.forall_mem_append, List.forall_mem_singleton,
          Answer.Owned]
        constructor
        · rintro ⟨_, heq, _⟩ _ ⟨⟩ _ _
          exact heq.symm
        · intro hall
          have heq := hall i rfl hstate hfits
          exact ⟨hs, heq.symm, hbox.request i hidx (by rw [hstate]; rfl) heq⟩
    · simp [respond, hidx, hstate, hs]

theorem tcpAppFlush_owned (hs : s.AllOwned) (hbox : s.Boxed) :
    s.tcpAppFlush.AllOwned ↔ SameConn s .flush := by
  by_cases hdone : s.appState = .done
  · have hanswers : s.tcpAppFlush.answers = s.respond.answers := by
      rw [tcpAppFlush_eq hdone]
      cases s.nextPending <;> rfl
    have hiff : s.tcpAppFlush.AllOwned ↔ s.respond.AllOwned := by simp only [AllOwned, hanswers]
    rw [hiff, respond_owned hs hbox]
    simp [SameConn, hdone]
  · simp [tcpAppFlush, SameConn, hdone, hs]

theorem handleSegment_answers (s : Tcp) (seg : Segment) :
    (s.handleSegment seg).answers = s.answers := by
  obtain ⟨_, h⟩ | ⟨_, j, _, h⟩ | ⟨j, _, ⟨h, _⟩ | ⟨_, _, h⟩⟩ := handleSegment_cases s seg <;>
    rw [h] <;> rfl

theorem step_owned (hs : s.AllOwned) (hbox : s.Boxed) (hstep : s.step cfg e = some s') :
    s'.AllOwned ↔ SameConn s e := by
  cases e with
  | rx f =>
    obtain rfl := Option.some.inj hstep
    have hanswers : (s.tcpHandlePacket cfg f).answers = s.answers := by
      unfold tcpHandlePacket
      split
      · exact handleSegment_answers s _
      · rfl
    simpa [SameConn, AllOwned, hanswers] using hs
  | workBegin =>
    obtain rfl := Option.some.inj hstep
    have hanswers : s.workBegin.answers = s.answers := by
      unfold workBegin
      split_ifs <;> rfl
    simpa [SameConn, AllOwned, hanswers] using hs
  | workEnd resp =>
    obtain rfl := Option.some.inj hstep
    have hanswers : (s.workEnd resp).answers = s.answers := by
      unfold workEnd
      split_ifs <;> rfl
    simpa [SameConn, AllOwned, hanswers] using hs
  | flush =>
    obtain rfl := Option.some.inj hstep
    exact tcpAppFlush_owned hs hbox

theorem step_boxed (hs : s.Boxed) (hh : s.SlotsHold) (hlog : s.HandedOver)
    (hstep : s.step cfg e = some s') : s'.Boxed := by
  cases e with
  | rx f =>
    obtain rfl := Option.some.inj hstep
    unfold tcpHandlePacket
    cases hdec : decode cfg f with
    | none => exact hs
    | some seg => exact handleSegment_boxed hs hh hlog (decode_length hdec)
  | workBegin =>
    obtain rfl := Option.some.inj hstep
    unfold workBegin
    split_ifs
    · exact hs.age (fun i => ages_refl _) rfl rfl rfl fun i => id
    · exact hs
  | workEnd resp =>
    obtain rfl := Option.some.inj hstep
    unfold workEnd
    split_ifs
    · exact hs.age (fun i => ages_refl _) rfl rfl rfl fun i => id
    · exact hs
  | flush =>
    obtain rfl := Option.some.inj hstep
    exact tcpAppFlush_boxed hs hh hlog

end Tcp

/-- In a run every response is sent on the connection whose bytes its request
was, exactly when at every flush the slot still belongs to that connection, is
not established, or the response is too long to be sent. -/
theorem responses_owned_iff (cfg : Config) (es : List TcpEvent) :
    Always (Tcp.step cfg)
        (fun s => ∀ a ∈ s.answers, a.requestInc = a.inc ∧ a.request <+: a.received) Tcp.start es ↔
      EachStep (Tcp.step cfg) SameConn Tcp.start es := by
  refine always_iff_eachStep
    (fun s => s.SlotsHold ∧ s.HandedOver ∧ s.Boxed ∧ s.AllOwned) _ ?_ ?_ ?_ ?_
    (Tcp.exec_isSome cfg _ es)
  · rintro s ⟨_, _, _, hs⟩
    exact hs
  · rintro s e s' ⟨hh, hlog, hbox, hs⟩ hok hstep
    exact ⟨Tcp.step_holds hh hstep, Tcp.step_handedOver hlog hstep,
      Tcp.step_boxed hbox hh hlog hstep, (Tcp.step_owned hs hbox hstep).mpr hok⟩
  · rintro s e s' ⟨_, _, hbox, hs⟩ hbad hstep h
    exact hbad ((Tcp.step_owned hs hbox hstep).mp h)
  · refine ⟨?_, Tcp.handedOver_start, ⟨by simp [Tcp.start], by simp [Tcp.start]⟩,
      by simp [Tcp.AllOwned, Tcp.start]⟩
    intro i hi
    simp [Tcp.start, TcpState.free] at hi

def fromOther (seq ack : UInt32) (flags : UInt8) (data : List UInt8) : TcpEvent :=
  .rx ({ peerSegment seq ack flags data with ip := ![192, 168, 3, 3] }.frame server)

/-- The peer asks and resets its connection while the worker is busy; another
peer connects and gets the slot. -/
def resetRun : List TcpEvent :=
  [fromPeer 100 0 flagSyn [], fromPeer 101 0xDEADBEF0 flagAck [],
    fromPeer 101 0xDEADBEF0 flagAck
      [71, 69, 84, 32, 47, 32, 72, 84, 84, 80, 47, 49, 46, 48, 13, 10, 13, 10],
    .workBegin, fromPeer 119 0xDEADBEF0 flagRst [],
    fromOther 500 0 flagSyn [], fromOther 501 0xDEADBFF0 flagAck [],
    .workEnd [79, 75], .flush]

/-- The other peer, which has not sent a byte, gets the response. -/
theorem response_to_other_peer :
    ∃ s, exec (Tcp.step server) Tcp.start resetRun = some s ∧
      ∃ a ∈ s.answers, a.inc = 2 ∧ a.received = [] ∧ a.requestInc = 1 ∧ a.payload = [79, 75] := by
  have hrun := Option.some_get (Tcp.exec_isSome server Tcp.start resetRun)
  exact ⟨_, hrun.symm, by decide +kernel⟩

end XinuRpi4.Net
