import XinuRpi4.Net.ResponseOwner

/-!
# The net process and the app worker

Two processes share the mailbox: the net process drains the received frames,
wakes the worker for a queued request, flushes a finished response and parks;
the worker runs a queued request, wakes the net process and parks. Each has a
flag pair, under which a kick before the park makes the park return at once.
Between any two steps the other process may run, and the receive interrupt may
kick the net process.
-/

namespace XinuRpi4.Net

open XinuRpi4.Foundation

structure Waiter where
  pending : Bool
  parked : Bool
deriving DecidableEq

/-- Where `net_proc_main` stands: in `genet_rx_tick`, before each of the steps
behind it, or blocked in `waiter_park`. -/
inductive NetPlace
  | drain | check | kick | flush | park | blocked
deriving DecidableEq

/-- Where `app_proc_main` stands: before `tcp_app_work`, in `http_build`, before
each of the two steps behind it, or blocked in `waiter_park`. -/
inductive AppPlace
  | work | building | kick | park | blocked
deriving DecidableEq

structure Handoff where
  tcp : Tcp
  gNetW : Waiter
  gAppW : Waiter
  net : NetPlace
  app : AppPlace

namespace Handoff

/-- `waiter_kick(&g_net_w)`: a parked process goes on with its loop. -/
def kickNet (s : Handoff) : Handoff :=
  if s.gNetW.parked then
    { s with gNetW := { pending := true, parked := false }, net := .drain }
  else { s with gNetW := { s.gNetW with pending := true } }

def kickApp (s : Handoff) : Handoff :=
  if s.gAppW.parked then
    { s with gAppW := { pending := true, parked := false }, app := .work }
  else { s with gAppW := { s.gAppW with pending := true } }

def parkNet (s : Handoff) : Handoff :=
  if s.gNetW.pending then { s with gNetW := { s.gNetW with pending := false }, net := .drain }
  else { s with gNetW := { s.gNetW with parked := true }, net := .blocked }

def parkApp (s : Handoff) : Handoff :=
  if s.gAppW.pending then { s with gAppW := { s.gAppW with pending := false }, app := .work }
  else { s with gAppW := { s.gAppW with parked := true }, app := .blocked }

/-- `if (tcp_app_req_pending())` -/
def checkNet (s : Handoff) : Handoff :=
  if s.tcp.appState = .queued then { s with net := .kick } else { s with net := .flush }

/-- The start of `tcp_app_work`. -/
def workApp (s : Handoff) : Handoff :=
  if s.tcp.appState = .queued then { s with tcp := s.tcp.workBegin, app := .building }
  else { s with app := .park }

end Handoff

inductive HandoffEvent
  | rx (f : Frame)
  | drained
  | check
  | kickApp
  | flush
  | parkNet
  | work
  | built (resp : List UInt8)
  | kickNet
  | parkApp
  | irq

def Handoff.step (cfg : Config) (s : Handoff) : HandoffEvent → Option Handoff
  | .rx f => if s.net = .drain then some { s with tcp := s.tcp.tcpHandlePacket cfg f } else none
  | .drained => if s.net = .drain then some { s with net := .check } else none
  | .check => if s.net = .check then some s.checkNet else none
  | .kickApp => if s.net = .kick then some { s.kickApp with net := .flush } else none
  | .flush => if s.net = .flush then some { s with tcp := s.tcp.tcpAppFlush, net := .park } else none
  | .parkNet => if s.net = .park then some s.parkNet else none
  | .work => if s.app = .work then some s.workApp else none
  | .built resp =>
    if s.app = .building then some { s with tcp := s.tcp.workEnd resp, app := .kick } else none
  | .kickNet => if s.app = .kick then some { s.kickNet with app := .park } else none
  | .parkApp => if s.app = .park then some s.parkApp else none
  | .irq => some s.kickNet

def Handoff.start : Handoff where
  tcp := Tcp.start
  gNetW := { pending := false, parked := false }
  gAppW := { pending := false, parked := false }
  net := .drain
  app := .work

namespace TcpConn

variable {c : TcpConn} {seg : Segment}

/-- An established connection with a complete request. -/
def Waits (c : TcpConn) : Prop := c.state = .established ∧ 0 < c.httpreqlen ∧ c.complete = true

/-- A request becomes complete only on a segment after which the slot wants it
handed over. -/
theorem onSegment_waits (h : ¬ c.Waits) (hw : (c.onSegment seg).conn.Waits) :
    (c.onSegment seg).ready = true := by
  obtain ⟨hstate', hpos, hcomplete⟩ := hw
  by_contra hready
  cases hstate : c.state with
  | closed => simp [onSegment, hstate] at hstate'
  | listen => simp [onSegment, hstate] at hstate'
  | synRcvd =>
    by_cases hrst : seg.has flagRst = true
    · simp [onSegment, hstate, onSynRcvd, hrst] at hstate'
    · by_cases hack : seg.has flagAck = true ∧ seg.ack.toUInt64 = c.mySeq
      · simp [onSegment, hstate, onSynRcvd, hrst, hack] at hpos
      · simp [onSegment, hstate, onSynRcvd, hrst, hack] at hstate'
  | established =>
    by_cases hrst : seg.has flagRst = true
    · simp [onSegment, hstate, onEstablished, hrst] at hstate'
    · by_cases hdata : seg.data = []
      · by_cases hfin : seg.has flagFin = true
        · simp [onSegment, hstate, onEstablished, hrst, hdata, hfin, onFin] at hstate'
        · simp only [onSegment, hstate, onEstablished, hrst, hdata, hfin] at hpos hcomplete
          exact h ⟨hstate, hpos, hcomplete⟩
      · have hno : (c.accept seg).complete = false := by
          by_contra hc
          exact hready ((onSegment_ready_iff c seg).mpr
            ⟨hstate, by simpa using hrst, hdata, by simpa using hc⟩)
        have hdata' : 0 < seg.data.length := List.length_pos_of_ne_nil hdata
        by_cases hfull : reqCap - 1 ≤ (c.accept seg).httpreqlen
        · simp [onSegment, hstate, onEstablished, hrst, hdata', onData, hno, hfull,
            sendLast] at hstate'
        · simp [onSegment, hstate, onEstablished, hrst, hdata', onData, hno, hfull] at hcomplete
  | finWait1 =>
    simp only [onSegment, hstate, onFinWait1] at hstate'
    split_ifs at hstate' <;> simp_all
  | lastAck =>
    simp only [onSegment, hstate, onLastAck] at hstate'
    split_ifs at hstate'
    simp_all

end TcpConn

namespace Tcp

variable {s : Tcp}

/-- No established connection has a complete request. -/
def Quiet (s : Tcp) : Prop := ∀ i, s.pending i = false

theorem quiet_iff : s.Quiet ↔ ∀ i, ¬ (s.conns i).Waits := by
  unfold Quiet TcpConn.Waits
  refine forall_congr' fun i => ?_
  rw [← Bool.not_eq_true, pending_iff]

/-- A segment keeps the mailbox, or hands a request over to the idle worker. -/
theorem handleSegment_mailbox (s : Tcp) (seg : Segment) :
    (s.handleSegment seg).appState = s.appState ∧
        (s.appState = .idle → s.Quiet → (s.handleSegment seg).Quiet) ∨
      s.appState = .idle ∧ (s.handleSegment seg).appState = .queued := by
  obtain ⟨_, h⟩ | ⟨_, j, _, h⟩ | ⟨j, _, ⟨h, hnot⟩ | ⟨hidle, _, h⟩⟩ := handleSegment_cases s seg
  · rw [h]
    exact Or.inl ⟨rfl, fun _ => id⟩
  · rw [h]
    refine Or.inl ⟨rfl, fun _ hq => quiet_iff.mpr fun i => ?_⟩
    by_cases hi : i = j
    · subst hi
      rw [openConn_self]
      simp [TcpConn.Waits, TcpConn.opened]
    · rw [openConn_of_ne hi]
      exact quiet_iff.mp hq i
  · rw [h]
    refine Or.inl ⟨rfl, fun hidle hq => quiet_iff.mpr fun i => ?_⟩
    by_cases hi : i = j
    · subst hi
      rw [setConn_self]
      intro hw
      have := TcpConn.onSegment_waits (quiet_iff.mp hq i) hw
      simp [hnot hidle] at this
    · rw [setConn_of_ne hi]
      exact quiet_iff.mp hq i
  · rw [h]
    exact Or.inr ⟨hidle, rfl⟩

theorem tcpHandlePacket_mailbox (cfg : Config) (s : Tcp) (f : Frame) :
    (s.tcpHandlePacket cfg f).appState = s.appState ∧
        (s.appState = .idle → s.Quiet → (s.tcpHandlePacket cfg f).Quiet) ∨
      s.appState = .idle ∧ (s.tcpHandlePacket cfg f).appState = .queued := by
  unfold tcpHandlePacket
  split
  · exact handleSegment_mailbox s _
  · exact Or.inl ⟨rfl, fun _ => id⟩

/-- A flush frees the mailbox for good, or hands the next request over. -/
theorem tcpAppFlush_mailbox (hdone : s.appState = .done) :
    s.nextPending = none ∧ s.tcpAppFlush.appState = .idle ∧ s.tcpAppFlush.Quiet ∨
      (∃ i, s.nextPending = some i) ∧ s.tcpAppFlush.appState = .queued := by
  rw [tcpAppFlush_eq hdone]
  cases hnext : s.nextPending with
  | none =>
    refine Or.inl ⟨rfl, rfl, fun i => ?_⟩
    have := Fin.find?_eq_none_iff.mp hnext i
    rwa [responded_pending]
  | some i => exact Or.inr ⟨⟨i, rfl⟩, rfl⟩

end Tcp

namespace Handoff

/-- The worker or the net process is bound to look at the mailbox again. -/
def Stirred (s : Handoff) : Prop :=
  s.gNetW.pending = true ∨ s.gAppW.pending = true ∨ s.app = .kick ∨ s.app = .work

/-- When a response is flushed while another complete request waits, a kick is
pending or the worker has yet to look at the mailbox. -/
def Noticed (s : Handoff) : HandoffEvent → Prop
  | .flush => s.tcp.appState = .done → ∀ i, s.tcp.nextPending = some i → s.Stirred
  | _ => True

instance (s : Handoff) : Decidable s.Stirred :=
  inferInstanceAs (Decidable (_ ∨ _ ∨ _ ∨ _))

instance (s : Handoff) (e : HandoffEvent) : Decidable (s.Noticed e) := by
  cases e <;> simp only [Noticed] <;> infer_instance

/-- Who will see to the mailbox. -/
structure Attended (s : Handoff) : Prop where
  net : s.net = .blocked ↔ s.gNetW.parked = true
  app : s.app = .blocked ↔ s.gAppW.parked = true
  netAwake : s.gNetW.pending = true → s.net ≠ .blocked
  appAwake : s.gAppW.pending = true → s.app ≠ .blocked
  idle : s.tcp.appState = .idle → s.tcp.Quiet
  queued : s.tcp.appState = .queued →
    s.net = .drain ∨ s.net = .check ∨ s.net = .kick ∨ s.Stirred
  working : s.tcp.appState = .working → s.app = .building
  done : s.tcp.appState = .done →
    s.net = .drain ∨ s.net = .check ∨ s.net = .kick ∨ s.net = .flush ∨
      s.gNetW.pending = true ∨ s.app = .kick
  building : s.app = .building → s.tcp.appState = .working

theorem attended_start : Handoff.start.Attended where
  net := by simp [start]
  app := by simp [start]
  netAwake := by simp [start]
  appAwake := by simp [start]
  idle _ i := by simp [start, Tcp.start, Tcp.pending]
  queued := by simp [start, Tcp.start]
  working := by simp [start, Tcp.start]
  done := by simp [start, Tcp.start]
  building := by simp [start]

variable {cfg : Config} {s s' : Handoff}

theorem Attended.kickNet (h : s.Attended) : s.kickNet.Attended := by
  obtain ⟨hnet, happ, hna, haa, hidle, hqueued, hworking, hdone, hbuilding⟩ := h
  unfold Handoff.kickNet
  split_ifs with hp
  · constructor
    case queued => exact fun _ => Or.inl rfl
    case done => exact fun _ => Or.inl rfl
    all_goals simp_all
  · constructor
    case queued => exact fun _ => Or.inr (Or.inr (Or.inr (Or.inl rfl)))
    case done => exact fun _ => Or.inr (Or.inr (Or.inr (Or.inr (Or.inl rfl))))
    all_goals simp_all

theorem Attended.kickApp (h : s.Attended) (hnet : s.net = .kick) :
    ({ s.kickApp with net := .flush } : Handoff).Attended := by
  obtain ⟨hparked, happ, hna, haa, hidle, hqueued, hworking, hdone, hbuilding⟩ := h
  unfold Handoff.kickApp
  split_ifs with hp
  · constructor
    case queued => exact fun _ => Or.inr (Or.inr (Or.inr (Or.inr (Or.inl rfl))))
    case done => exact fun _ => Or.inr (Or.inr (Or.inr (Or.inl rfl)))
    all_goals simp_all
  · constructor
    case queued => exact fun _ => Or.inr (Or.inr (Or.inr (Or.inr (Or.inl rfl))))
    case done => exact fun _ => Or.inr (Or.inr (Or.inr (Or.inl rfl)))
    all_goals simp_all

theorem Attended.drained (h : s.Attended) (hnet : s.net = .drain) :
    ({ s with net := .check } : Handoff).Attended := by
  obtain ⟨hparked, happ, hna, haa, hidle, hqueued, hworking, hdone, hbuilding⟩ := h
  constructor
  case queued => exact fun _ => Or.inr (Or.inl rfl)
  case done => exact fun _ => Or.inr (Or.inl rfl)
  all_goals simp_all

/-- A queued request takes the net process to its kick. -/
theorem Attended.checkNet (h : s.Attended) (hnet : s.net = .check) : s.checkNet.Attended := by
  obtain ⟨hparked, happ, hna, haa, hidle, hqueued, hworking, hdone, hbuilding⟩ := h
  unfold Handoff.checkNet
  split_ifs with hq
  · constructor
    case queued => exact fun _ => Or.inr (Or.inr (Or.inl rfl))
    case done => exact fun _ => Or.inr (Or.inr (Or.inl rfl))
    all_goals simp_all
  · constructor
    case queued => exact fun hq' => absurd hq' hq
    case done => exact fun _ => Or.inr (Or.inr (Or.inr (Or.inl rfl)))
    all_goals simp_all

/-- The net process parks behind its flush: only a kick is left to rely on. -/
theorem Attended.parkNet (h : s.Attended) (hnet : s.net = .park) : s.parkNet.Attended := by
  obtain ⟨hparked, happ, hna, haa, hidle, hqueued, hworking, hdone, hbuilding⟩ := h
  unfold Handoff.parkNet
  split_ifs with hp
  · constructor
    case queued => exact fun _ => Or.inl rfl
    case done => exact fun _ => Or.inl rfl
    all_goals simp_all
  · constructor
    case queued => simpa [Stirred, hnet, hp] using hqueued
    case done => simpa [hnet, hp] using hdone
    all_goals simp_all

theorem Attended.parkApp (h : s.Attended) (happ : s.app = .park) : s.parkApp.Attended := by
  obtain ⟨hnet, hparked, hna, haa, hidle, hqueued, hworking, hdone, hbuilding⟩ := h
  unfold Handoff.parkApp
  split_ifs with hp
  · constructor
    case queued => exact fun _ => Or.inr (Or.inr (Or.inr (Or.inr (Or.inr (Or.inr rfl)))))
    case done => simpa [happ] using hdone
    all_goals simp_all
  · constructor
    case queued => simpa [Stirred, happ, hp] using hqueued
    case done => simpa [happ] using hdone
    all_goals simp_all

/-- The worker has kicked the net process and goes to park. -/
theorem Attended.kickedNet (h : s.Attended) (happ : s.app = .kick) :
    ({ s.kickNet with app := .park } : Handoff).Attended := by
  obtain ⟨hnet, hparked, hna, haa, hidle, hqueued, hworking, hdone, hbuilding⟩ := h
  unfold Handoff.kickNet
  split_ifs with hp
  · constructor
    case queued => exact fun _ => Or.inl rfl
    case done => exact fun _ => Or.inl rfl
    all_goals simp_all
  · constructor
    case queued => exact fun _ => Or.inr (Or.inr (Or.inr (Or.inl rfl)))
    case done => exact fun _ => Or.inr (Or.inr (Or.inr (Or.inr (Or.inl rfl))))
    all_goals simp_all

theorem Attended.workApp (h : s.Attended) (happ : s.app = .work) : s.workApp.Attended := by
  obtain ⟨hnet, hparked, hna, haa, hidle, hqueued, hworking, hdone, hbuilding⟩ := h
  unfold Handoff.workApp
  split_ifs with hq
  · have hstate : s.tcp.workBegin.appState = .working := by simp [Tcp.workBegin, hq]
    constructor
    case working => exact fun _ => rfl
    case building => exact fun _ => hstate
    case queued => simp [hstate]
    case done => simp [hstate]
    case idle => simp [hstate]
    all_goals simp_all
  · constructor
    case queued => exact fun hq' => absurd hq' hq
    case done => simpa [happ] using hdone
    all_goals simp_all

/-- The response is finished and the worker is about to kick the net process. -/
theorem Attended.built (h : s.Attended) (happ : s.app = .building) (resp : List UInt8) :
    ({ s with tcp := s.tcp.workEnd resp, app := .kick } : Handoff).Attended := by
  obtain ⟨hnet, hparked, hna, haa, hidle, hqueued, hworking, hdone, hbuilding⟩ := h
  have hstate : (s.tcp.workEnd resp).appState = .done := by simp [Tcp.workEnd, hbuilding happ]
  constructor
  case done => exact fun _ => Or.inr (Or.inr (Or.inr (Or.inr (Or.inr rfl))))
  case queued => simp [hstate]
  case working => simp [hstate]
  case idle => simp [hstate]
  all_goals simp_all

theorem Attended.rx (h : s.Attended) (hnet : s.net = .drain) (cfg : Config) (f : Frame) :
    ({ s with tcp := s.tcp.tcpHandlePacket cfg f } : Handoff).Attended := by
  have hmail := s.tcp.tcpHandlePacket_mailbox cfg f
  obtain ⟨hparked, happ, hna, haa, hidle, hqueued, hworking, hdone, hbuilding⟩ := h
  obtain ⟨hstate, hquiet⟩ | ⟨hstate, hstate'⟩ := hmail
  · constructor
    case idle => exact fun hi => hquiet (hstate ▸ hi) (hidle (hstate ▸ hi))
    case queued => exact fun _ => Or.inl hnet
    case done => exact fun _ => Or.inl hnet
    all_goals simp_all
  · constructor
    case idle => simp [hstate']
    case queued => exact fun _ => Or.inl hnet
    case done => exact fun _ => Or.inl hnet
    all_goals simp_all

/-- A flush empties the mailbox, or hands over a request that somebody is bound to notice. -/
theorem Attended.flush (h : s.Attended) (hnet : s.net = .flush) (hok : s.Noticed .flush) :
    ({ s with tcp := s.tcp.tcpAppFlush, net := .park } : Handoff).Attended := by
  by_cases hdone : s.tcp.appState = .done
  · have hnot : s.app ≠ .building := by
      intro hb
      simp [h.building hb] at hdone
    obtain ⟨hparked, happ, hna, haa, hidle, hqueued, hworking, _, hbuilding⟩ := h
    obtain ⟨_, hstate, hquiet⟩ | ⟨⟨i, hnext⟩, hstate⟩ := Tcp.tcpAppFlush_mailbox hdone
    · constructor
      case idle => exact fun _ => hquiet
      case queued => simp [hstate]
      case done => simp [hstate]
      all_goals simp_all
    · have hstirred := hok hdone i hnext
      constructor
      case idle => simp [hstate]
      case queued => exact fun _ => Or.inr (Or.inr (Or.inr hstirred))
      case done => simp [hstate]
      all_goals simp_all
  · have hkept : s.tcp.tcpAppFlush = s.tcp := by simp [Tcp.tcpAppFlush, hdone]
    rw [hkept]
    obtain ⟨hparked, happ, hna, haa, hidle, hqueued, hworking, _, hbuilding⟩ := h
    constructor
    case queued => simpa [Stirred, hnet] using hqueued
    case done => exact fun hd => absurd hd hdone
    all_goals simp_all

/-- The step lemma. -/
theorem Attended.step (h : s.Attended) {e : HandoffEvent} (hok : s.Noticed e)
    (hstep : s.step cfg e = some s') : s'.Attended := by
  cases e with
  | rx f =>
    obtain ⟨hplace, ⟨⟩⟩ := Option.ite_none_right_eq_some.mp hstep
    exact h.rx hplace cfg f
  | drained =>
    obtain ⟨hplace, ⟨⟩⟩ := Option.ite_none_right_eq_some.mp hstep
    exact h.drained hplace
  | check =>
    obtain ⟨hplace, ⟨⟩⟩ := Option.ite_none_right_eq_some.mp hstep
    exact h.checkNet hplace
  | kickApp =>
    obtain ⟨hplace, ⟨⟩⟩ := Option.ite_none_right_eq_some.mp hstep
    exact h.kickApp hplace
  | flush =>
    obtain ⟨hplace, ⟨⟩⟩ := Option.ite_none_right_eq_some.mp hstep
    exact h.flush hplace hok
  | parkNet =>
    obtain ⟨hplace, ⟨⟩⟩ := Option.ite_none_right_eq_some.mp hstep
    exact h.parkNet hplace
  | work =>
    obtain ⟨hplace, ⟨⟩⟩ := Option.ite_none_right_eq_some.mp hstep
    exact h.workApp hplace
  | built resp =>
    obtain ⟨hplace, ⟨⟩⟩ := Option.ite_none_right_eq_some.mp hstep
    exact h.built hplace resp
  | kickNet =>
    obtain ⟨hplace, ⟨⟩⟩ := Option.ite_none_right_eq_some.mp hstep
    exact h.kickedNet hplace
  | parkApp =>
    obtain ⟨hplace, ⟨⟩⟩ := Option.ite_none_right_eq_some.mp hstep
    exact h.parkApp hplace
  | irq =>
    obtain rfl := Option.some.inj hstep
    exact h.kickNet

theorem attended (h : Reachable (Handoff.step cfg) Noticed start s) : s.Attended :=
  h.invariant Attended attended_start fun _ _ _ hs hok hstep => hs.step hok hstep

theorem kickNet_not_lost (s : Handoff) :
    s.kickNet.net ≠ .blocked ∧ s.kickNet.parkNet.net ≠ .blocked ∨
      s.net = .blocked ∧ s.gNetW.parked = false := by
  by_cases hp : s.gNetW.parked = true
  · simp [Handoff.kickNet, Handoff.parkNet, hp]
  · by_cases hb : s.net = .blocked <;> simp [Handoff.kickNet, Handoff.parkNet, hp, hb]

theorem kickApp_not_lost (s : Handoff) :
    s.kickApp.app ≠ .blocked ∧ s.kickApp.parkApp.app ≠ .blocked ∨
      s.app = .blocked ∧ s.gAppW.parked = false := by
  by_cases hp : s.gAppW.parked = true
  · simp [Handoff.kickApp, Handoff.parkApp, hp]
  · by_cases hb : s.app = .blocked <;> simp [Handoff.kickApp, Handoff.parkApp, hp, hb]

/-- In a run in which every request that a flush hands over is noticed: when both
processes are parked the mailbox is empty and no complete request waits; who
has to see to a queued request or a finished response is about to look or has a
kick pending; a process with a kick pending is not parked, and a kick at any
moment wakes the process and keeps it from parking next. -/
theorem no_request_stranded (h : Reachable (Handoff.step cfg) Noticed start s) :
    (s.net = .blocked → s.app = .blocked → s.gNetW.pending = false → s.gAppW.pending = false →
      s.tcp.appState = .idle ∧ ∀ i, s.tcp.pending i = false) ∧
    (s.tcp.appState = .queued → s.net = .drain ∨ s.net = .check ∨ s.net = .kick ∨ s.Stirred) ∧
    (s.tcp.appState = .done →
      s.net = .drain ∨ s.net = .check ∨ s.net = .kick ∨ s.net = .flush ∨
        s.gNetW.pending = true ∨ s.app = .kick) ∧
    (s.gNetW.pending = true → s.net ≠ .blocked) ∧ (s.gAppW.pending = true → s.app ≠ .blocked) ∧
    (s.kickNet.net ≠ .blocked ∧ s.kickNet.parkNet.net ≠ .blocked) ∧
    (s.kickApp.app ≠ .blocked ∧ s.kickApp.parkApp.app ≠ .blocked) := by
  have hs := attended h
  have hkickNet := (kickNet_not_lost s).resolve_right fun hlost => by
    simp [hs.net.mp hlost.1] at hlost
  have hkickApp := (kickApp_not_lost s).resolve_right fun hlost => by
    simp [hs.app.mp hlost.1] at hlost
  refine ⟨?_, hs.queued, hs.done, hs.netAwake, hs.appAwake, hkickNet, hkickApp⟩
  intro hnet happ hnp hap
  cases hstate : s.tcp.appState with
  | idle => exact ⟨rfl, hs.idle hstate⟩
  | queued =>
    have := hs.queued hstate
    simp [Stirred, hnet, happ, hnp, hap] at this
  | working =>
    have := hs.working hstate
    simp [happ] at this
  | done =>
    have := hs.done hstate
    simp [hnet, happ, hnp] at this

/-- `GET / HTTP/1.0` -/
def getRequest : List UInt8 := [71, 69, 84, 32, 47, 32, 72, 84, 84, 80, 47, 49, 46, 48, 13, 10, 13, 10]

def rxPeer (seq ack : UInt32) (flags : UInt8) (data : List UInt8) : HandoffEvent :=
  .rx ((peerSegment seq ack flags data).frame server)

/-- A request is served and both processes park. -/
def servedRun : List HandoffEvent :=
  [.work, .parkApp, rxPeer 100 0 flagSyn [], rxPeer 101 0xDEADBEF0 flagAck [],
    rxPeer 101 0xDEADBEF0 flagAck getRequest, .drained, .check, .kickApp, .flush, .parkNet,
    .work, .built [79, 75], .kickNet, .parkApp, .work, .parkApp,
    .drained, .check, .flush, .parkNet, .drained, .check, .flush, .parkNet]

theorem servedRun_runs : (exec (Handoff.step server) start servedRun).isSome := by
  decide

theorem servedRun_noticed : EachStep (Handoff.step server) Noticed start servedRun := by
  decide

theorem no_request_stranded_served :
    ∃ s, Reachable (Handoff.step server) Noticed start s ∧ s.tcp.answers.length = 1 ∧
      s.net = .blocked ∧ s.app = .blocked ∧ s.tcp.appState = .idle ∧
      ∀ i, s.tcp.pending i = false := by
  have hreach := Reachable.start.exec servedRun_noticed (Option.some_get servedRun_runs).symm
  exact ⟨_, hreach, by decide, by decide, by decide,
    (no_request_stranded hreach).1 (by decide) (by decide) (by decide)
      (by decide)⟩

/-- A request is queued before the kick of the net process, and a response finished before the
kick of the worker: between the two steps the other process is parked without a kick. -/
theorem kick_still_to_come :
    (∃ s, Reachable (Handoff.step server) Noticed start s ∧ s.tcp.appState = .queued ∧
      s.app = .blocked ∧ s.gAppW.pending = false) ∧
    ∃ s, Reachable (Handoff.step server) Noticed start s ∧ s.tcp.appState = .done ∧
      s.net = .blocked ∧ s.gNetW.pending = false := by
  have hqueued : (exec (Handoff.step server) start (servedRun.take 5)).map (fun s =>
      (s.tcp.appState, s.app, s.gAppW.pending)) = some (.queued, .blocked, false) := by decide
  have hdone : (exec (Handoff.step server) start (servedRun.take 12)).map (fun s =>
      (s.tcp.appState, s.net, s.gNetW.pending)) = some (.done, .blocked, false) := by decide
  obtain ⟨s, hs, hview⟩ := Option.map_eq_some_iff.mp hqueued
  obtain ⟨t, ht, hview'⟩ := Option.map_eq_some_iff.mp hdone
  simp only [Prod.mk.injEq] at hview hview'
  exact ⟨⟨s, Reachable.start.exec (by decide) hs, hview⟩,
    ⟨t, Reachable.start.exec (by decide) ht, hview'⟩⟩

def rxOther (seq ack : UInt32) (flags : UInt8) (data : List UInt8) : HandoffEvent :=
  .rx ({ peerSegment seq ack flags data with ip := ![192, 168, 3, 3] }.frame server)

/-- Two peers ask. The worker finishes the first request after the net process
has flushed and before it parks; the second one is handed over by the next
flush, behind the check. -/
def strandedRun : List HandoffEvent :=
  [.work, .parkApp, rxPeer 100 0 flagSyn [], rxPeer 101 0xDEADBEF0 flagAck [],
    rxPeer 101 0xDEADBEF0 flagAck getRequest,
    rxOther 500 0 flagSyn [], rxOther 501 0xDEADBFF0 flagAck [],
    rxOther 501 0xDEADBFF0 flagAck getRequest,
    .drained, .check, .kickApp, .flush, .parkNet, .work, .irq, .drained, .check, .flush, .parkNet,
    .drained, .check, .flush, .built [79, 75], .kickNet, .parkNet, .parkApp, .work, .parkApp,
    .drained, .check, .flush, .parkNet]

theorem strandedRun_runs : (exec (Handoff.step server) start strandedRun).isSome := by
  decide +kernel

/-- Both processes are parked and no kick is pending, with a request queued. -/
theorem request_stranded :
    ∃ s, exec (Handoff.step server) start strandedRun = some s ∧
      s.net = .blocked ∧ s.app = .blocked ∧ s.gNetW.pending = false ∧
      s.gAppW.pending = false ∧ s.tcp.appState = .queued := by
  exact ⟨_, (Option.some_get strandedRun_runs).symm, by decide +kernel⟩

end Handoff

end XinuRpi4.Net
