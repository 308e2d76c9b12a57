import XinuRpi4.Genet.FrameDelivery
import XinuRpi4.Process.Transitions

/-!
# Processes that share the receive ring

The network process runs `genet_rx_tick`. Two loops elsewhere poll and release
too: `net_drain`, which text generation calls in the app worker and in the
shell, and the shell command `rxstat`. The timer switches processes unless the
gate of the actor pump is up; the null process, which runs the shell, is never
switched out. The ring has one owner exactly when no such loop gives a frame
back.
-/

namespace XinuRpi4.Genet

open XinuRpi4.Foundation XinuRpi4.Process

/-- The first two processes that are created. -/
def netSlot : Slot := 1

def appSlot : Slot := 2

/-- Who runs a loop that polls and releases. -/
inductive DrainCaller
  | rxstat
  | llm (gated : Bool)
deriving DecidableEq

/-- Where a process other than the network process is: text generation with the
gate up or not, with `g_drain` or without, or a loop that has so many rounds
left. -/
inductive Drainer
  | out
  | generating (gated drain : Bool)
  | loop (caller : DrainCaller) (n : ℕ)
  | polled (caller : DrainCaller) (n idx : ℕ)
deriving DecidableEq

namespace Drainer

/-- The process is in a loop. -/
def Busy : Drainer → Prop
  | .loop _ _ => True
  | .polled _ _ _ => True
  | _ => False

/-- The process has raised the gate. -/
def gated : Drainer → Bool
  | .generating gated _ => gated
  | .loop (.llm gated) _ => gated
  | .polled (.llm gated) _ _ => gated
  | _ => false

/-- The process is in a loop or will be. -/
def draining : Drainer → Bool
  | .out => false
  | .generating _ drain => drain
  | _ => true

instance (d : Drainer) : Decidable d.Busy := by
  cases d <;> unfold Busy <;> infer_instance

end Drainer

def DrainCaller.back : DrainCaller → Drainer
  | .rxstat => .out
  | .llm gated => .generating gated true

/-- The loop goes on when the poll has returned a length. -/
def afterDrainPoll (caller : DrainCaller) (n : ℕ) : Option (ℕ × ℕ) → Drainer
  | some (idx, len) => if 0 < len then .polled caller n idx else caller.back
  | none => caller.back

/-- The scheduler, the ring with the network process, and the other processes. -/
structure RingUsers where
  kernel : Kernel
  recv : Receiver
  drains : Slot → Drainer

inductive SharingEvent
  | hardware (f : RxFrame) (status : UInt16)
  | timer
  | netpreempt (on : Bool)
  | kick (p : Slot)
  | yield
  | block
  | run
  | llm (live : ℕ)
  | cmdLlm
  | netDrain
  | llmEnd
  | rxstat
deriving DecidableEq

/-- The descriptor that the network process has polled and not given back. -/
def RxTickPc.held : RxTickPc → Option ℕ
  | .polled _ idx _ => some idx
  | .handled _ idx => some idx
  | _ => none

namespace RingUsers

variable (s : RingUsers)

def cur : Drainer := s.drains s.kernel.currpid

def goto (d : Drainer) : RingUsers :=
  { s with drains := Function.update s.drains s.kernel.currpid d }

/-- The next piece of a loop. -/
def drainPiece : Option RingUsers :=
  match s.cur with
  | .loop caller 0 => some (s.goto caller.back)
  | .loop caller (n + 1) =>
    let (ring, found) := s.recv.ring.genetRxPoll
    some { s.goto (afterDrainPoll caller n found) with recv := { s.recv with ring := ring } }
  | .polled caller n _ => some { s.goto (.loop caller n) with recv := s.recv.release }
  | _ => none

/-- `http_build` starts a generation; the gate goes up when there are resident
actors, and then the ring is drained. -/
def startLlm (live : ℕ) : RingUsers :=
  let gated := decide (0 < live)
  { s.goto (.generating gated gated) with
    kernel := if gated then { s.kernel with actorPump := s.kernel.actorPump + 1 } else s.kernel }

/-- The generation ends; `proc_actor_pump_leave` when the gate was raised. -/
def endLlm (gated : Bool) : RingUsers :=
  { s.goto .out with
    kernel :=
      if gated ∧ s.kernel.actorPump > 0 then
        { s.kernel with actorPump := s.kernel.actorPump - 1 }
      else s.kernel }

/-- An interrupt or the current process goes on. -/
def step : SharingEvent → Option RingUsers
  | .hardware f status => some { s with recv := s.recv.hardware f status }
  | .timer => some { s with kernel := { s.kernel with reschedPending := true }.procPreempt }
  | .netpreempt on => some { s with kernel := { s.kernel with preemptOn := on } }
  | .kick p =>
    if s.kernel.state p = .wait then some { s with kernel := s.kernel.procReady p.val } else none
  | .yield =>
    if s.kernel.currpid ≠ netSlot ∧ ¬ s.cur.Busy then
      some { s with kernel := s.kernel.procYield }
    else none
  | .block =>
    if s.kernel.currpid ≠ nullproc ∧ s.cur = .out ∧
        (s.kernel.currpid = netSlot → s.recv.pc = .idle) then
      some { s with kernel := s.kernel.procBlock }
    else none
  | .run =>
    if s.kernel.currpid = netSlot then some { s with recv := s.recv.process } else s.drainPiece
  | .llm live => if s.kernel.currpid = appSlot ∧ s.cur = .out then some (s.startLlm live) else none
  | .cmdLlm =>
    if s.kernel.currpid = nullproc ∧ s.cur = .out then some (s.goto (.generating false true))
    else none
  | .netDrain =>
    match s.cur with
    | .generating gated true => some (s.goto (.loop (.llm gated) 64))
    | _ => none
  | .llmEnd =>
    match s.cur with
    | .generating gated _ => some (s.endLlm gated)
    | _ => none
  | .rxstat =>
    if s.kernel.currpid = nullproc ∧ s.cur = .out then some (s.goto (.loop .rxstat 32)) else none

/-- The ring after its initialisation; nobody has raised the gate. -/
def start (kernel : Kernel) (ring : RxRing) : RingUsers where
  kernel := { kernel with actorPump := 0 }
  recv := Receiver.start ring.genetInitRx
  drains _ := .out

/-- The frames are handed over in order before they are given back, and a frame
that the network process has polled is the first in the ring. -/
def Sound : Prop :=
  s.recv.InOrder ∧
    ∀ idx, s.recv.pc.held = some idx →
      s.recv.ring.gRxCons = idx ∧ s.recv.ring.prodIndex ≠ s.recv.ring.consIndex

/-- A release by a process is of the descriptor that its last poll returned, and
the hardware writes no descriptor of a frame in the ring. -/
def Owned : SharingEvent → Prop
  | .hardware f status => s.recv.Untouched (.hardware f status)
  | .run =>
    if s.kernel.currpid = netSlot then
      ∀ budget idx, s.recv.pc = .handled budget idx → s.recv.ring.gRxCons = idx
    else ∀ caller n idx, s.cur = .polled caller n idx → s.recv.ring.gRxCons = idx
  | _ => True

/-- Only the network process gives frames back. -/
def NetReleases : SharingEvent → Prop
  | .run => s.kernel.currpid ≠ netSlot → ∀ caller n idx, s.cur ≠ .polled caller n idx
  | _ => True

/-- What holds while only the network process gives frames back. A process in a
loop is not switched out. -/
structure Inv : Prop where
  recv : s.recv.Inv
  out : ∀ p, p ≠ appSlot → p ≠ nullproc → s.drains p = .out
  gate : s.kernel.actorPump = if (s.drains appSlot).gated then 1 else 0
  app : (s.drains appSlot).draining → (s.drains appSlot).gated
  null : (s.drains nullproc).gated = false
  busy : ∀ p, (s.drains p).Busy → p = s.kernel.currpid
  found : ∀ p caller n idx, s.drains p = .polled caller n idx →
    s.recv.ring.gRxCons = idx ∧ s.recv.queue ≠ []

variable {s}

theorem start_inv (kernel : Kernel) (ring : RxRing) : (start kernel ring).Inv where
  recv := Receiver.start_inv (RxRing.Carries.init ring)
  out _ _ _ := rfl
  gate := rfl
  app := nofun
  null := rfl
  busy _ := nofun
  found _ _ _ _ := nofun

theorem Inv.sound (h : s.Inv) : s.Sound := by
  refine ⟨h.recv.inOrder, fun idx hheld => ?_⟩
  obtain ⟨hcarries, hstands⟩ := h.recv
  have hfirst : ∀ a queue, s.recv.queue = a :: queue → idx = a.slot →
      s.recv.ring.gRxCons = idx ∧ s.recv.ring.prodIndex ≠ s.recv.ring.consIndex := by
    rintro a queue hqueue rfl
    rw [hqueue] at hcarries
    refine ⟨hcarries.cons.trans hcarries.held.head.1, ?_⟩
    rw [Ne, hcarries.empty_iff]
    exact List.cons_ne_nil a queue
  cases hpc : s.recv.pc with
  | idle => simp [hpc, RxTickPc.held] at hheld
  | loop budget => simp [hpc, RxTickPc.held] at hheld
  | polled budget idx' len =>
    rw [hpc] at hheld hstands
    cases hheld
    obtain ⟨-, a, queue, hqueue, hidx, -⟩ := hstands
    exact hfirst a queue hqueue hidx
  | handled budget idx' =>
    rw [hpc] at hheld hstands
    cases hheld
    obtain ⟨a, queue, hqueue, hidx, -⟩ := hstands
    exact hfirst a queue hqueue hidx

theorem Inv.owned (h : s.Inv) (e : SharingEvent) : s.Owned e := by
  cases e with
  | hardware f status => exact Receiver.untouched h.recv (.hardware f status)
  | run =>
    unfold Owned
    split_ifs with hnet
    · intro budget idx hpc
      exact (h.sound.2 idx (by rw [hpc]; rfl)).1
    · intro caller n idx hpolled
      exact (h.found _ caller n idx hpolled).1
  | _ => trivial

/-- A process that is in a loop is the app worker with the gate up, or the null
process. -/
theorem Inv.busy_cases (h : s.Inv) (hbusy : s.cur.Busy) :
    s.kernel.currpid = nullproc ∨ s.kernel.actorPump = 1 := by
  by_cases hnull : s.kernel.currpid = nullproc
  · exact .inl hnull
  by_cases happ : s.kernel.currpid = appSlot
  · have hdraining : (s.drains appSlot).draining := by
      rw [← happ]
      change s.cur.draining
      cases hcur : s.cur with
      | out => simp [hcur, Drainer.Busy] at hbusy
      | generating gated drain => simp [hcur, Drainer.Busy] at hbusy
      | loop caller n => rfl
      | polled caller n idx => rfl
    rw [h.gate, if_pos (h.app hdraining)]
    exact .inr rfl
  · rw [cur, h.out _ happ hnull] at hbusy
    exact absurd hbusy id

theorem Inv.withKernel (h : s.Inv) {k : Kernel} (hpump : k.actorPump = s.kernel.actorPump)
    (hcurr : s.cur.Busy → k.currpid = s.kernel.currpid) : ({ s with kernel := k } : RingUsers).Inv
    where
  recv := h.recv
  out := h.out
  gate := hpump.trans h.gate
  app := h.app
  null := h.null
  busy p hp := by
    have hpcurr := h.busy p hp
    have hcur : s.cur.Busy := by
      rw [cur, ← hpcurr]
      exact hp
    exact hpcurr.trans (hcurr hcur).symm
  found := h.found

theorem actorPump_eq {k k' : Kernel} (h : k'.unscheduled = k.unscheduled) :
    k'.actorPump = k.actorPump :=
  Kernel.of_unscheduled Kernel.actorPump (fun _ => rfl) h

/-- The timer does not switch a process out of a loop. -/
theorem Inv.timer (h : s.Inv) :
    ({ s with kernel := { s.kernel with reschedPending := true }.procPreempt } : RingUsers).Inv := by
  refine h.withKernel (actorPump_eq (Kernel.procPreempt_unscheduled _)) fun hbusy => ?_
  rcases h.busy_cases hbusy with hnull | hpump
  · unfold Kernel.procPreempt
    split_ifs <;> first | rfl | exact absurd hnull ‹_›
  · have hgate : s.kernel.actorPump ≠ 0 := by
      rw [hpump]
      decide
    unfold Kernel.procPreempt
    split_ifs <;> rfl

/-- The current process goes elsewhere, perhaps moving the gate. -/
theorem Inv.goto (h : s.Inv) {d : Drainer} {k : Kernel} (hcurr : k.currpid = s.kernel.currpid)
    (hwho : s.kernel.currpid = appSlot ∨ s.kernel.currpid = nullproc)
    (happ : s.kernel.currpid = appSlot →
      (k.actorPump = if d.gated then 1 else 0) ∧ (d.draining → d.gated))
    (hnull : s.kernel.currpid = nullproc → k.actorPump = s.kernel.actorPump ∧ d.gated = false)
    (hfound : ∀ caller n idx, d = .polled caller n idx →
      s.recv.ring.gRxCons = idx ∧ s.recv.queue ≠ []) :
    ({ s.goto d with kernel := k } : RingUsers).Inv := by
  have hself : (s.goto d).drains s.kernel.currpid = d := Function.update_self _ _ _
  have hother : ∀ p, p ≠ s.kernel.currpid → (s.goto d).drains p = s.drains p :=
    fun p hp => Function.update_of_ne hp _ _
  have hidle : ∀ p, p ≠ s.kernel.currpid → ¬ ((s.goto d).drains p).Busy := by
    intro p hp hbusy
    rw [hother p hp] at hbusy
    exact hp (h.busy p hbusy)
  refine ⟨h.recv, fun p hpa hpn => ?_, ?_, ?_, ?_, fun p hp => ?_, fun p caller n idx hp => ?_⟩
  · have hp : p ≠ s.kernel.currpid := by
      rintro rfl
      exact hwho.elim hpa hpn
    exact (hother p hp).trans (h.out p hpa hpn)
  · rcases hwho with hc | hc
    · rw [← hc, hself]
      exact (happ hc).1
    · rw [hother appSlot (by rw [hc]; decide)]
      exact (hnull hc).1.trans h.gate
  · rcases hwho with hc | hc
    · rw [← hc, hself]
      exact (happ hc).2
    · rw [hother appSlot (by rw [hc]; decide)]
      exact h.app
  · rcases hwho with hc | hc
    · rw [hother nullproc (by rw [hc]; decide)]
      exact h.null
    · rw [← hc, hself]
      exact (hnull hc).2
  · refine Eq.trans ?_ hcurr.symm
    by_contra hne
    exact hidle p hne hp
  · by_cases hpc : p = s.kernel.currpid
    · subst hpc
      exact hfound caller n idx (hself.symm.trans hp)
    · refine absurd ?_ (hidle p hpc)
      rw [show (s.goto d).drains p = _ from hp]
      trivial

theorem Inv.cur_who (h : s.Inv) (hcur : s.cur ≠ .out) :
    s.kernel.currpid = appSlot ∨ s.kernel.currpid = nullproc := by
  by_contra hne
  obtain ⟨happ, hnull⟩ := not_or.mp hne
  exact hcur (h.out _ happ hnull)

/-- The current process goes elsewhere and the gate stays. -/
theorem Inv.goto_same (h : s.Inv) {d : Drainer} (hcur : s.cur ≠ .out)
    (hgated : d.gated = s.cur.gated) (hdraining : d.draining → s.cur.draining)
    (hfound : ∀ caller n idx, d = .polled caller n idx →
      s.recv.ring.gRxCons = idx ∧ s.recv.queue ≠ []) : (s.goto d).Inv := by
  refine h.goto (k := s.kernel) rfl (h.cur_who hcur) (fun hc => ?_) (fun hc => ?_) hfound
  · have happ : s.cur = s.drains appSlot := by rw [cur, hc]
    rw [hgated, happ]
    exact ⟨h.gate, fun hd => h.app (happ ▸ hdraining hd)⟩
  · have hnull : s.cur = s.drains nullproc := by rw [cur, hc]
    exact ⟨rfl, hgated.trans (hnull ▸ h.null)⟩

theorem Inv.withRecv (h : s.Inv) {r : Receiver} (hr : r.Inv)
    (hfound : (∃ p caller n idx, s.drains p = .polled caller n idx) →
      r.ring.gRxCons = s.recv.ring.gRxCons ∧ (s.recv.queue ≠ [] → r.queue ≠ [])) :
    ({ s with recv := r } : RingUsers).Inv where
  recv := hr
  out := h.out
  gate := h.gate
  app := h.app
  null := h.null
  busy := h.busy
  found p caller n idx hp := by
    obtain ⟨hidx, hqueue⟩ := h.found p caller n idx hp
    obtain ⟨hcons, hkeep⟩ := hfound ⟨p, caller, n, idx, hp⟩
    exact ⟨hcons.trans hidx, hkeep hqueue⟩

theorem Inv.hardware (h : s.Inv) (f : RxFrame) (status : UInt16) :
    ({ s with recv := s.recv.hardware f status } : RingUsers).Inv := by
  refine h.withRecv (Receiver.hardware_inv h.recv f status) fun _ => ?_
  by_cases hfull : s.recv.ring.Full
  · rw [Receiver.hardware_full f status hfull]
    exact ⟨rfl, id⟩
  · rw [Receiver.hardware_room f status hfull, RxRing.receive, if_neg hfull]
    exact ⟨rfl, fun _ => by simp⟩

/-- The network process runs while no other process is in a loop. -/
theorem Inv.net (h : s.Inv) (hnet : s.kernel.currpid = netSlot) :
    ({ s with recv := s.recv.process } : RingUsers).Inv := by
  refine h.withRecv (Receiver.process_inv h.recv) ?_
  rintro ⟨p, caller, n, idx, hp⟩
  have hpnet : p = netSlot := by
    rw [← hnet]
    refine h.busy p ?_
    rw [hp]
    trivial
  rw [hpnet, h.out netSlot (by decide) (by decide)] at hp
  cases hp

/-- A poll of a loop. -/
theorem Inv.poll (h : s.Inv) {caller : DrainCaller} {n : ℕ} (hcur : s.cur = .loop caller (n + 1)) :
    ({ s.goto (afterDrainPoll caller n s.recv.ring.genetRxPoll.2) with
        recv := { s.recv with ring := s.recv.ring.genetRxPoll.1 } } : RingUsers).Inv := by
  obtain ⟨hcarries, hcons⟩ := h.recv.carries.poll
  have hgoto : (s.goto (afterDrainPoll caller n s.recv.ring.genetRxPoll.2)).Inv := by
    have hback : caller.back.gated = (Drainer.loop caller (n + 1)).gated := by
      cases caller <;> rfl
    have hkeep : ∀ {c : Drainer}, c = caller.back → c.gated = s.cur.gated ∧
        (c.draining → s.cur.draining) := by
      rintro _ rfl
      rw [hcur]
      exact ⟨hback, fun _ => rfl⟩
    have hne : s.cur ≠ .out := by
      rw [hcur]
      exact nofun
    cases hqueue : s.recv.queue with
    | nil =>
      have hempty := h.recv.carries
      rw [hqueue] at hempty
      rw [hempty.poll_nil]
      refine h.goto_same hne (hkeep rfl).1 (hkeep rfl).2 ?_
      intro caller' n' idx hd
      cases caller <;> cases hd
    | cons a queue =>
      have hfirst := h.recv.carries
      rw [hqueue] at hfirst
      rw [hfirst.poll_cons, afterDrainPoll, if_pos a.frame.pos]
      refine h.goto_same hne ?_ ?_ ?_
      · rw [hcur]
        cases caller <;> rfl
      · rw [hcur]
        exact fun _ => rfl
      · rintro caller' n' idx ⟨⟩
        rw [hqueue]
        exact ⟨hfirst.cons.trans hfirst.held.head.1, List.cons_ne_nil a queue⟩
  exact hgoto.withRecv ⟨hcarries, h.recv.stands⟩ fun _ => ⟨hcons, id⟩

theorem Inv.drainPiece {s' : RingUsers} (h : s.Inv)
    (hok : ∀ caller n idx, s.cur ≠ .polled caller n idx) (hstep : s.drainPiece = some s') :
    s'.Inv := by
  unfold RingUsers.drainPiece at hstep
  cases hcur : s.cur with
  | out => simp [hcur] at hstep
  | generating gated drain => simp [hcur] at hstep
  | loop caller n =>
    rw [hcur] at hstep
    cases n with
    | zero =>
      cases hstep
      refine h.goto_same (by rw [hcur]; exact nofun) ?_ (fun _ => by rw [hcur]; rfl) ?_
      · rw [hcur]
        cases caller <;> rfl
      · intro caller' n' idx hd
        cases caller <;> cases hd
    | succ n =>
      cases hstep
      exact h.poll hcur
  | polled caller n idx => exact absurd hcur (hok caller n idx)

theorem Inv.llm (h : s.Inv) (live : ℕ) (hcurr : s.kernel.currpid = appSlot) (hcur : s.cur = .out) :
    (s.startLlm live).Inv := by
  have hpump : s.kernel.actorPump = 0 := by
    have happ : s.drains appSlot = .out := by rw [← hcurr]; exact hcur
    rw [h.gate, happ]
    rfl
  refine h.goto ?_ (.inl hcurr) (fun _ => ⟨?_, id⟩) (fun hnull => ?_) nofun
  · split_ifs <;> rfl
  · by_cases hlive : 0 < live
    · simp [hlive, hpump, Drainer.gated]
    · simp [hlive, hpump, Drainer.gated]
  · exact absurd (hcurr.symm.trans hnull) (by decide)

theorem Inv.llmEnd (h : s.Inv) {gated drain : Bool} (hcur : s.cur = .generating gated drain) :
    (s.endLlm gated).Inv := by
  have hwho := h.cur_who (by rw [hcur]; exact nofun)
  refine h.goto ?_ hwho (fun hc => ⟨?_, nofun⟩) (fun hc => ⟨?_, rfl⟩) nofun
  · split_ifs <;> rfl
  · have happ : s.drains appSlot = .generating gated drain := by rw [← hc]; exact hcur
    have hpump := h.gate
    rw [happ] at hpump
    cases gated with
    | false => simpa [Drainer.gated] using hpump
    | true => simp [Drainer.gated] at hpump ⊢; simp [hpump]
  · have hnull := h.null
    rw [← hc, show s.drains s.kernel.currpid = _ from hcur] at hnull
    simp [Drainer.gated] at hnull
    simp [hnull]

theorem step_inv {e : SharingEvent} {s' : RingUsers} (h : s.Inv) (hok : s.NetReleases e)
    (hstep : s.step e = some s') : s'.Inv := by
  cases e with
  | hardware f status =>
    cases hstep
    exact h.hardware f status
  | timer =>
    cases hstep
    exact h.timer
  | netpreempt on =>
    cases hstep
    exact h.withKernel rfl fun _ => rfl
  | kick p =>
    obtain ⟨-, rfl⟩ := by simpa [step] using hstep
    exact h.withKernel (actorPump_eq (Kernel.procReady_unscheduled _ _)) fun _ =>
      Kernel.procReady_currpid _ _
  | yield =>
    obtain ⟨⟨-, hidle⟩, rfl⟩ := by simpa [step] using hstep
    exact h.withKernel (actorPump_eq (Kernel.procResched_unscheduled _)) fun hbusy =>
      absurd hbusy hidle
  | block =>
    obtain ⟨⟨-, hout, -⟩, rfl⟩ := by simpa [step] using hstep
    refine h.withKernel (actorPump_eq (Kernel.procBlock_unscheduled _)) fun hbusy => ?_
    rw [hout] at hbusy
    exact absurd hbusy id
  | run =>
    rw [step] at hstep
    split_ifs at hstep with hnet
    · cases hstep
      exact h.net hnet
    · exact h.drainPiece (hok hnet) hstep
  | llm live =>
    obtain ⟨⟨hcurr, hcur⟩, rfl⟩ := by simpa [step] using hstep
    exact h.llm live hcurr hcur
  | cmdLlm =>
    obtain ⟨⟨hcurr, hcur⟩, rfl⟩ := by simpa [step] using hstep
    refine h.goto (k := s.kernel) rfl (.inr hcurr) (fun hc => ?_) (fun _ => ⟨rfl, rfl⟩) nofun
    exact absurd (hcurr.symm.trans hc) (by decide)
  | netDrain =>
    rw [step] at hstep
    split at hstep
    · next gated hcur =>
      cases hstep
      refine h.goto_same (by rw [hcur]; exact nofun) ?_ (fun _ => by rw [hcur]; rfl) nofun
      rw [hcur]
      rfl
    · cases hstep
  | llmEnd =>
    rw [step] at hstep
    split at hstep
    · next gated drain hcur =>
      cases hstep
      exact h.llmEnd hcur
    · cases hstep
  | rxstat =>
    obtain ⟨⟨hcurr, hcur⟩, rfl⟩ := by simpa [step] using hstep
    refine h.goto (k := s.kernel) rfl (.inr hcurr) (fun hc => ?_) (fun _ => ⟨rfl, rfl⟩) nofun
    exact absurd (hcurr.symm.trans hc) (by decide)

/-- A release by another process takes a frame that is not handed over, or the one
that the network process has in hand. -/
theorem release_unsound (h : s.Inv) {caller : DrainCaller} {n idx : ℕ}
    (hcur : s.cur = .polled caller n idx) :
    ¬ ({ s.goto (.loop caller n) with recv := s.recv.release } : RingUsers).Sound := by
  rintro ⟨⟨-, hreleased⟩, hheld⟩
  obtain ⟨hcarries, hstands⟩ := h.recv
  obtain ⟨a, queue, hqueue⟩ := List.exists_cons_of_ne_nil (h.found _ caller n idx hcur).2
  have hlater : ¬ s.recv.handed = s.recv.released.map (·.frame.bytes) := by
    intro hhanded
    have hlen := hreleased.length_le
    simp [Receiver.release, hqueue, hhanded] at hlen
  cases hpc : s.recv.pc with
  | idle =>
    rw [hpc] at hstands
    exact hlater hstands
  | loop budget =>
    rw [hpc] at hstands
    exact hlater hstands
  | polled budget idx' len =>
    rw [hpc] at hstands
    exact hlater hstands.1
  | handled budget idx' =>
    have hmoved := (hheld idx' (by rw [Receiver.release, hpc]; rfl)).1
    have hself := (h.sound.2 idx' (by rw [hpc]; rfl)).1
    rw [Receiver.release, RxRing.genetRxRelease, if_pos hcarries.inited] at hmoved
    have hlt : s.recv.ring.gRxCons < rxRingDescs := by
      rw [hcarries.cons]
      exact Nat.mod_lt _ (by decide)
    have hnext : (s.recv.ring.gRxCons + 1) % 256 = idx' := hmoved
    have hlt' : s.recv.ring.gRxCons < 256 := hlt
    omega

theorem step_broken {e : SharingEvent} {s' : RingUsers} (h : s.Inv) (hok : ¬ s.NetReleases e)
    (hstep : s.step e = some s') : ¬ s'.Sound := by
  cases e with
  | run =>
    simp only [NetReleases, Classical.not_imp, not_forall, not_not] at hok
    obtain ⟨hnet, caller, n, idx, hcur⟩ := hok
    rw [step, if_neg hnet, drainPiece, hcur] at hstep
    cases hstep
    exact release_unsound h hcur
  | _ => exact absurd trivial hok

theorem step_none {e : SharingEvent} (hstep : s.step e = none) : s.NetReleases e := by
  cases e with
  | run =>
    intro hnet caller n idx hcur
    rw [step, if_neg hnet, drainPiece, hcur] at hstep
    cases hstep
  | _ => trivial

theorem owned_of_netReleases {es : List SharingEvent} (h : s.Inv)
    (hok : EachStep step NetReleases s es) : EachStep step Owned s es := by
  induction es generalizing s with
  | nil => trivial
  | cons e es ih =>
    exact ⟨h.owned e, fun s' hstep => ih (step_inv h hok.1 hstep) (hok.2 s' hstep)⟩

/-- The network process is the owner of the ring, from any state of the scheduler
and the hardware on, exactly when no other process gives a frame back. -/
theorem single_owner_iff (kernel : Kernel) (ring : RxRing) (es : List SharingEvent) :
    Always step Sound (start kernel ring) es ∧ EachStep step Owned (start kernel ring) es ↔
      EachStep step NetReleases (start kernel ring) es := by
  have hiff : Always step Sound (start kernel ring) es ↔
      EachStep step NetReleases (start kernel ring) es :=
    always_iff_eachStep_of_none Inv Sound (fun _ h => h.sound) (fun _ _ _ => step_inv)
      (fun _ _ _ => step_broken) (fun _ _ => step_none) (start_inv kernel ring) es
  exact ⟨fun h => hiff.mp h.1,
    fun h => ⟨hiff.mpr h, owned_of_netReleases (start_inv kernel ring) h⟩⟩

/-- The kernel with the three processes that are created at boot. -/
def bootKernel : Kernel :=
  (exec Kernel.step (Kernel.boot 0x100000 0x200000).procInit
    [.createArg (.other 0x80000) 8192 "net".toList 0,
      .createArg (.other 0x81000) 16384 "app".toList 0,
      .createArg (.other 0x82000) 32768 "aipl".toList 0]).getD (Kernel.boot 0x100000 0x200000)

def resetRing : RxRing where
  prodIndex := 0
  consIndex := 0
  lengthStatus _ := 0
  rxBufs _ _ := 0
  gRxInited := false
  gRxCons := 0
  gRxPackets := 0
  gRxBytes := 0
  gRxOverruns := 0
  gRxRecoveries := 0

def oneByte (b : UInt8) : RxFrame := ⟨[b], by simp, by simp⟩

/-- The network process handles a frame and parks, and the worker begins with the
request in it. A second frame wakes the network process, which polls it and is
switched out; then the worker raises the gate and drains the ring. -/
def drainedFrame : List SharingEvent :=
  [.netpreempt true, .yield, .hardware (oneByte 1) 0, .run, .run, .run, .run, .run, .block,
    .hardware (oneByte 2) 0, .kick netSlot, .timer, .block, .run, .run, .timer,
    .llm 1, .netDrain, .run, .run]

/-- The second frame is given back before any handler has seen it. -/
theorem drained_frame_unhandled :
    ¬ (Always step Sound (start bootKernel resetRing) drainedFrame ∧
      EachStep step Owned (start bootKernel resetRing) drainedFrame) := by
  rintro ⟨halways, -⟩
  have hend : (exec step (start bootKernel resetRing) drainedFrame).map
      (fun t => (t.recv.released.length, t.recv.handed.length)) = some (2, 1) := by
    decide
  obtain ⟨t, hrun, hlen⟩ := Option.map_eq_some_iff.mp hend
  have hle := (halways.of_exec hrun).1.2.length_le
  obtain ⟨hreleased, hhanded⟩ := Prod.mk.inj hlen
  rw [List.length_map, hreleased, hhanded] at hle
  exact absurd hle (by decide)

end RingUsers

end XinuRpi4.Genet
