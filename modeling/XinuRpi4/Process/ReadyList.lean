import XinuRpi4.Process.Simulation
import XinuRpi4.Foundation.Runs

/-!
# The ready list over whole runs

Any order of process creation, wake-up, rescheduling, preemption, blocking,
killing and exiting keeps the ready list in step with the states of the slots.
The one writer outside `proc.c` is the shell command `procdemo`: when its second
child cannot be created it marks the first one as free and leaves it queued.
-/

namespace XinuRpi4.Process

open Foundation Memory

/-- Steps of the kernel, taken by the current process or by an interrupt. -/
inductive KernelOp
  | createArg (entry : ProcEntry) (stksize : ℕ) (name : List Char) (arg : ℤ)
  | ready (pid : ℤ)
  | resched
  | preempt
  | block
  | kill (pid : ℤ)
  | exit
  | procdemo (ping pong : ℕ)
  | setPreempt (on : Bool)
  | reschedRequest
  | actorPumpEnter
  | actorPumpLeave

namespace Kernel

def step (k : Kernel) : KernelOp → Option Kernel
  | .createArg entry stksize name arg => (k.procCreateArg entry stksize name arg).map Prod.snd
  | .ready pid => some (k.procReady pid)
  | .resched => some k.procResched
  | .preempt => some k.procPreempt
  | .block => some k.procBlock
  | .kill pid => k.procKill pid
  | .exit => k.procExit
  | .procdemo ping pong => (k.cmdProcdemo ping pong).map Prod.snd
  | .setPreempt on => some { k with preemptOn := on }
  | .reschedRequest => some { k with reschedPending := true }
  | .actorPumpEnter => some { k with actorPump := k.actorPump + 1 }
  | .actorPumpLeave =>
    some (if k.actorPump > 0 then { k with actorPump := k.actorPump - 1 } else k)

/-- `procdemo` gets its first child and not the second. -/
def ProcdemoBacksOut (k : Kernel) (ping pong : ℕ) : Prop :=
  ∃ p k₁ k₂, k.procCreate (.other ping) 4096 "ping-proc".toList = some (p, k₁) ∧ 0 ≤ p ∧
    k₁.procCreate (.other pong) 4096 "pong-proc".toList = some (-1, k₂)

/-- The step does not take the failing branch of `procdemo`. -/
def DemoCompletes (k : Kernel) : KernelOp → Prop
  | .procdemo ping pong => ¬ k.ProcdemoBacksOut ping pong
  | _ => True

/-- The list from `ready_head` is `l`; it is the set of ready slots. -/
structure ReadyList (k : Kernel) (l : List Slot) : Prop where
  acyclic : Segment k.next k.readyHead l none
  nodup : l.Nodup
  tail_last : k.readyTail = l.getLast?
  mem_iff : ∀ p, p ∈ l ↔ k.state p = .ready
  null_notMem : nullproc ∉ l
  curr_state : k.state k.currpid = .curr
  curr_notMem : k.currpid ∉ l

/-- The ready list is sound, so that `ready_pop` yields a ready process. -/
def ReadyOk (k : Kernel) : Prop :=
  (∃ l, k.ReadyList l) ∧
    ∀ p k', k.readyPop = some (p, k') → k.state p = .ready ∧ p ≠ k.currpid

/-- The kernel holds some abstract scheduler in good order. -/
def Scheduled (k : Kernel) : Prop := ∃ a, Simulates k a ∧ a.Ok

end Kernel

/-- The queue of the scheduler is the ready list. -/
theorem Simulates.readyList {k : Kernel} {a : Sched} (h : Simulates k a) (hok : a.Ok) :
    k.ReadyList a.ready where
  acyclic := h.chain
  nodup := h.nodup
  tail_last := h.tail
  mem_iff := by
    rw [h.state_eq]
    exact hok.mem_iff
  null_notMem := hok.null_notMem
  curr_state := by
    rw [h.state_eq, h.curr_eq]
    exact hok.curr_state
  curr_notMem := by
    rw [h.curr_eq]
    exact hok.curr_notMem

namespace Kernel

theorem Scheduled.readyOk {k : Kernel} (h : k.Scheduled) : k.ReadyOk := by
  obtain ⟨a, hsim, hok⟩ := h
  refine ⟨⟨a.ready, hsim.readyList hok⟩, ?_⟩
  intro p k' hpop
  cases hready : a.ready with
  | nil => simp [hsim.pop_empty hready] at hpop
  | cons q l =>
    obtain ⟨k₁, hpop', -⟩ := hsim.pop hready
    obtain ⟨rfl, -⟩ := Prod.mk.inj (Option.some.inj (hpop'.symm.trans hpop))
    have hmem : q ∈ a.ready := by simp [hready]
    rw [hsim.state_eq, hsim.curr_eq]
    refine ⟨(hok.mem_iff q).mp hmem, ?_⟩
    rintro rfl
    exact hok.curr_notMem hmem

theorem procInit_state (k : Kernel) (p : Slot) :
    k.procInit.state p = if p = nullproc then .curr else .free := by
  unfold procInit state
  simp only
  split_ifs <;> rfl

theorem procInit_scheduled (k : Kernel) : k.procInit.Scheduled := by
  refine ⟨⟨[], k.procInit.state, nullproc⟩, ⟨⟨rfl, rfl, List.nodup_nil⟩, rfl, rfl⟩, ?_⟩
  refine ⟨⟨List.nodup_nil, fun p => ?_, List.not_mem_nil⟩, ?_⟩
  · simp only [procInit_state]
    split_ifs <;> simp
  · exact (procInit_state k nullproc).trans (if_pos rfl)

theorem slotOf_ne_null {pid : ℤ} {p : Slot} (h : slotOf pid = some p) : p ≠ nullproc := by
  unfold slotOf at h
  split_ifs at h with hpid
  cases h
  intro h0
  have := congrArg Fin.val h0
  simp at this
  omega

theorem slotOf_val (p : Slot) (hp : p ≠ nullproc) : slotOf (p.val : ℤ) = some p := by
  have hpos : 0 < p.val := Nat.pos_of_ne_zero fun h => hp (Fin.ext h)
  have hlt := p.isLt
  unfold slotOf
  rw [dif_pos ⟨by omega, by omega⟩]
  simp

namespace Scheduled

variable {k k' : Kernel}

theorem procReady (h : k.Scheduled) (pid : ℤ) : (k.procReady pid).Scheduled := by
  obtain ⟨a, hsim, hok⟩ := h
  refine ⟨_, hsim.procReady hok pid, ?_⟩
  cases hs : slotOf pid with
  | none => exact hok
  | some p => exact hok.wake (slotOf_ne_null hs)

theorem procResched (h : k.Scheduled) : k.procResched.Scheduled := by
  obtain ⟨a, hsim, hok⟩ := h
  exact ⟨_, hsim.procResched hok, hok.resched⟩

theorem procPreempt (h : k.Scheduled) : k.procPreempt.Scheduled := by
  obtain ⟨a, hsim, hok⟩ := h
  rcases hsim.procPreempt hok with h' | h'
  · exact ⟨_, h', hok⟩
  · exact ⟨_, h', hok.resched⟩

theorem procBlock (h : k.Scheduled) : k.procBlock.Scheduled := by
  obtain ⟨a, hsim, hok⟩ := h
  exact ⟨_, hsim.procBlock, hok.block⟩

theorem procExit (h : k.Scheduled) (hk : k.procExit = some k') : k'.Scheduled := by
  obtain ⟨a, hsim, hok⟩ := h
  obtain ⟨k₁, hrun, h₁⟩ := hsim.procExit
  obtain rfl : k₁ = k' := Option.some.inj (hrun.symm.trans hk)
  exact ⟨_, h₁, hok.exit⟩

theorem procKill {pid : ℤ} (h : k.Scheduled) (hk : k.procKill pid = some k') : k'.Scheduled := by
  obtain ⟨a, hsim, hok⟩ := h
  refine ⟨_, hsim.procKill hk, ?_⟩
  cases slotOf pid with
  | none => exact hok
  | some p => exact hok.kill

theorem procCreateArg {entry : ProcEntry} {n : ℕ} {name : List Char} {arg r : ℤ}
    (h : k.Scheduled) (hc : k.procCreateArg entry n name arg = some (r, k')) :
    k'.Scheduled := by
  obtain ⟨a, hsim, hok⟩ := h
  rcases hsim.procCreateArg hok hc with ⟨-, h'⟩ | ⟨p, hp, hfree, -, h'⟩
  · exact ⟨a, h', hok⟩
  · exact ⟨_, h', hok.enroll hp hfree⟩

theorem congr (h : k.Scheduled) (htab : k'.proctab = k.proctab)
    (hhead : k'.readyHead = k.readyHead) (htail : k'.readyTail = k.readyTail)
    (hcurr : k'.currpid = k.currpid) : k'.Scheduled := by
  obtain ⟨a, hsim, hok⟩ := h
  exact ⟨a, hsim.congr htab hhead htail hcurr, hok⟩

end Scheduled

/-- The three ways `procdemo` ends. -/
theorem cmdProcdemo_cases {k k' : Kernel} {ping pong : ℕ} {r : ℤ}
    (h : k.cmdProcdemo ping pong = some (r, k')) :
    (∃ p, k.procCreate (.other ping) 4096 "ping-proc".toList = some (p, k') ∧ p < 0) ∨
      ∃ p k₁ q k₂, k.procCreate (.other ping) 4096 "ping-proc".toList = some (p, k₁) ∧ 0 ≤ p ∧
        k₁.procCreate (.other pong) 4096 "pong-proc".toList = some (q, k₂) ∧
        (q < 0 ∧ k' = (slotOf p).elim k₂ (k₂.setState · .free) ∨ 0 ≤ q ∧ k' = k₂.procResched) := by
  unfold cmdProcdemo at h
  obtain ⟨⟨p, k₁⟩, hping, h⟩ := Option.bind_eq_some_iff.mp h
  simp only at h
  split_ifs at h with hp
  · cases h
    exact Or.inl ⟨p, hping, hp⟩
  · obtain ⟨⟨q, k₂⟩, hpong, h⟩ := Option.bind_eq_some_iff.mp h
    refine Or.inr ⟨p, k₁, q, k₂, hping, by omega, hpong, ?_⟩
    simp only at h
    split_ifs at h with hq
    · left
      refine ⟨hq, ?_⟩
      cases hs : slotOf p with
      | none =>
        rw [hs] at h
        cases h
        rfl
      | some s =>
        rw [hs] at h
        cases h
        rfl
    · cases h
      exact Or.inr ⟨by omega, rfl⟩

/-- Every other step, and `procdemo` when it completes, keeps the scheduler in order. -/
theorem step_scheduled {k k' : Kernel} {op : KernelOp} (h : k.Scheduled)
    (hop : k.DemoCompletes op) (hstep : k.step op = some k') : k'.Scheduled := by
  cases op with
  | createArg entry n name arg =>
    obtain ⟨⟨r, k₁⟩, hc, rfl⟩ := Option.map_eq_some_iff.mp hstep
    exact h.procCreateArg hc
  | ready pid =>
    cases hstep
    exact h.procReady pid
  | resched =>
    cases hstep
    exact h.procResched
  | preempt =>
    cases hstep
    exact h.procPreempt
  | block =>
    cases hstep
    exact h.procBlock
  | kill pid => exact h.procKill hstep
  | exit => exact h.procExit hstep
  | procdemo ping pong =>
    obtain ⟨⟨r, k₁⟩, hc, rfl⟩ := Option.map_eq_some_iff.mp hstep
    rcases cmdProcdemo_cases hc with ⟨p, hping, -⟩ | ⟨p, k₁, q, k₂, hping, hp, hpong, hres⟩
    · exact h.procCreateArg hping
    · have h₂ := (h.procCreateArg hping).procCreateArg hpong
      rcases hres with ⟨hq, rfl⟩ | ⟨-, rfl⟩
      · exfalso
        apply hop
        obtain ⟨a, hsim, hok⟩ := h.procCreateArg hping
        rcases hsim.procCreateArg hok hpong with ⟨rfl, -⟩ | ⟨s, -, -, rfl, -⟩
        · exact ⟨p, k₁, k₂, hping, hp, hpong⟩
        · omega
      · exact h₂.procResched
  | setPreempt on =>
    cases hstep
    exact h.congr rfl rfl rfl rfl
  | reschedRequest =>
    cases hstep
    exact h.congr rfl rfl rfl rfl
  | actorPumpEnter =>
    cases hstep
    exact h.congr rfl rfl rfl rfl
  | actorPumpLeave =>
    cases hstep
    split_ifs
    · exact h.congr rfl rfl rfl rfl
    · exact h

/-- When `procdemo` backs out, a free slot stays on the list. -/
theorem procdemo_not_readyOk {k k' : Kernel} {ping pong : ℕ} (h : k.Scheduled)
    (hback : k.ProcdemoBacksOut ping pong) (hstep : k.step (.procdemo ping pong) = some k') :
    ¬ k'.ReadyOk := by
  obtain ⟨p, k₁, k₂, hping, hp, hpong⟩ := hback
  obtain ⟨⟨r, k₃⟩, hc, rfl⟩ := Option.map_eq_some_iff.mp hstep
  obtain ⟨a, hsim, hok⟩ := h
  rcases cmdProcdemo_cases hc with ⟨p', hping', hp'⟩ | ⟨p', k₁', q, k₂', hping', -, hpong', hres⟩
  · cases hping.symm.trans hping'
    omega
  · cases hping.symm.trans hping'
    cases hpong.symm.trans hpong'
    rcases hres with ⟨-, rfl⟩ | ⟨hq, -⟩
    · rcases hsim.procCreateArg hok hping with ⟨rfl, -⟩ | ⟨s, hs, hfree, rfl, h₁⟩
      · omega
      · have hok₁ := hok.enroll hs hfree
        rcases h₁.procCreateArg hok₁ hpong with ⟨-, h₂⟩ | ⟨s', -, -, hs', -⟩
        · rw [slotOf_val s hs]
          rintro ⟨⟨l, hl⟩, -⟩
          -- the list is the one before the write to the state
          have hchain : Segment k₂.next k₂.readyHead l none := by
            have hseg := hl.acyclic
            rwa [Option.elim, setState_next] at hseg
          have hleq : l = (a.enroll s).ready := hchain.unique h₂.chain
          have hmem : s ∈ l := by simp [hleq, Sched.enroll]
          have hready := (hl.mem_iff s).mp hmem
          simp at hready
        · omega
    · omega

/-- A run keeps the ready list sound throughout exactly when `procdemo` never
takes its failing branch in it. -/
theorem ready_list_sound_iff (k : Kernel) (ops : List KernelOp)
    (hrun : (exec step k.procInit ops).isSome) :
    Always step ReadyOk k.procInit ops ↔ EachStep step DemoCompletes k.procInit ops := by
  apply always_iff_eachStep Scheduled ReadyOk
  · exact fun _ h => h.readyOk
  · exact fun _ _ _ => step_scheduled
  · intro k op k' h hop hstep
    cases op with
    | procdemo ping pong => exact procdemo_not_readyOk h (not_not.mp hop) hstep
    | _ => exact absurd trivial hop
  · exact procInit_scheduled k
  · exact hrun

/-- The statics of `proc.c` at power-on, with the heap of `mem_init(lo, hi)`. -/
def boot (lo hi : ℕ) : Kernel where
  proctab _ :=
    { state := .free, prio := 0, stkbase := 0, stklen := 0, sp := 0, arg := 0, name := []
      next := none, entry := .other 0 }
  currpid := nullproc
  readyHead := none
  readyTail := none
  preemptOn := false
  reschedPending := false
  actorPump := 0
  ctxswCount := 0
  aipl :=
    { owner := -1, depth := 0, timeouts := 0, stuckOwner := 0, stuckOwnerState := some .free
      stuckBy := 0 }
  sp := 0
  bounds := memInitBounds lo hi
  mem := ((memInit (memInitBounds lo hi)).run headerCells fun _ => 0).2
  stackLog := []

/-- One child is created, runs and exits. -/
theorem ready_list_sound_one_child :
    Always step ReadyOk (boot 4096 65536).procInit
      [.createArg (.other 1) 4096 [] 0, .resched, .exit] := by
  rw [ready_list_sound_iff]
  · simp [EachStep, DemoCompletes]
  · decide

/-- With room for one stack only, `procdemo` leaves a free slot on the list. -/
theorem ready_list_holds_free_slot :
    ¬ ∀ (k : Kernel) (ops : List KernelOp), (exec step k.procInit ops).isSome →
      Always step ReadyOk k.procInit ops := by
  intro hclaim
  have hsome : ((boot 4096 10240).procInit.step (.procdemo 1 2)).isSome := by decide
  obtain ⟨k', hstep⟩ := Option.isSome_iff_exists.mp hsome
  have hping : ((boot 4096 10240).procInit.procCreate (.other 1) 4096 "ping-proc".toList).map
      Prod.fst = some 1 := by decide
  have hpong : (((boot 4096 10240).procInit.procCreate (.other 1) 4096 "ping-proc".toList).bind
      fun r => r.2.procCreate (.other 2) 4096 "pong-proc".toList).map Prod.fst = some (-1) := by
    decide
  obtain ⟨⟨p, k₁⟩, hp, rfl⟩ := Option.map_eq_some_iff.mp hping
  obtain ⟨⟨q, k₂⟩, hq, hq1⟩ := Option.map_eq_some_iff.mp hpong
  rw [hp] at hq
  have hback : (boot 4096 10240).procInit.ProcdemoBacksOut 1 2 :=
    ⟨1, k₁, k₂, hp, by decide, by rw [← hq1]; exact hq⟩
  have hrun := hclaim (boot 4096 10240) [.procdemo 1 2] (by decide)
  exact procdemo_not_readyOk (procInit_scheduled _) hback hstep (hrun.2 k' hstep)

end Kernel

end XinuRpi4.Process
