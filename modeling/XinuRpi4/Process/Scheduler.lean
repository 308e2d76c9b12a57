import XinuRpi4.Process.Kernel

/-!
# What the scheduler is for

The abstract scheduler has a queue of ready processes, a state for each slot
and a current process. Its operations keep state and queue in step.
-/

namespace XinuRpi4.Process

/-- A queue of ready processes, the states of all processes, and who runs. -/
structure Sched where
  ready : List Slot
  state : Slot → ProcState
  curr : Slot

namespace Sched

/-- A blocked process joins the queue. -/
def wake (a : Sched) (p : Slot) : Sched :=
  if a.state p = .ready ∨ a.state p = .curr then a
  else { a with state := Function.update a.state p .ready, ready := a.ready ++ [p] }

/-- A slot that is not in use starts as ready. -/
def enroll (a : Sched) (p : Slot) : Sched :=
  { a with state := Function.update a.state p .ready, ready := a.ready ++ [p] }

/-- The current process goes to the end of the queue, the first one runs. -/
def resched (a : Sched) : Sched :=
  match a.ready with
  | [] => a
  | p :: l =>
    if a.state a.curr = .curr ∧ a.curr ≠ nullproc then
      { ready := l ++ [a.curr]
        state := Function.update (Function.update a.state a.curr .ready) p .curr
        curr := p }
    else { ready := l, state := Function.update a.state p .curr, curr := p }

/-- The first ready process runs, or the null process. -/
def dispatch (a : Sched) : Sched :=
  match a.ready with
  | [] => { a with state := Function.update a.state nullproc .curr, curr := nullproc }
  | p :: l => { ready := l, state := Function.update a.state p .curr, curr := p }

/-- The current process waits. -/
def block (a : Sched) : Sched :=
  { a with state := Function.update a.state a.curr .wait }.dispatch

/-- The current process is gone. -/
def exit (a : Sched) : Sched :=
  { a with
    state := Function.update a.state a.curr .free, ready := a.ready.erase a.curr }.dispatch

/-- Another process is gone. -/
def kill (a : Sched) (p : Slot) : Sched :=
  if p = a.curr ∨ a.state p = .free then a
  else { a with state := Function.update a.state p .free, ready := a.ready.erase p }

/-- The queue holds the ready processes, each once, and never the null process. -/
structure Queued (a : Sched) : Prop where
  nodup : a.ready.Nodup
  mem_iff : ∀ p, p ∈ a.ready ↔ a.state p = .ready
  null_notMem : nullproc ∉ a.ready

/-- Queue and states fit together, and the current process is marked as such. -/
structure Ok (a : Sched) : Prop extends Queued a where
  curr_state : a.state a.curr = .curr

variable {a : Sched} {p : Slot}

theorem Ok.curr_notMem (h : a.Ok) : a.curr ∉ a.ready := by
  rw [h.mem_iff, h.curr_state]
  decide

theorem Ok.wake (h : a.Ok) (hp : p ≠ nullproc) : (a.wake p).Ok := by
  unfold Sched.wake
  split_ifs with hst
  · exact h
  · have hmem : p ∉ a.ready := by
      rw [h.mem_iff]
      tauto
    have hcurr : a.curr ≠ p := by
      rintro rfl
      exact hst (Or.inr h.curr_state)
    refine ⟨⟨?_, fun q => ?_, ?_⟩, ?_⟩
    · exact List.nodup_append.mpr ⟨h.nodup, by simp, by
        rintro q hq _ hp' rfl
        exact hmem (List.mem_singleton.mp hp' ▸ hq)⟩
    · by_cases hq : q = p
      · simp [hq]
      · simp [hq, h.mem_iff]
    · simp [h.null_notMem, hp.symm]
    · simp only [Function.update_of_ne hcurr]
      exact h.curr_state

theorem Ok.enroll (h : a.Ok) (hp : p ≠ nullproc) (hfree : a.state p = .free) : (a.enroll p).Ok := by
  have hwake := h.wake hp
  simpa [Sched.wake, Sched.enroll, hfree] using hwake

theorem Queued.dispatch (h : a.Queued) : (a.dispatch).Ok := by
  obtain ⟨hnd, hmem, hnull⟩ := h
  unfold Sched.dispatch
  cases hready : a.ready with
  | nil =>
    rw [hready] at hmem
    refine ⟨⟨by simp, fun q => ?_, by simp⟩, by simp⟩
    by_cases hq : q = nullproc
    · simp [hq]
    · simpa [hq] using hmem q
  | cons p l =>
    rw [hready] at hnd hmem hnull
    obtain ⟨hpl, hnd⟩ := List.nodup_cons.mp hnd
    refine ⟨⟨hnd, fun q => ?_, fun hn => hnull (by simp [hn])⟩, by simp⟩
    by_cases hq : q = p
    · simp [hq, hpl]
    · simpa [hq] using hmem q

/-- Leaving the ready state and the queue together. -/
theorem Queued.drop (h : a.Queued) (p : Slot) (st : ProcState) (hst : st ≠ .ready) :
    Queued { a with state := Function.update a.state p st, ready := a.ready.erase p } := by
  obtain ⟨hnd, hmem, hnull⟩ := h
  refine ⟨hnd.erase p, fun q => ?_, fun hn => hnull (List.mem_of_mem_erase hn)⟩
  by_cases hq : q = p
  · subst hq
    simp [hnd.not_mem_erase, hst]
  · simp only [Function.update_of_ne hq, List.mem_erase_of_ne hq, hmem]

theorem Ok.block (h : a.Ok) : (a.block).Ok := by
  have hdrop := h.toQueued.drop a.curr .wait (by decide)
  rw [List.erase_of_not_mem h.curr_notMem] at hdrop
  exact hdrop.dispatch

theorem Ok.exit (h : a.Ok) : (a.exit).Ok :=
  (h.toQueued.drop a.curr .free (by decide)).dispatch

theorem Ok.kill (h : a.Ok) : (a.kill p).Ok := by
  unfold Sched.kill
  split_ifs with hp
  · exact h
  · refine ⟨h.toQueued.drop p .free (by decide), ?_⟩
    have hne : a.curr ≠ p := fun heq => hp (Or.inl heq.symm)
    simp only [Function.update_of_ne hne]
    exact h.curr_state

theorem Ok.resched (h : a.Ok) : (a.resched).Ok := by
  have hcn := h.curr_notMem
  obtain ⟨⟨hnd, hmem, hnull⟩, hcurr⟩ := h
  unfold Sched.resched
  cases hready : a.ready with
  | nil => exact ⟨⟨hnd, hmem, hnull⟩, hcurr⟩
  | cons p l =>
    rw [hready] at hnd hmem hnull hcn
    obtain ⟨hpl, hnd⟩ := List.nodup_cons.mp hnd
    have hpc : a.curr ≠ p := fun heq => hcn (by simp [heq])
    have hcl : a.curr ∉ l := fun hm => hcn (by simp [hm])
    have hnl : nullproc ∉ l := fun hm => hnull (by simp [hm])
    have hrest : ∀ q, q ≠ p → (q ∈ l ↔ a.state q = .ready) := fun q hq => by
      simpa [hq] using hmem q
    simp only
    split_ifs with hpark
    · refine ⟨⟨?_, fun q => ?_, ?_⟩, by simp⟩
      · rw [← List.concat_eq_append, List.nodup_concat]
        exact ⟨hcl, hnd⟩
      · by_cases hq : q = p
        · simp [hq, hpl, hpc.symm]
        · by_cases hqc : q = a.curr
          · simp [hqc, hpc]
          · simpa [hq, hqc] using hrest q hq
      · simp [hnl, hpark.2.symm]
    · refine ⟨⟨hnd, fun q => ?_, hnl⟩, by simp⟩
      by_cases hq : q = p
      · simp [hq, hpl]
      · simpa [hq] using hrest q hq

/-- A reschedule swaps runnable states and touches no other. -/
theorem resched_state (h : a.Ok) (p : Slot) :
    (a.resched).state p = a.state p ∨
      ((a.resched).state p = .ready ∨ (a.resched).state p = .curr) ∧
        (a.state p = .ready ∨ a.state p = .curr) := by
  unfold Sched.resched
  cases hready : a.ready with
  | nil => exact Or.inl rfl
  | cons q l =>
    have hq : a.state q = .ready := (h.mem_iff q).mp (by simp [hready])
    simp only
    split_ifs with hpark
    · by_cases hpq : p = q
      · subst hpq
        simp [hq]
      · by_cases hpc : p = a.curr
        · subst hpc
          simp [hpq, hpark.1]
        · simp [hpq, hpc]
    · by_cases hpq : p = q
      · subst hpq
        simp [hq]
      · simp [hpq]

/-- Dispatching makes a ready process, or the null process, current. -/
theorem dispatch_state (h : a.Queued) (p : Slot) :
    (a.dispatch).state p = a.state p ∨
      (a.dispatch).state p = .curr ∧ (a.state p = .ready ∨ p = nullproc) := by
  unfold Sched.dispatch
  cases hready : a.ready with
  | nil =>
    by_cases hp : p = nullproc
    · simp [hp]
    · simp [hp]
  | cons q l =>
    have hq : a.state q = .ready := (h.mem_iff q).mp (by simp [hready])
    by_cases hpq : p = q
    · subst hpq
      simp [hq]
    · simp [hpq]

/-- After blocking, the caller waits, unless it is the null process and comes
straight back. -/
theorem block_state (h : a.Ok) (p : Slot) :
    (a.block).state p = a.state p ∨ p = a.curr ∧ (a.block).state p = .wait ∨
      (a.block).state p = .curr ∧ (a.state p = .ready ∨ p = nullproc) := by
  have hq := h.toQueued.drop a.curr .wait (by decide)
  rw [List.erase_of_not_mem h.curr_notMem] at hq
  rcases dispatch_state hq p with hd | ⟨hd, hor⟩
  · by_cases hp : p = a.curr
    · subst hp
      exact Or.inr (Or.inl ⟨rfl, hd.trans (Function.update_self ..)⟩)
    · exact Or.inl (hd.trans (Function.update_of_ne hp ..))
  · refine Or.inr (Or.inr ⟨hd, ?_⟩)
    rcases hor with hor | hor
    · by_cases hp : p = a.curr
      · subst hp
        simp at hor
      · exact Or.inl (by simpa [hp] using hor)
    · exact Or.inr hor

theorem exit_state (h : a.Ok) (p : Slot) :
    (a.exit).state p = a.state p ∨ p = a.curr ∧ (a.exit).state p = .free ∨
      (a.exit).state p = .curr ∧ (a.state p = .ready ∨ p = nullproc) := by
  have hq := h.toQueued.drop a.curr .free (by decide)
  rcases dispatch_state hq p with hd | ⟨hd, hor⟩
  · by_cases hp : p = a.curr
    · subst hp
      exact Or.inr (Or.inl ⟨rfl, hd.trans (Function.update_self ..)⟩)
    · exact Or.inl (hd.trans (Function.update_of_ne hp ..))
  · refine Or.inr (Or.inr ⟨hd, ?_⟩)
    rcases hor with hor | hor
    · by_cases hp : p = a.curr
      · subst hp
        simp at hor
      · exact Or.inl (by simpa [hp] using hor)
    · exact Or.inr hor

end Sched

end XinuRpi4.Process
