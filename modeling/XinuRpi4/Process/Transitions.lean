import XinuRpi4.Process.AiplLock

/-!
# What kernel calls do to states and roles

The states of the slots and the functions their processes run, before and after
each call. Scheduling calls leave the population as it is; a call that creates,
ends or kills a process changes one slot.
-/

namespace XinuRpi4.Process

namespace Kernel

variable {k k' : Kernel}

/-- What the process of a slot runs, and its argument. -/
def role (k : Kernel) (p : Slot) : ProcEntry × ℤ := ((k.proctab p).entry, (k.proctab p).arg)

theorem role_eq (h : k'.unscheduled = k.unscheduled) : k'.role = k.role :=
  of_unscheduled role (fun _ => rfl) h

/-- The same processes exist and run the same functions. -/
structure SamePop (k k' : Kernel) : Prop where
  scheduled : k'.Scheduled
  role_eq : k'.role = k.role
  free_iff : ∀ p, k'.state p = .free ↔ k.state p = .free

/-- A change of the lock, of counters or of the heap. -/
theorem SamePop.of_congr (h : k.Scheduled) (htab : k'.proctab = k.proctab)
    (hhead : k'.readyHead = k.readyHead) (htail : k'.readyTail = k.readyTail)
    (hcurr : k'.currpid = k.currpid) : SamePop k k' where
  scheduled := h.congr htab hhead htail hcurr
  role_eq := by
    funext p
    rw [role, role, htab]
  free_iff p := by rw [state, state, htab]

/-- The calls on the lock change nothing else. -/
theorem SamePop.of_aipl (h : k.Scheduled) (a : AiplLock) : SamePop k { k with aipl := a } :=
  .of_congr h rfl rfl rfl rfl

theorem aiplRound_eq {spins : ℕ} (h : k.aiplRound spins = some k') :
    ∃ a, k' = { k with aipl := a } := by
  unfold aiplRound at h
  split_ifs at h
  · cases h
    exact ⟨_, rfl⟩
  · cases h
    exact ⟨_, rfl⟩

theorem aiplUnlock_eq (k : Kernel) : ∃ a, k.aiplUnlock = { k with aipl := a } := by
  unfold aiplUnlock
  split_ifs
  · exact ⟨_, rfl⟩
  · exact ⟨_, rfl⟩
  · exact ⟨k.aipl, rfl⟩

theorem aiplUnlockAll_eq (k : Kernel) : ∃ a, k.aiplUnlockAll.1 = { k with aipl := a } := by
  unfold aiplUnlockAll
  split_ifs
  · exact ⟨_, rfl⟩
  · exact ⟨k.aipl, rfl⟩

theorem SamePop.trans {k'' : Kernel} (h : SamePop k k') (h' : SamePop k' k'') :
    SamePop k k'' where
  scheduled := h'.scheduled
  role_eq := h'.role_eq.trans h.role_eq
  free_iff p := (h'.free_iff p).trans (h.free_iff p)

theorem procReady_state (k : Kernel) (pid : ℤ) (p : Slot) :
    (k.procReady pid).state p =
      if slotOf pid = some p ∧ ¬ (k.state p = .ready ∨ k.state p = .curr) then .ready
      else k.state p := by
  unfold procReady
  cases hs : slotOf pid with
  | none => simp
  | some q =>
    by_cases hq : k.state q = .ready ∨ k.state q = .curr
    · simp only [if_pos hq]
      rw [if_neg]
      rintro ⟨heq, hn⟩
      cases heq
      exact hn hq
    · simp only [if_neg hq, readyPush_state, setState_state]
      by_cases hp : q = p
      · subst hp
        simp [hq]
      · have hp' : p ≠ q := fun h => hp h.symm
        simp [hp, Function.update_of_ne hp']

theorem procReady_currpid (k : Kernel) (pid : ℤ) : (k.procReady pid).currpid = k.currpid := by
  unfold procReady
  cases slotOf pid with
  | none => rfl
  | some q =>
    by_cases hq : k.state q = .ready ∨ k.state q = .curr
    · simp only [if_pos hq]
    · simp only [if_neg hq, readyPush_currpid]
      rfl

/-- Waking a process that exists. -/
theorem procReady_samePop (h : k.Scheduled) {pid : ℤ}
    (hpid : ∀ p, slotOf pid = some p → k.state p ≠ .free) : SamePop k (k.procReady pid) where
  scheduled := h.procReady pid
  role_eq := role_eq (procReady_unscheduled k pid)
  free_iff p := by
    rw [procReady_state]
    split_ifs with hp
    · have hne := hpid p hp.1
      simp [hne]
    · rfl

/-- A wake-up puts nobody to sleep. -/
theorem procReady_wait {pid : ℤ} {p : Slot} (h : (k.procReady pid).state p = .wait) :
    k.state p = .wait ∧ slotOf pid ≠ some p := by
  rw [procReady_state] at h
  split_ifs at h with hp
  refine ⟨h, fun hs => hp ⟨hs, ?_⟩⟩
  simp [h]

theorem procResched_state (h : k.Scheduled) (p : Slot) :
    k.procResched.state p = k.state p ∨
      (k.procResched.state p = .ready ∨ k.procResched.state p = .curr) ∧
        (k.state p = .ready ∨ k.state p = .curr) := by
  obtain ⟨a, hsim, hok⟩ := h
  rw [(hsim.procResched hok).state_eq, hsim.state_eq]
  exact Sched.resched_state hok p

theorem procResched_samePop (h : k.Scheduled) : SamePop k k.procResched where
  scheduled := h.procResched
  role_eq := role_eq (procResched_unscheduled k)
  free_iff p := by
    rcases procResched_state h p with heq | ⟨hnew | hnew, hold | hold⟩
    · rw [heq]
    all_goals simp [hnew, hold]

theorem procResched_wait (h : k.Scheduled) {p : Slot} (hp : k.procResched.state p = .wait) :
    k.state p = .wait := by
  rcases procResched_state h p with heq | ⟨hnew | hnew, -⟩
  · exact heq ▸ hp
  · simp [hnew] at hp
  · simp [hnew] at hp

theorem procBlock_state (h : k.Scheduled) (p : Slot) :
    k.procBlock.state p = k.state p ∨ p = k.currpid ∧ k.procBlock.state p = .wait ∨
      k.procBlock.state p = .curr ∧ (k.state p = .ready ∨ p = nullproc) := by
  obtain ⟨a, hsim, hok⟩ := h
  rw [hsim.procBlock.state_eq, hsim.state_eq, hsim.curr_eq]
  exact Sched.block_state hok p

theorem curr_state (h : k.Scheduled) : k.state k.currpid = .curr := by
  obtain ⟨a, hsim, hok⟩ := h
  rw [hsim.state_eq, hsim.curr_eq]
  exact hok.curr_state

theorem procBlock_samePop (h : k.Scheduled) (hnull : k.state nullproc ≠ .free) :
    SamePop k k.procBlock where
  scheduled := h.procBlock
  role_eq := role_eq (procBlock_unscheduled k)
  free_iff p := by
    rcases procBlock_state h p with heq | ⟨rfl, hnew⟩ | ⟨hnew, hold | rfl⟩
    · rw [heq]
    · simp [hnew, curr_state h]
    · simp [hnew, hold]
    · simp [hnew, hnull]

theorem procBlock_wait (h : k.Scheduled) {p : Slot} (hp : k.procBlock.state p = .wait) :
    k.state p = .wait ∨ p = k.currpid := by
  rcases procBlock_state h p with heq | ⟨rfl, -⟩ | ⟨hnew, -⟩
  · exact Or.inl (heq ▸ hp)
  · exact Or.inr rfl
  · simp [hnew] at hp

/-- `proc_exit` frees the slot of the caller and no other. -/
structure Exits (k k' : Kernel) : Prop where
  scheduled : k'.Scheduled
  role_eq : k'.role = k.role
  free_iff : ∀ p, k'.state p = .free ↔ k.state p = .free ∨ p = k.currpid
  wait_of : ∀ p, k'.state p = .wait → k.state p = .wait ∧ p ≠ k.currpid

theorem procExit_exits (h : k.Scheduled) (hnull : k.state nullproc ≠ .free)
    (hcurr : k.currpid ≠ nullproc) (hk : k.procExit = some k') : Exits k k' := by
  have hstate : ∀ p, k'.state p = k.state p ∧ p ≠ k.currpid ∨ p = k.currpid ∧ k'.state p = .free ∨
      k'.state p = .curr ∧ (k.state p = .ready ∨ p = nullproc) ∧ p ≠ k.currpid := by
    obtain ⟨a, hsim, hok⟩ := h
    obtain ⟨k₁, hrun, h₁⟩ := hsim.procExit
    obtain rfl : k₁ = k' := Option.some.inj (hrun.symm.trans hk)
    intro p
    have hfree : p = a.curr → (a.exit).state p = .free := by
      intro hp
      rw [hsim.curr_eq] at hcurr
      rw [hp]
      have hq := (hok.toQueued.drop a.curr .free (by decide))
      rcases Sched.dispatch_state hq a.curr with hd | ⟨-, hor⟩
      · exact hd.trans (Function.update_self ..)
      · simp [hcurr] at hor
    rw [h₁.state_eq, hsim.state_eq, hsim.curr_eq]
    by_cases hp : p = a.curr
    · exact Or.inr (Or.inl ⟨hp, hfree hp⟩)
    · rcases Sched.exit_state hok p with heq | ⟨hpc, -⟩ | ⟨hnew, hold⟩
      · exact Or.inl ⟨heq, hp⟩
      · exact absurd hpc hp
      · exact Or.inr (Or.inr ⟨hnew, hold, hp⟩)
  refine ⟨h.procExit hk, role_eq (procExit_unscheduled hk), fun p => ?_, fun p hp => ?_⟩
  · rcases hstate p with ⟨heq, hne⟩ | ⟨heq, hnew⟩ | ⟨hnew, hold | hold, hne⟩
    · simp [heq, hne]
    · simp [heq ▸ hnew, heq]
    · simp [hnew, hold, hne]
    · subst hold
      simp [hnew, hnull, hne]
  · rcases hstate p with ⟨heq, hne⟩ | ⟨-, hnew⟩ | ⟨hnew, -⟩
    · exact ⟨heq ▸ hp, hne⟩
    · simp [hnew] at hp
    · simp [hnew] at hp

/-- `proc_kill` frees the slot, unless it is the caller's or free already. -/
structure Kills (k k' : Kernel) (pid : ℤ) : Prop where
  scheduled : k'.Scheduled
  role_eq : k'.role = k.role
  currpid_eq : k'.currpid = k.currpid
  state_eq : ∀ p, k'.state p = if slotOf pid = some p ∧ p ≠ k.currpid then .free else k.state p

theorem procKill_kills (h : k.Scheduled) {pid : ℤ} (hk : k.procKill pid = some k') :
    Kills k k' pid := by
  refine ⟨h.procKill hk, ?_, ?_, ?_⟩
  · rcases procKill_cases hk with ⟨rfl, -⟩ | ⟨p, k₁, k₂, -, -, hrem, hfree, rfl⟩
    · rfl
    · have htab := (freeStack_sched hfree).1
      have h₁ : k₁.role = k.role := role_eq (readyRemoveLoop_unscheduled hrem)
      have hdrop : (k₁.dropLockOf pid).proctab = k₁.proctab := by
        unfold dropLockOf
        split_ifs <;> rfl
      rw [← h₁]
      funext q
      by_cases hq : q = p
      · subst hq
        simp [role, vacate, modify, htab, hdrop]
      · simp [role, vacate, modify, htab, hdrop, hq]
  · obtain ⟨a, hsim, -⟩ := h
    have hsim' := hsim.procKill hk
    rw [hsim'.curr_eq, hsim.curr_eq]
    cases slotOf pid with
    | none => rfl
    | some p =>
      simp only [Option.elim, Sched.kill]
      split_ifs <;> rfl
  · intro p
    obtain ⟨a, hsim, -⟩ := h
    have hsim' := hsim.procKill hk
    rw [hsim'.state_eq, hsim.state_eq, hsim.curr_eq]
    cases hs : slotOf pid with
    | none => simp
    | some q =>
      simp only [Option.elim, Sched.kill, Option.some.injEq]
      by_cases hq : q = a.curr ∨ a.state q = .free
      · rw [if_pos hq]
        by_cases hqp : q = p
        · subst hqp
          rcases hq with hq | hq
          · simp [hq]
          · simp [hq]
        · simp [hqp]
      · rw [if_neg hq]
        by_cases hqp : q = p
        · subst hqp
          have hne : q ≠ a.curr := fun he => hq (Or.inl he)
          simp [hne]
        · have hpq : p ≠ q := fun he => hqp he.symm
          simp [hqp, Function.update_of_ne hpq]

/-- `proc_create_arg` fills one free slot, or leaves the population as it is. -/
theorem procCreateArg_effect (h : k.Scheduled) {entry : ProcEntry} {n : ℕ} {name : List Char}
    {arg r : ℤ} (hc : k.procCreateArg entry n name arg = some (r, k')) :
    k'.Scheduled ∧ k'.currpid = k.currpid ∧
      (r = -1 ∧ k'.state = k.state ∧ k'.role = k.role ∨
        ∃ p, p ≠ nullproc ∧ k.state p = .free ∧ r = p.val ∧
          k'.state = Function.update k.state p .ready ∧
          k'.role = Function.update k.role p (entry, arg)) := by
  refine ⟨h.procCreateArg hc, ?_⟩
  obtain ⟨a, hsim, hok⟩ := h
  have hrole : r = -1 ∧ k'.role = k.role ∨
      ∃ p, r = p.val ∧ k'.role = Function.update k.role p (entry, arg) := by
    rcases procCreateArg_cases hc with
      ⟨-, rfl, rfl⟩ | ⟨p, k₁, stk, k₂, -, hreap, hget, hres⟩
    · exact Or.inl ⟨rfl, rfl⟩
    · have h₁ : k₁.role = k.role := by
        unfold reapStack at hreap
        split_ifs at hreap
        · cases hreap
          rfl
        · obtain ⟨k₀, hfree, rfl⟩ := Option.map_eq_some_iff.mp hreap
          have htab := (freeStack_sched hfree).1
          funext q
          by_cases hq : q = p
          · subst hq
            simp [role, modify, htab]
          · simp [role, modify, htab, hq]
      have h₂ : k₂.role = k.role := by
        rw [← h₁, (getmem_eq hget).2]
        rfl
      rcases hres with ⟨-, rfl, rfl⟩ | ⟨-, rfl, rfl⟩
      · exact Or.inl ⟨rfl, h₂⟩
      · refine Or.inr ⟨p, rfl, ?_⟩
        rw [role_eq (readyPush_unscheduled _ _), ← h₂]
        funext q
        by_cases hq : q = p
        · subst hq
          simp [role, install, modify, newProcent]
        · simp [role, install, modify, hq]
  rcases hsim.procCreateArg hok hc with ⟨rfl, h'⟩ | ⟨p, hp, hfree, rfl, h'⟩
  · refine ⟨h'.curr_eq.trans hsim.curr_eq.symm, Or.inl ⟨rfl, ?_, ?_⟩⟩
    · rw [h'.state_eq, hsim.state_eq]
    · rcases hrole with ⟨-, hr⟩ | ⟨p, hp, -⟩
      · exact hr
      · omega
  · refine ⟨h'.curr_eq.trans hsim.curr_eq.symm, Or.inr ⟨p, hp, ?_, rfl, ?_, ?_⟩⟩
    · rw [hsim.state_eq]
      exact hfree
    · rw [h'.state_eq, hsim.state_eq]
      rfl
    · rcases hrole with ⟨hr, -⟩ | ⟨q, hq, hr⟩
      · omega
      · obtain rfl : p = q := Fin.ext (by omega)
        exact hr

end Kernel

end XinuRpi4.Process
