import XinuRpi4.Process.LockFairness

/-!
# The heap lock over whole runs

The condition on the steps of a run, the invariant of the lock, and the theorem that
every state of a run under the condition is sound. A run without the condition takes
the lock from the null process although that process can run.
-/

namespace XinuRpi4.Process

open Foundation

namespace Kernel

variable {k k' : Kernel}

theorem aipl_eq (h : k'.unscheduled = k.unscheduled) : k'.aipl = k.aipl :=
  of_unscheduled aipl (fun _ => rfl) h

theorem slotOf_pid {pid : ℤ} {p : Slot} (h : slotOf pid = some p) : pid = p.val := by
  unfold slotOf at h
  split_ifs at h with hpid
  cases h
  change pid = (pid.toNat : ℤ)
  omega

theorem freeStack_aipl {p : Slot} (h : k.freeStack p = some k') : k'.aipl = k.aipl := by
  rcases freeStack_eq h with ⟨-, rfl⟩ | ⟨-, r, -, hk⟩
  · rfl
  · rw [hk]

/-- A kill that finds its process releases the lock the process holds. -/
theorem procKill_aipl {pid : ℤ} (h : k.procKill pid = some k') :
    k' = k ∨ ∃ p, slotOf pid = some p ∧ p ≠ k.currpid ∧ k.state p ≠ .free ∧
      k'.aipl = (k.dropLockOf pid).aipl := by
  rcases procKill_cases h with ⟨rfl, -⟩ | ⟨p, k₁, k₂, hs, hp, hrem, hfree, rfl⟩
  · exact Or.inl rfl
  · obtain ⟨hpc, hpf⟩ := not_or.mp hp
    refine Or.inr ⟨p, hs, hpc, hpf, ?_⟩
    have h₁ := aipl_eq (readyRemoveLoop_unscheduled hrem)
    have h₂ := freeStack_aipl hfree
    calc (k₂.vacate p).aipl = k₂.aipl := rfl
      _ = (k₁.dropLockOf pid).aipl := h₂
      _ = (k.dropLockOf pid).aipl := by
        unfold dropLockOf
        rw [h₁]
        split_ifs
        · rfl
        · exact h₁

theorem procCreateArg_aipl {entry : ProcEntry} {n : ℕ} {name : List Char} {arg r : ℤ}
    (h : k.procCreateArg entry n name arg = some (r, k')) : k'.aipl = k.aipl := by
  rcases procCreateArg_cases h with ⟨-, -, rfl⟩ | ⟨p, k₁, stk, k₂, -, hreap, hget, hres⟩
  · rfl
  · have h₁ : k₁.aipl = k.aipl := by
      unfold reapStack at hreap
      split_ifs at hreap
      · cases hreap
        rfl
      · obtain ⟨k₀, hfree, rfl⟩ := Option.map_eq_some_iff.mp hreap
        have h₀ := freeStack_aipl hfree
        exact h₀
    have h₂ : k₂.aipl = k₁.aipl := by rw [(getmem_eq hget).2]
    rcases hres with ⟨-, -, rfl⟩ | ⟨-, -, rfl⟩
    · exact h₂.trans h₁
    · have h₃ := aipl_eq
        (readyPush_unscheduled (k₂.install p stk (stackSize n) entry name arg) p)
      exact (h₃.trans h₂).trans h₁

/-- A new process stands in the slot that `alloc_slot` finds. -/
theorem procCreateArg_slot {entry : ProcEntry} {n : ℕ} {name : List Char} {arg : ℤ} {p : Slot}
    (h : k.procCreateArg entry n name arg = some ((p.val : ℤ), k')) : k.allocSlot = some p := by
  rcases procCreateArg_cases h with ⟨-, hr, -⟩ | ⟨q, k₁, stk, k₂, halloc, -, -, hres⟩
  · omega
  · rcases hres with ⟨-, hr, -⟩ | ⟨-, hr, -⟩
    · omega
    · rw [halloc]
      exact congrArg some (Fin.ext (by omega))

end Kernel

namespace LockSys

/-- The process is in the loop of `aipl_lock`, after `n` failed rounds. -/
def Waiting (s : LockSys) (w : Slot) (n : ℕ) : Prop :=
  s.kernel.state w ≠ .free ∧ (s.ctl w).fails = some n

/-- No process has failed more often than a holder was switched out since it came. -/
def Paid (s : LockSys) : Prop := ∀ w n, s.Waiting w n → n ≤ s.outs w

/-- The steps that keep the watchdog honest. The null process is not switched out while
it has the lock; no holder is switched out `AIPL_SPIN_LIMIT` times while a process
waits; when the lock is taken or released from a process that cannot run, or such a
process can run again, nobody else has spent rounds on it; and the lock is not
released by force between the two sections of `aipl_relock`. -/
def Steady (s : LockSys) : LockOp → Prop
  | .resched =>
    (s.owner = (nullproc : Slot).val → s.kernel.currpid = nullproc → s.kernel.readyHead = none) ∧
      (s.SwitchesHolder → ∀ w n, s.Waiting w n → s.outs w + 1 < aiplSpinLimit)
  | .round => ¬ s.kernel.AiplOpen → (∃ n, s.cur.fails = some n ∧ aiplSpinLimit ≤ n) →
      ∀ w n, w ≠ s.kernel.currpid → s.Waiting w n → n ≤ s.outs w
  | .forceRelease => ∀ h : Slot, s.owner = h.val →
      (∀ saved, s.ctl h ≠ .restoring saved) ∧ (¬ s.Runnable h → s.Paid)
  | .kill pid => ∀ h : Slot, s.owner = h.val → pid = h.val → ¬ s.Runnable h → s.Paid
  | .wake p => s.owner = p.val → s.Paid
  | .create .. => ∀ p, s.kernel.allocSlot = some p → s.owner = p.val → s.Paid
  | _ => True

/-- Owner, depth and the callers of `aipl_relock` fit together. -/
structure Held (s : LockSys) : Prop where
  owner_slot : s.owner = -1 ∨ ∃ h : Slot, s.owner = h.val
  depth_nonneg : 0 ≤ s.depth
  depth_pos_iff : 0 < s.depth ↔ 0 ≤ s.owner
  restoring : ∀ p saved, s.ctl p = .restoring saved → s.kernel.state p ≠ .free →
    s.owner = p.val ∧ 0 < saved
  relocking : ∀ p saved n, s.ctl p = .relocking saved n → 0 < saved

/-- The invariant, over the scheduler that the kernel simulates. -/
structure Inv (s : LockSys) (a : Sched) : Prop extends Held s where
  sim : Simulates s.kernel a
  ok : a.Ok
  turns : Turns a s.owner s.ctl s.outs

section

variable {s s' : LockSys} {a : Sched}

theorem outside_eq {x : Option LockSys} (h : s.outside x = some s') :
    s.cur = .out ∧ x = some s' := by
  unfold outside at h
  split_ifs at h with hout
  exact ⟨hout, h⟩

/-- A step that leaves the lock alone, and moves nobody to the end of `aipl_relock`. -/
theorem Held.of_aipl (h : s.Held) (haipl : s'.kernel.aipl = s.kernel.aipl)
    (hctl : ∀ p, s'.ctl p ≠ s.ctl p →
      (∀ saved, s'.ctl p ≠ .restoring saved) ∧ ∀ saved n, s'.ctl p = .relocking saved n → 0 < saved)
    (hfree : ∀ p, s'.ctl p ≠ .out → s.kernel.state p = .free → s'.kernel.state p = .free) :
    s'.Held := by
  have howner : s'.owner = s.owner := by
    unfold owner
    rw [haipl]
  have hdepth : s'.depth = s.depth := by
    unfold depth
    rw [haipl]
  refine ⟨?_, ?_, ?_, fun p saved hp hst => ?_, fun p saved n hp => ?_⟩
  · rw [howner]
    exact h.owner_slot
  · rw [hdepth]
    exact h.depth_nonneg
  · rw [howner, hdepth]
    exact h.depth_pos_iff
  · rw [howner]
    by_cases hsame : s'.ctl p = s.ctl p
    · refine h.restoring p saved (hsame ▸ hp) fun hf => hst (hfree p ?_ hf)
      simp [hp]
    · exact absurd hp ((hctl p hsame).1 saved)
  · by_cases hsame : s'.ctl p = s.ctl p
    · exact h.relocking p saved n (hsame ▸ hp)
    · exact (hctl p hsame).2 saved n hp

theorem Inv.curr_eq (h : s.Inv a) : a.curr = s.kernel.currpid := h.sim.curr_eq.symm

theorem Inv.state_eq (h : s.Inv a) (p : Slot) : a.state p = s.kernel.state p :=
  (congrFun h.sim.state_eq p).symm

theorem Inv.waits_iff (h : s.Inv a) {w : Slot} {n : ℕ} : Waits a s.ctl w n ↔ s.Waiting w n := by
  unfold Waits Waiting
  rw [h.state_eq]

theorem Inv.runs_iff (h : s.Inv a) {p : Slot} : a.Runs p ↔ s.Runnable p := by
  unfold Sched.Runs Runnable
  rw [h.state_eq]

theorem Inv.cur_eq (h : s.Inv a) : s.ctl a.curr = s.cur := by rw [h.curr_eq, cur]

/-- A step that keeps the owner and is none of the calls with a promise of their own. -/
theorem SoundStep.of_owner_eq {op : LockOp} (ho : s'.owner = s.owner) (hu : op ≠ .unlock)
    (hua : op ≠ .unlockAll) (hr : op ≠ .restore) : s.SoundStep op s' where
  passes h := absurd ho h
  unlock_other h := absurd h hu
  unlock_all h := absurd h hua
  unlock_all_other h := absurd h hua
  restores h := absurd h hr
  watchdog _ _ _ h := absurd ho h

/-- The current process enters the loop. -/
theorem Inv.enter (h : s.Inv a) {c : LockCtl} (hc : c.fails = some 0)
    (hsaved : ∀ saved n, c = .relocking saved n → 0 < saved) : (s.enter c).Inv a where
  toHeld := by
    refine h.toHeld.of_aipl rfl (fun p hp => ?_) fun p _ hf => hf
    have hpc : p = s.kernel.currpid := by
      by_contra hne
      exact hp (Function.update_of_ne hne ..)
    have hself : (s.enter c).ctl p = c := by
      rw [hpc]
      exact Function.update_self ..
    rw [hself]
    refine ⟨?_, hsaved⟩
    rintro saved rfl
    cases hc
  sim := h.sim
  ok := h.ok
  turns := by
    have hgoto : Turns a s.owner (Function.update s.ctl a.curr c)
        (Function.update s.outs a.curr 0) := by
      refine h.turns.goto h.ok (fun n hn => ?_) fun q hq => Function.update_of_ne hq ..
      rw [hc] at hn
      cases hn
      exact ⟨rfl, Function.update_self ..⟩
    rw [h.curr_eq] at hgoto
    exact hgoto

/-- The lock is free again, and nobody is about to restore its depth. -/
theorem Inv.release (h : s.Inv a) {l : AiplLock} (ho : l.owner = -1) (hd : l.depth = 0)
    (hrest : ∀ p saved, s.ctl p = .restoring saved → s.kernel.state p = .free)
    (hfew : ∀ w n, s.Waiting w n → n ≤ s.outs w + 1) :
    Inv { s with kernel := { s.kernel with aipl := l } } a where
  owner_slot := Or.inl ho
  depth_nonneg := by
    change 0 ≤ l.depth
    omega
  depth_pos_iff := by
    change 0 < l.depth ↔ 0 ≤ l.owner
    omega
  restoring p saved hp hst := absurd (hrest p saved hp) hst
  relocking := h.relocking
  sim := h.sim.congr rfl rfl rfl rfl
  ok := h.ok
  turns := by
    refine h.turns.handOver (Or.inl ?_) fun w n hw => hfew w n (h.waits_iff.mp hw)
    change l.owner < 0
    omega

/-- The current process has the lock after a round. -/
theorem Inv.take (h : s.Inv a) {l : AiplLock}
    (ho : l.owner = s.kernel.currpid.val) (hd : 0 < l.depth)
    (hrest : ∀ p, p ≠ s.kernel.currpid → ∀ saved, s.ctl p = .restoring saved →
      s.kernel.state p = .free)
    (hfew : ∀ w n, w ≠ s.kernel.currpid → s.Waiting w n → n ≤ s.outs w + 1) :
    Inv { s.goto s.cur.taken with kernel := { s.kernel with aipl := l } } a where
  owner_slot := Or.inr ⟨_, ho⟩
  depth_nonneg := hd.le
  depth_pos_iff := by
    change 0 < l.depth ↔ 0 ≤ l.owner
    omega
  restoring p saved hp hst := by
    by_cases hpc : p = s.kernel.currpid
    · subst hpc
      refine ⟨ho, ?_⟩
      simp only [LockSys.goto, Function.update_self] at hp
      cases hcur : s.cur with
      | out => simp [hcur, LockCtl.taken] at hp
      | locking m => simp [hcur, LockCtl.taken] at hp
      | relocking v m =>
        have hv := h.relocking _ v m hcur
        simp only [hcur, LockCtl.taken, LockCtl.restoring.injEq] at hp
        omega
      | restoring v => simp [hcur, LockCtl.taken] at hp
    · simp only [LockSys.goto, Function.update_of_ne hpc] at hp
      exact absurd (hrest p hpc saved hp) hst
  relocking p saved m hp := by
    by_cases hpc : p = s.kernel.currpid
    · subst hpc
      simp only [LockSys.goto, Function.update_self] at hp
      cases hcur : s.cur <;> simp [hcur, LockCtl.taken] at hp
    · simp only [LockSys.goto, Function.update_of_ne hpc] at hp
      exact h.relocking p saved m hp
  sim := h.sim.congr rfl rfl rfl rfl
  ok := h.ok
  turns := by
    have hnone : s.cur.taken.fails = none := by cases s.cur <;> rfl
    have hgoto : Turns a s.owner (Function.update s.ctl a.curr s.cur.taken) s.outs := by
      refine h.turns.goto h.ok (fun m hm => ?_) fun _ _ => rfl
      rw [hnone] at hm
      cases hm
    rw [h.curr_eq] at hgoto
    refine hgoto.handOver (Or.inr (ho.trans (by rw [h.curr_eq]))) fun w m hw => ?_
    by_cases hwc : w = s.kernel.currpid
    · subst hwc
      have hm := hw.2
      rw [Function.update_self, hnone] at hm
      cases hm
    · refine hfew w m hwc ⟨?_, ?_⟩
      · rw [← h.state_eq]
        exact hw.1
      · have hm := hw.2
        rw [Function.update_of_ne hwc] at hm
        exact hm

/-- The depth of a held lock changes. -/
theorem Inv.setDepth (h : s.Inv a) {d : ℤ} (ho : 0 ≤ s.owner) (hd : 0 < d) :
    Inv { s with kernel := { s.kernel with aipl.depth := d } } a where
  owner_slot := h.owner_slot
  depth_nonneg := hd.le
  depth_pos_iff := ⟨fun _ => ho, fun _ => hd⟩
  restoring := h.restoring
  relocking := h.relocking
  sim := h.sim.congr rfl rfl rfl rfl
  ok := h.ok
  turns := h.turns

/-- The failed rounds are few unless the holder cannot run. -/
theorem Inv.few (h : s.Inv a) (hr : ∀ p : Slot, s.owner = p.val → ¬ s.Runnable p → s.Paid)
    {w : Slot} {n : ℕ} (hw : s.Waiting w n) : n ≤ s.outs w + 1 := by
  by_cases hall : ∀ p : Slot, s.owner = p.val → a.Runs p
  · exact h.turns.few hall w n (h.waits_iff.mpr hw)
  · push Not at hall
    obtain ⟨p, ho, hnot⟩ := hall
    have := hr p ho (fun hrun => hnot (h.runs_iff.mpr hrun)) w n hw
    omega

theorem Inv.runnable_currpid (h : s.Inv a) : s.Runnable s.kernel.currpid := by
  rw [← h.runs_iff, ← h.curr_eq]
  exact Or.inr h.ok.curr_state

/-- The process that is about to restore the depth is the holder and can run. -/
theorem Inv.restoring_free (h : s.Inv a) {p : Slot} {saved : ℤ} (hp : s.ctl p = .restoring saved)
    (ho : s.owner ≠ p.val) : s.kernel.state p = .free := by
  by_contra hst
  exact ho (h.restoring p saved hp hst).1

/-- What a step under the condition does. -/
def Keeps (s : LockSys) (op : LockOp) (s' : LockSys) : Prop :=
  (∃ a', s'.Inv a') ∧ s.SoundStep op s'

/-- A step that leaves the lock alone. -/
theorem Keeps.of_aipl {op : LockOp} {a' : Sched} (h : s'.Inv a')
    (haipl : s'.kernel.aipl = s.kernel.aipl) (hu : op ≠ .unlock) (hua : op ≠ .unlockAll)
    (hr : op ≠ .restore) : s.Keeps op s' := by
  refine ⟨⟨a', h⟩, .of_owner_eq ?_ hu hua hr⟩
  unfold owner
  rw [haipl]

theorem Inv.lock_keeps (h : s.Inv a) (hstep : s.step .lock = some s') : s.Keeps .lock s' := by
  obtain ⟨-, heq⟩ := outside_eq hstep
  cases heq
  exact .of_aipl (h.enter rfl (by simp)) rfl (by simp) (by simp) (by simp)

theorem Inv.relock_keeps (h : s.Inv a) {saved : ℤ} (hstep : s.step (.relock saved) = some s') :
    s.Keeps (.relock saved) s' := by
  obtain ⟨-, heq⟩ := outside_eq hstep
  split_ifs at heq with hsaved
  · cases heq
    exact .of_aipl h rfl (by simp) (by simp) (by simp)
  · cases heq
    refine .of_aipl (h.enter rfl ?_) rfl (by simp) (by simp) (by simp)
    rintro v n ⟨⟩
    omega

/-- The watchdog of a waiting process fires only when the holder cannot run. -/
theorem Inv.not_runnable_of_limit (h : s.Inv a) (hopen : ¬ s.kernel.AiplOpen) {n : ℕ}
    (hn : s.cur.fails = some n) (hlimit : aiplSpinLimit ≤ n) {p : Slot} (ho : s.owner = p.val) :
    ¬ s.Runnable p := by
  intro hr
  have hne : p ≠ a.curr := by
    rintro rfl
    refine hopen (Or.inr (ho.trans ?_))
    rw [h.curr_eq]
  have hw : Waits a s.ctl a.curr n := by
    refine ⟨?_, ?_⟩
    · rw [h.ok.curr_state]
      decide
    · rw [h.cur_eq]
      exact hn
  have hle := h.turns.le_outs_of_curr ho (h.runs_iff.mpr hr) hne hw
  have hlt := h.turns.bounded _ n hw
  omega

theorem Inv.round_keeps (h : s.Inv a) (hsteady : s.Steady .round)
    (hstep : s.step .round = some s') : s.Keeps .round s' := by
  obtain ⟨n, hn, heq⟩ := Option.map_eq_some_iff.mp hstep
  have hcurr : ∀ p : Slot, p ≠ s.kernel.currpid → s.owner = s.kernel.currpid.val →
      s.owner ≠ p.val := by
    intro p hp ho heq
    exact hp (Fin.ext (by omega))
  unfold Kernel.aiplRound at heq
  split_ifs at heq with hopen hlimit
  · -- the lock is free, or the caller has it
    subst heq
    have hrest : ∀ p, p ≠ s.kernel.currpid → ∀ saved, s.ctl p = .restoring saved →
        s.kernel.state p = .free := by
      intro p hp saved hps
      refine h.restoring_free hps ?_
      rcases hopen with hfree | hown
      · change s.owner < 0 at hfree
        omega
      · exact hcurr p hp hown
    have hfew : ∀ w n, w ≠ s.kernel.currpid → s.Waiting w n → n ≤ s.outs w + 1 := by
      intro w m _ hw
      refine h.turns.few_of_open h.ok ?_ w m (h.waits_iff.mpr hw)
      rw [h.curr_eq]
      exact hopen
    have hdepth := h.depth_nonneg
    refine ⟨⟨a, h.take rfl ?_ hrest hfew⟩, ?_⟩
    · change 0 < s.depth + 1
      omega
    · refine ⟨fun hne => Or.inl ⟨rfl, ?_, rfl⟩, by simp, by simp, by simp, by simp, ?_⟩
      · exact hopen.resolve_right fun hown => hne hown.symm
      · intro _ p ho hne
        refine absurd ?_ hne
        rcases hopen with hfree | hown
        · change s.owner < 0 at hfree
          omega
        · exact hown.symm
  · -- the watchdog takes it
    subst heq
    have hlim : aiplSpinLimit ≤ n := by omega
    have hstuck : ∀ p : Slot, s.owner = p.val → ¬ s.Runnable p :=
      fun p => h.not_runnable_of_limit hopen hn hlim
    have hrest : ∀ p, p ≠ s.kernel.currpid → ∀ saved, s.ctl p = .restoring saved →
        s.kernel.state p = .free := by
      intro p _ saved hps
      by_contra hst
      have ho := (h.restoring p saved hps hst).1
      have hruns := (h.turns.runs p (by simp [hps])).resolve_left (by rw [h.state_eq]; exact hst)
      exact hstuck p ho (h.runs_iff.mp hruns)
    refine ⟨⟨a, h.take rfl one_pos hrest fun w m hw hm => ?_⟩, ?_⟩
    · have := hsteady hopen ⟨n, hn, hlim⟩ w m hw hm
      omega
    · refine ⟨fun _ => Or.inr (Or.inr (Or.inr ⟨rfl, ⟨n, hn, hlim⟩, rfl⟩)), by simp, by simp,
        by simp, by simp, ?_⟩
      exact fun _ p ho _ => hstuck p ho
  · -- another round has failed
    subst heq
    have hown : ∃ p : Slot, s.owner = p.val := by
      refine h.owner_slot.resolve_left fun hneg => hopen (Or.inl ?_)
      change s.owner < 0
      omega
    have hne : s.owner ≠ a.curr.val := by
      rw [h.curr_eq]
      exact fun heq => hopen (Or.inr heq)
    have hfailed : s.cur.failed.fails = some (n + 1) := by
      cases hcur : s.cur <;> simp_all [LockCtl.fails, LockCtl.failed]
    have hw : Waits a s.ctl a.curr n := by
      refine ⟨?_, ?_⟩
      · rw [h.ok.curr_state]
        decide
      · rw [h.cur_eq]
        exact hn
    have hsim : Simulates s.kernel.procYield a.resched := h.sim.procResched h.ok
    have haipl : s.kernel.procYield.aipl = s.kernel.aipl :=
      Kernel.aipl_eq (Kernel.procResched_unscheduled s.kernel)
    have hturns := h.turns.failed h.ok hown hne hw hfailed
    rw [h.curr_eq] at hturns
    have hheld : Held { s.goto s.cur.failed with kernel := s.kernel.procYield } := by
      refine h.toHeld.of_aipl haipl (fun p hp => ?_) fun p _ hf => ?_
      · have hpc : p = s.kernel.currpid := by
          by_contra hpc
          exact hp (Function.update_of_ne hpc ..)
        subst hpc
        have hself : (s.goto s.cur.failed).ctl s.kernel.currpid = s.cur.failed :=
          Function.update_self ..
        constructor
        · intro saved hr
          rw [hself] at hr
          rw [hr] at hfailed
          cases hfailed
        · intro saved m hr
          rw [hself] at hr
          cases hcur : s.cur with
          | relocking v k =>
            have hv := h.relocking _ v k hcur
            simp only [hcur, LockCtl.failed, LockCtl.relocking.injEq] at hr
            omega
          | _ => simp [hcur, LockCtl.failed] at hr
      · have hf' : a.state p = .free := (h.state_eq p).trans hf
        exact (congrFun hsim.state_eq p).trans ((Turns.free_resched h.ok p).mpr hf')
    have hinv : Inv { s.goto s.cur.failed with kernel := s.kernel.procYield } a.resched := by
      refine ⟨hheld, hsim, h.ok.resched, ?_⟩
      change Turns a.resched s.kernel.procYield.aipl.owner _ _
      rw [haipl]
      exact hturns
    exact .of_aipl hinv haipl (by simp) (by simp) (by simp)

/-- A holder outside the code of the lock: nobody is about to restore its depth. -/
theorem Inv.restoring_free_of_out (h : s.Inv a) (hout : s.cur = .out)
    (ho : s.owner = s.kernel.currpid.val) {p : Slot} {saved : ℤ}
    (hp : s.ctl p = .restoring saved) : s.kernel.state p = .free := by
  refine h.restoring_free hp fun heq => ?_
  have hpc : p = s.kernel.currpid := Fin.ext (by omega)
  rw [hpc] at hp
  exact absurd (hout.symm.trans hp) (by simp)

theorem Inv.few_of_holder (h : s.Inv a) (ho : s.owner = s.kernel.currpid.val) (w : Slot) (n : ℕ)
    (hw : s.Waiting w n) : n ≤ s.outs w + 1 := by
  refine h.turns.few_of_open h.ok (Or.inr ?_) w n (h.waits_iff.mpr hw)
  rw [h.curr_eq]
  exact ho

theorem Inv.unlock_keeps (h : s.Inv a) (hstep : s.step .unlock = some s') :
    s.Keeps .unlock s' := by
  obtain ⟨hout, heq⟩ := outside_eq hstep
  unfold Kernel.aiplUnlock at heq
  split_ifs at heq with hown hlast
  · cases heq
    refine ⟨⟨a, h.release rfl rfl (fun p saved => h.restoring_free_of_out hout hown)
      (h.few_of_holder hown)⟩, ?_, ?_, by simp, by simp, by simp, by simp⟩
    · intro _
      refine Or.inr (Or.inl ⟨Or.inl ⟨rfl, ?_⟩, hown, rfl⟩)
      unfold depth
      omega
    · exact fun _ hne => absurd hown hne
  · cases heq
    refine ⟨⟨a, h.setDepth ?_ (by omega)⟩, fun hne => absurd rfl hne, fun _ hne => absurd hown hne,
      by simp, by simp, by simp, by simp⟩
    change s.kernel.aipl.owner ≥ 0
    omega
  · cases heq
    exact ⟨⟨a, h⟩, fun hne => absurd rfl hne, fun _ _ => rfl, by simp, by simp, by simp, by simp⟩

theorem Inv.unlockAll_keeps (h : s.Inv a) (hstep : s.step .unlockAll = some s') :
    s.Keeps .unlockAll s' := by
  obtain ⟨hout, heq⟩ := outside_eq hstep
  cases heq
  by_cases hown : s.owner = s.kernel.currpid.val
  · have hall : s.kernel.aiplUnlockAll =
        ({ s.kernel with aipl.owner := -1, aipl.depth := 0 }, s.depth) := if_pos hown
    rw [hall]
    refine ⟨⟨a, h.release rfl rfl (fun p saved => h.restoring_free_of_out hout hown)
      (h.few_of_holder hown)⟩, ?_, by simp, ?_, ?_, by simp, by simp⟩
    · exact fun _ => Or.inr (Or.inl ⟨Or.inr rfl, hown, rfl⟩)
    · intro _ _
      rw [hall]
      exact ⟨rfl, rfl, rfl⟩
    · exact fun _ hne => absurd hown hne
  · have hall : s.kernel.aiplUnlockAll = (s.kernel, 0) := if_neg hown
    rw [hall]
    refine ⟨⟨a, h⟩, fun hne => absurd rfl hne, by simp, fun _ ho => absurd ho hown, ?_, by simp,
      by simp⟩
    intro _ _
    rw [hall]
    exact ⟨rfl, rfl⟩

theorem Inv.restore_keeps (h : s.Inv a) (hstep : s.step .restore = some s') :
    s.Keeps .restore s' := by
  simp only [step] at hstep
  cases hcur : s.cur with
  | restoring saved =>
    simp only [hcur, Option.some.injEq] at hstep
    subst hstep
    have hst : s.kernel.state s.kernel.currpid ≠ .free := by
      rcases h.runnable_currpid with hr | hr <;> simp [hr]
    obtain ⟨ho, hpos⟩ := h.restoring _ saved hcur hst
    have hturns : Turns a s.owner (Function.update s.ctl a.curr .out) s.outs := by
      refine h.turns.goto h.ok (fun m hm => ?_) fun _ _ => rfl
      cases hm
    rw [h.curr_eq] at hturns
    have hheld : (s.goto .out).Held := by
      refine h.toHeld.of_aipl rfl (fun p hp => ?_) fun _ _ hf => hf
      have hpc : p = s.kernel.currpid := by
        by_contra hne
        exact hp (Function.update_of_ne hne ..)
      have hself : (s.goto .out).ctl p = .out := by
        rw [hpc]
        exact Function.update_self ..
      simp [hself]
    have hinv : (s.goto .out).Inv a := ⟨hheld, h.sim, h.ok, hturns⟩
    refine ⟨⟨a, hinv.setDepth ?_ hpos⟩, fun hne => absurd rfl hne, by simp, by simp, by simp, ?_,
      by simp⟩
    · change 0 ≤ s.owner
      omega
    · rintro _ v hv
      rw [hcur] at hv
      cases hv
      exact ⟨ho, rfl⟩
  | _ => simp [hcur] at hstep

theorem Inv.forceRelease_keeps (h : s.Inv a) (hsteady : s.Steady .forceRelease)
    (hstep : s.step .forceRelease = some s') : s.Keeps .forceRelease s' := by
  obtain ⟨-, heq⟩ := outside_eq hstep
  cases heq
  refine ⟨⟨a, h.release rfl rfl (fun p saved hp => ?_) fun w n hw => ?_⟩, ?_⟩
  · by_contra hst
    have ho := (h.restoring p saved hp hst).1
    exact (hsteady p ho).1 saved hp
  · exact h.few (fun p ho => (hsteady p ho).2) hw
  · exact ⟨fun _ => Or.inr (Or.inr (Or.inl ⟨Or.inr rfl, rfl⟩)), by simp, by simp, by simp, by simp,
      by simp⟩

theorem Inv.kill_keeps (h : s.Inv a) {pid : ℤ} (hsteady : s.Steady (.kill pid))
    (hstep : s.step (.kill pid) = some s') : s.Keeps (.kill pid) s' := by
  obtain ⟨-, heq⟩ := outside_eq hstep
  obtain ⟨k, hk, rfl⟩ := Option.map_eq_some_iff.mp heq
  rcases Kernel.procKill_aipl hk with rfl | ⟨p, hs, hpc, hst, haipl⟩
  · exact .of_aipl h rfl (by simp) (by simp) (by simp)
  · have hp0 := Kernel.slotOf_ne_null hs
    have hpid : pid = p.val := Kernel.slotOf_pid hs
    have hsim := h.sim.procKill hk
    rw [hs] at hsim
    have hturns := h.turns.kill hp0 (by rw [h.curr_eq]; exact hpc) (by rw [h.state_eq]; exact hst)
      fun ho hnot w n hw => hsteady p ho hpid (fun hr => hnot (h.runs_iff.mpr hr)) w n
        (h.waits_iff.mp hw)
    have hown : k.aipl.owner = if s.owner = p.val then -1 else s.owner := by
      rw [haipl, hpid]
      unfold Kernel.dropLockOf owner
      split_ifs <;> rfl
    have hdep : k.aipl.depth = if s.owner = p.val then 0 else s.depth := by
      rw [haipl, hpid]
      unfold Kernel.dropLockOf owner
      split_ifs <;> rfl
    have hfree : ∀ q, k.state q ≠ .free → q ≠ p ∧ s.kernel.state q ≠ .free := by
      intro q hq
      rw [hsim.state_eq] at hq
      have hkill : (a.kill p).state = Function.update a.state p .free := by
        unfold Sched.kill
        rw [if_neg]
        rw [h.curr_eq, h.state_eq]
        tauto
      simp only [Option.elim, hkill] at hq
      have hqp : q ≠ p := by
        rintro rfl
        simp at hq
      rw [Function.update_of_ne hqp, h.state_eq] at hq
      exact ⟨hqp, hq⟩
    have hheld : Held { s with kernel := k } := by
      have hslot := h.owner_slot
      have hnn := h.depth_nonneg
      have hiff := h.depth_pos_iff
      refine ⟨?_, ?_, ?_, fun q saved hq hst' => ?_, h.relocking⟩
      · change k.aipl.owner = -1 ∨ ∃ g : Slot, k.aipl.owner = g.val
        rw [hown]
        split_ifs
        · exact Or.inl rfl
        · exact hslot
      · change 0 ≤ k.aipl.depth
        rw [hdep]
        split_ifs <;> omega
      · change 0 < k.aipl.depth ↔ 0 ≤ k.aipl.owner
        rw [hdep, hown]
        split_ifs
        · decide
        · exact hiff
      · obtain ⟨hqp, hq'⟩ := hfree q hst'
        obtain ⟨ho, hpos⟩ := h.restoring q saved hq hq'
        refine ⟨?_, hpos⟩
        change k.aipl.owner = q.val
        rw [hown, if_neg]
        · exact ho
        · intro ho'
          exact hqp (Fin.ext (by omega))
    refine ⟨⟨a.kill p, hheld, hsim, h.ok.kill, ?_⟩, ?_, by simp, by simp, by simp, by simp,
      by simp⟩
    · change Turns (a.kill p) k.aipl.owner s.ctl s.outs
      rw [hown]
      exact hturns
    · intro hne
      change k.aipl.owner ≠ s.owner at hne
      rw [hown] at hne
      split_ifs at hne with ho
      · refine Or.inr (Or.inr (Or.inl ⟨Or.inl ?_, ?_⟩))
        · rw [ho, hpid]
        · change k.aipl.owner = -1
          rw [hown, if_pos ho]
      · exact absurd rfl hne

/-- A scheduling call: the lock and the places stay, and no slot comes back to life. -/
theorem Inv.sched_keeps (h : s.Inv a) {op : LockOp} {k : Kernel} {a' : Sched} {outs' : Slot → ℕ}
    (haipl : k.aipl = s.kernel.aipl) (hsim : Simulates k a') (hok : a'.Ok)
    (hturns : Turns a' s.owner s.ctl outs')
    (hfree : ∀ p, s.ctl p ≠ .out → a.state p = .free → a'.state p = .free)
    (hu : op ≠ .unlock) (hua : op ≠ .unlockAll) (hr : op ≠ .restore) :
    s.Keeps op { s with kernel := k, outs := outs' } := by
  have hheld : Held { s with kernel := k, outs := outs' } := by
    refine h.toHeld.of_aipl haipl (fun p hp => absurd rfl hp) fun p hp hf => ?_
    exact (congrFun hsim.state_eq p).trans (hfree p hp ((h.state_eq p).trans hf))
  have hinv : Inv { s with kernel := k, outs := outs' } a' := by
    refine ⟨hheld, hsim, hok, ?_⟩
    change Turns a' k.aipl.owner s.ctl outs'
    rw [haipl]
    exact hturns
  exact .of_aipl hinv haipl hu hua hr

theorem Inv.resched_keeps (h : s.Inv a) (hsteady : s.Steady .resched)
    (hstep : s.step .resched = some s') : s.Keeps .resched s' := by
  cases hstep
  have haipl := Kernel.aipl_eq (Kernel.procResched_unscheduled s.kernel)
  have hsim := h.sim.procResched h.ok
  have hfree : ∀ p, s.ctl p ≠ .out → a.state p = .free → a.resched.state p = .free :=
    fun p _ => (Turns.free_resched h.ok p).mpr
  by_cases hown : s.owner = s.kernel.currpid.val
  · by_cases hready : s.kernel.readyHead = none
    · -- nobody else is ready
      have hsame : a.resched = a := by
        have hnil : a.ready = [] := by
          cases hl : a.ready with
          | nil => rfl
          | cons x l =>
            have hchain := h.sim.chain
            rw [hl, hready] at hchain
            exact absurd hchain.1 (by simp)
        unfold Sched.resched
        rw [hnil]
      rw [if_neg (fun hsw => hsw.2 hready)]
      rw [hsame] at hsim hfree
      exact h.sched_keeps haipl hsim h.ok h.turns hfree (by simp) (by simp) (by simp)
    · rw [if_pos ⟨hown, hready⟩]
      refine h.sched_keeps haipl hsim h.ok.resched ?_ hfree (by simp) (by simp) (by simp)
      refine h.turns.resched_holder h.ok ?_ ?_ fun w n hw => ?_
      · rw [h.curr_eq]
        exact hown
      · intro hnull
        rw [h.curr_eq] at hnull
        exact hready (hsteady.1 (hnull ▸ hown) hnull)
      · exact hsteady.2 ⟨hown, hready⟩ w n (h.waits_iff.mp hw)
  · rw [if_neg (fun hsw => hown hsw.1)]
    refine h.sched_keeps haipl hsim h.ok.resched (h.turns.resched h.ok ?_) hfree (by simp) (by simp)
      (by simp)
    rw [h.curr_eq]
    exact hown

/-- No slot comes back to life when the current process stops. -/
theorem Inv.free_of_dispatch (h : s.Inv a) {st : ProcState} {p : Slot} (hp : s.ctl p ≠ .out)
    (hf : a.state p = .free)
    (hst : st = .wait ∨ st = .free) :
    (Sched.dispatch { a with state := Function.update a.state a.curr st }).state p = .free := by
  have hq := h.ok.toQueued.drop a.curr st (by rcases hst with rfl | rfl <;> decide)
  rw [List.erase_of_not_mem h.ok.curr_notMem] at hq
  have hpc : p ≠ a.curr := by
    rintro rfl
    rw [h.ok.curr_state] at hf
    cases hf
  rcases Sched.dispatch_state hq p with heq | ⟨-, hready | hnull⟩
  · rw [heq]
    simpa [hpc] using hf
  · simp [hpc, hf] at hready
  · rw [hnull] at hf
    exact absurd hf h.turns.null_alive

theorem Inv.block_keeps (h : s.Inv a) (hstep : s.step .block = some s') : s.Keeps .block s' := by
  obtain ⟨hout, heq⟩ := outside_eq hstep
  cases heq
  have haipl := Kernel.aipl_eq (Kernel.procBlock_unscheduled s.kernel)
  refine h.sched_keeps haipl h.sim.procBlock h.ok.block ?_ ?_ (by simp) (by simp) (by simp)
  · refine h.turns.dispatch h.ok ?_ (Or.inl rfl)
    rw [h.cur_eq]
    exact hout
  · exact fun p hp hf => h.free_of_dispatch hp hf (Or.inl rfl)

theorem Inv.exit_keeps (h : s.Inv a) (hstep : s.step .exit = some s') : s.Keeps .exit s' := by
  simp only [step] at hstep
  split_ifs at hstep with hnull
  obtain ⟨hout, heq⟩ := outside_eq hstep
  obtain ⟨k, hk, rfl⟩ := Option.map_eq_some_iff.mp heq
  obtain ⟨k', hk', hsim⟩ := h.sim.procExit
  obtain rfl : k' = k := Option.some.inj (hk'.symm.trans hk)
  have haipl := Kernel.aipl_eq (Kernel.procExit_unscheduled hk)
  have hexit : a.exit =
      Sched.dispatch { a with state := Function.update a.state a.curr .free } := by
    unfold Sched.exit
    rw [List.erase_of_not_mem h.ok.curr_notMem]
  have hok := h.ok.exit
  rw [hexit] at hsim hok
  refine h.sched_keeps haipl hsim hok ?_ ?_ (by simp) (by simp) (by simp)
  · refine h.turns.dispatch h.ok ?_ (Or.inr ⟨rfl, ?_⟩)
    · rw [h.cur_eq]
      exact hout
    · rw [h.curr_eq]
      exact hnull
  · exact fun p hp hf => h.free_of_dispatch hp hf (Or.inr rfl)

theorem Inv.wake_keeps (h : s.Inv a) {p : Slot} (hsteady : s.Steady (.wake p))
    (hstep : s.step (.wake p) = some s') : s.Keeps (.wake p) s' := by
  simp only [step] at hstep
  split_ifs at hstep with hwait
  cases hstep
  have haipl := Kernel.aipl_eq (Kernel.procReady_unscheduled s.kernel p.val)
  have hsim := h.sim.procReady h.ok p.val
  by_cases hp : p = nullproc
  · have hnone : Kernel.slotOf (p.val : ℤ) = none := by
      rw [hp]
      rfl
    rw [hnone] at hsim
    exact h.sched_keeps haipl hsim h.ok h.turns (fun _ _ hf => hf) (by simp) (by simp) (by simp)
  · have hst : a.state p = .wait := (h.state_eq p).trans hwait
    have hstop : ¬ a.Runs p := by
      unfold Sched.Runs
      simp [hst]
    have hout : s.ctl p = .out := by
      by_contra hne
      rcases h.turns.runs p hne with hf | hr
      · simp [hst] at hf
      · exact hstop hr
    have hwake : a.wake p = a.enroll p := if_neg hstop
    have hok := h.ok.wake hp
    rw [Kernel.slotOf_val p hp] at hsim
    simp only [Option.elim] at hsim
    rw [hwake] at hsim hok
    refine h.sched_keeps haipl hsim hok ?_ (fun q hq hf => ?_) (by simp) (by simp) (by simp)
    · refine h.turns.enroll h.ok hp hstop hout (fun _ _ => rfl) fun ho w n hw => ?_
      exact hsteady ho w n (h.waits_iff.mp hw)
    · have hqp : q ≠ p := by
        rintro rfl
        exact hq hout
      exact (Function.update_of_ne hqp ..).trans hf

theorem Inv.create_keeps (h : s.Inv a) {addr n : ℕ} {name : List Char} {arg : ℤ}
    (hsteady : s.Steady (.create addr n name arg))
    (hstep : s.step (.create addr n name arg) = some s') :
    s.Keeps (.create addr n name arg) s' := by
  obtain ⟨-, heq⟩ := outside_eq hstep
  obtain ⟨⟨r, k⟩, hk, heq⟩ := Option.bind_eq_some_iff.mp heq
  have haipl := Kernel.procCreateArg_aipl hk
  rcases h.sim.procCreateArg h.ok hk with ⟨rfl, hsim⟩ | ⟨p, hp0, hpf, rfl, hsim⟩
  · cases heq
    exact h.sched_keeps haipl hsim h.ok h.turns (fun _ _ hf => hf) (by simp) (by simp) (by simp)
  · simp only [Kernel.slotOf_val p hp0] at heq
    cases heq
    have hctl : ∀ q, q ≠ p → Function.update s.ctl p .out q = s.ctl q :=
      fun q hq => Function.update_of_ne hq ..
    have hself : Function.update s.ctl p .out p = .out := Function.update_self ..
    have hstop : ¬ a.Runs p := by
      unfold Sched.Runs
      simp [hpf]
    have hturns := h.turns.enroll h.ok hp0 hstop hself hctl fun ho w m hw =>
      hsteady p (Kernel.procCreateArg_slot hk) ho w m (h.waits_iff.mp hw)
    have hheld : Held { s with kernel := k, ctl := Function.update s.ctl p .out } := by
      refine h.toHeld.of_aipl haipl (fun q hq => ?_) fun q hq hf => ?_
      · have hqp : q = p := by
          by_contra hne
          exact hq (hctl q hne)
        subst hqp
        simp
      · have hqp : q ≠ p := by
          rintro rfl
          exact hq hself
        refine (congrFun hsim.state_eq q).trans ?_
        exact (Function.update_of_ne hqp ..).trans ((h.state_eq q).trans hf)
    have hinv : Inv { s with kernel := k, ctl := Function.update s.ctl p .out } (a.enroll p) := by
      refine ⟨hheld, hsim, h.ok.enroll hp0 hpf, ?_⟩
      change Turns (a.enroll p) k.aipl.owner _ _
      rw [haipl]
      exact hturns
    exact .of_aipl hinv haipl (by simp) (by simp) (by simp)

/-- One step under the condition. -/
theorem Inv.keeps (h : s.Inv a) {op : LockOp} (hsteady : s.Steady op)
    (hstep : s.step op = some s') : s.Keeps op s' := by
  cases op with
  | lock => exact h.lock_keeps hstep
  | round => exact h.round_keeps hsteady hstep
  | unlock => exact h.unlock_keeps hstep
  | unlockAll => exact h.unlockAll_keeps hstep
  | relock saved => exact h.relock_keeps hstep
  | restore => exact h.restore_keeps hstep
  | forceRelease => exact h.forceRelease_keeps hsteady hstep
  | kill pid => exact h.kill_keeps hsteady hstep
  | resched => exact h.resched_keeps hsteady hstep
  | block => exact h.block_keeps hstep
  | wake p => exact h.wake_keeps hsteady hstep
  | create addr n name arg => exact h.create_keeps hsteady hstep
  | exit => exact h.exit_keeps hstep

theorem init_inv (lo hi : ℕ) : ∃ a, (init lo hi).Inv a := by
  have hstate : ∀ p, (init lo hi).kernel.state p = if p = nullproc then .curr else .free :=
    Kernel.procInit_state _
  obtain ⟨a, hsim, hok⟩ := Kernel.procInit_scheduled (Kernel.boot lo hi)
  have ha : ∀ p, a.state p = if p = nullproc then .curr else .free := by
    intro p
    rw [← hsim.state_eq]
    exact hstate p
  have hcurr : a.curr = nullproc := hsim.curr_eq.symm
  have hheld : (init lo hi).Held := by
    refine ⟨Or.inl rfl, le_rfl, ?_, ?_, ?_⟩
    · change (0 : ℤ) < 0 ↔ (0 : ℤ) ≤ -1
      decide
    · intro p saved hp
      cases hp
    · intro p saved n hp
      cases hp
  have hnone : ∀ w n, ¬ Waits a (init lo hi).ctl w n := fun w n hw => hw.ne_out rfl
  refine ⟨a, hheld, hsim, hok, fun p hp => ?_, ?_, fun p hp => absurd rfl hp, fun _ _ => hcurr,
    fun w n hw => absurd hw (hnone w n), fun _ w n hw => absurd hw (hnone w n),
    fun _ _ _ w n hw => absurd hw (hnone w n)⟩
  · rw [ha] at hp
    split_ifs at hp with hn
    exact Or.inr hn
  · rw [ha, if_pos rfl]
    decide

/-- In every run under the condition the lock is sound in every state. -/
theorem lock_sound {lo hi : ℕ} (h : Reachable step Steady (init lo hi) s) :
    s.LockSound Steady := by
  have hinv : ∃ a, s.Inv a := by
    refine h.invariant (fun s => ∃ a, s.Inv a) (init_inv lo hi) ?_
    rintro s op s' ⟨a, ha⟩ hop hstep
    exact (ha.keeps hop hstep).1
  obtain ⟨a, ha⟩ := hinv
  exact ⟨ha.depth_pos_iff, fun op s' hop hstep => (ha.keeps hop hstep).2⟩

theorem lock_sound_taken :
    ∃ s, exec step (init 4096 65536) [.create 0 4096 [] 0, .resched, .lock, .round] = some s ∧
      s.owner = 1 ∧ s.LockSound Steady := by
  have hrun : (exec step (init 4096 65536) [.create 0 4096 [] 0, .resched, .lock, .round]).map
      owner = some 1 := by decide
  obtain ⟨s, hs, ho⟩ := Option.map_eq_some_iff.mp hrun
  refine ⟨s, hs, ho, lock_sound (.exec .start ?_ hs)⟩
  have hfree : (exec step (init 4096 65536) [.create 0 4096 [] 0]).map owner = some (-1) := by
    decide
  have hopen : (exec step (init 4096 65536) [.create 0 4096 [] 0, .resched, .lock]).map owner =
      some (-1) := by decide
  refine ⟨fun p _ ho => absurd ho (by simp [owner, init, Kernel.boot, Kernel.procInit]),
    fun s₁ h₁ => ?_⟩
  simp only [exec, h₁, Option.bind_some, Option.map_some, Option.some.injEq] at hfree hopen
  refine ⟨⟨fun ho => ?_, fun hsw => ?_⟩, fun s₂ h₂ => ⟨trivial, fun s₃ h₃ => ⟨?_, ?_⟩⟩⟩
  · rw [hfree] at ho
    cases ho
  · have ho := hsw.1
    omega
  · simp only [h₂, h₃, Option.bind_some, Option.map_some, Option.some.injEq] at hopen
    refine fun hnot => absurd (Or.inl ?_) hnot
    change s₃.owner < 0
    omega
  · exact fun _ _ => trivial

/-- A waiting process that is alone on the ready list spins. -/
theorem step_round_alone {n : ℕ} (hcur : s.cur = .locking n) (hopen : ¬ s.kernel.AiplOpen)
    (hn : n < aiplSpinLimit) (hready : s.kernel.readyHead = none) :
    s.step .round = some (s.goto (.locking (n + 1))) := by
  have hyield : s.kernel.procYield = s.kernel := by
    unfold Kernel.procYield Kernel.procResched Kernel.readyPop
    rw [hready]
  have hround : s.kernel.aiplRound n = none := by
    unfold Kernel.aiplRound
    rw [if_neg hopen, if_neg (by omega)]
  simp only [step, round, hcur, LockCtl.fails, Option.map_some, hround, hyield, LockCtl.failed]
  rfl

theorem reachable_spinning {s₀ : LockSys} (h : Reachable step (fun _ _ => True) s₀ s)
    (hcur : s.cur = .locking 0) (hopen : ¬ s.kernel.AiplOpen) (hready : s.kernel.readyHead = none)
    (n : ℕ) (hn : n ≤ aiplSpinLimit) :
    Reachable step (fun _ _ => True) s₀ (s.goto (.locking n)) := by
  induction n with
  | zero =>
    have hgoto : s.goto (.locking 0) = s := by
      unfold goto
      rw [← hcur, cur, Function.update_eq_self]
    rw [hgoto]
    exact h
  | succ n ih =>
    have hself : (s.goto (.locking n)).cur = .locking n := Function.update_self ..
    have hstep := step_round_alone hself hopen (by omega) hready
    have hgoto : (s.goto (.locking n)).goto (.locking (n + 1)) = s.goto (.locking (n + 1)) := by
      unfold goto
      simp only [Function.update_idem]
    rw [hgoto] at hstep
    exact (ih (by omega)).next trivial hstep

/-- The null process has the lock and yields to the only other process: that process
counts its own rounds up to the limit and takes the lock. -/
theorem null_process_loses_lock :
    ¬ ∀ (lo hi : ℕ) (s : LockSys), Reachable step (fun _ _ => True) (init lo hi) s →
      s.LockSound fun _ _ => True := by
  intro hclaim
  have hrun : (exec step (init 4096 65536) [.create 0 4096 [] 0, .lock, .round, .resched, .lock]).map
      (fun s => (s.owner, s.kernel.currpid, s.cur, s.kernel.readyHead, s.kernel.state 0)) =
        some (0, 1, .locking 0, none, .curr) := by decide
  obtain ⟨s, hs, hfacts⟩ := Option.map_eq_some_iff.mp hrun
  simp only [Prod.mk.injEq] at hfacts
  obtain ⟨ho, hc, hcur, hready, hst⟩ := hfacts
  have hopen : ¬ s.kernel.AiplOpen := by
    rintro (hfree | hown)
    · change s.owner < 0 at hfree
      omega
    · change s.owner = _ at hown
      rw [ho, hc] at hown
      cases hown
  have hreach := reachable_spinning
    (Reachable.start.exec (.of_forall (fun _ _ _ => trivial) _) hs) hcur hopen hready _ le_rfl
  have hsound := (hclaim 4096 65536 _ hreach).steps .round
    { (s.goto (.locking aiplSpinLimit)).goto .out with kernel := s.kernel.aiplSteal } trivial ?_
  · refine hsound.watchdog rfl 0 ho ?_ (Or.inr hst)
    change ((s.kernel.currpid.val : ℕ) : ℤ) ≠ s.owner
    rw [ho, hc]
    decide
  · have hself : (s.goto (.locking aiplSpinLimit)).cur = .locking aiplSpinLimit :=
      Function.update_self ..
    have hround : s.kernel.aiplRound aiplSpinLimit = some s.kernel.aiplSteal := by
      unfold Kernel.aiplRound
      rw [if_neg hopen, if_pos (by omega)]
    simp only [step, round, hself, LockCtl.fails, Option.map_some, LockCtl.taken]
    rw [show (s.goto (.locking aiplSpinLimit)).kernel = s.kernel from rfl, hround]

end

end LockSys

end XinuRpi4.Process
