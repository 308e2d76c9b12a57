import XinuRpi4.Memory.FreeListCalls
import XinuRpi4.Process.Transitions

/-!
# Who owns the process stacks

A stack leaves the heap in `proc_create_arg` and goes back in two ways:
`proc_kill` frees it at once, a process that exits leaves it to the next
`proc_create_arg` in its slot. The only record of it is `stkbase` and `stklen`
of the slot. A ledger of the heap calls, kept beside the kernel, shows that the
record is always right. What breaks it is a wake-up of a slot that has no stack.
Where the record is right, a process that is killed takes its stack with it and
leaves everything else as it was.
-/

namespace XinuRpi4.Process

open Foundation Memory

/-- Stacks taken from the heap and not given back. -/
def outstanding : List StackEvent → List LiveBlk
  | [] => []
  | .alloc b :: log => b :: outstanding log
  | .free b :: log => (outstanding log).erase b

/-- Every stack handed to `freemem` was outstanding, with that size. -/
def FreesMatch : List StackEvent → Prop
  | [] => True
  | .alloc _ :: log => FreesMatch log
  | .free b :: log => b ∈ outstanding log ∧ FreesMatch log

namespace Kernel

/-- The stack that a slot records. -/
def stackOf (k : Kernel) (p : Slot) : LiveBlk := ⟨(k.proctab p).stkbase, (k.proctab p).stklen⟩

/-- A process that may still run. The null process runs on the boot stack. -/
def OnHeapStack (k : Kernel) (p : Slot) : Prop :=
  p ≠ nullproc ∧ (k.state p = .ready ∨ k.state p = .curr ∨ k.state p = .wait)

/-- Stacks are freed once and with their size, those of processes that may run
are live and disjoint, and none is lost. -/
structure StackOk (k : Kernel) : Prop where
  frees_match : FreesMatch k.stackLog
  live : ∀ p, k.OnHeapStack p → k.stackOf p ∈ outstanding k.stackLog
  disjoint : ∀ p q, k.OnHeapStack p → k.OnHeapStack q → p ≠ q →
    (k.stackOf p).extent.Disjoint (k.stackOf q).extent
  recorded : ∀ b ∈ outstanding k.stackLog, ∃! p, k.stackOf p = b

end Kernel

/-- The slots record exactly the stacks that the heap has out to processes. -/
structure Ledger (k : Kernel) (clients : List LiveBlk) : Prop where
  heap : ∃ l, HeapInvariant k.bounds k.mem (outstanding k.stackLog ++ clients) l
  frees_match : FreesMatch k.stackLog
  held : ∀ p, (k.stackOf p).addr ≠ 0 → k.stackOf p ∈ outstanding k.stackLog
  recorded : ∀ b ∈ outstanding k.stackLog, ∃ p, k.stackOf p = b
  separate : ∀ p q, (k.stackOf p).addr ≠ 0 → k.stackOf p = k.stackOf q → p = q

/-- The stack size is a multiple of the granularity, so rounding it again does not wrap. -/
theorem Kernel.stackSize_lt (n : ℕ) : Kernel.stackSize n + 7 < ulongSize := by
  have h8 : ∃ m, Kernel.stackSize n = m * 8 := ⟨_, rfl⟩
  have hlt : Kernel.stackSize n < ulongSize := by
    unfold Kernel.stackSize roundmb
    have := uadd_lt (if n < 1024 then 1024 else n) 7
    omega
  have hsize : ulongSize = 18446744073709551616 := rfl
  omega

namespace Ledger

variable {k k' : Kernel} {clients : List LiveBlk} {p : Slot}

theorem addr_ne_zero (h : Ledger k clients) {b : LiveBlk} (hb : b ∈ outstanding k.stackLog) :
    b.addr ≠ 0 := by
  obtain ⟨l, hl⟩ := h.heap
  have hin := hl.live_inside b.extent (List.mem_map_of_mem (List.mem_append_left _ hb))
  have := hl.heapLo_pos
  simp only [LiveBlk.extent] at hin
  omega

theorem outstanding_nodup (h : Ledger k clients) : (outstanding k.stackLog).Nodup := by
  obtain ⟨l, hl⟩ := h.heap
  exact (List.nodup_append.mp hl.live_nodup).1

theorem congr (h : Ledger k clients) (hk : k'.unscheduled = k.unscheduled) :
    Ledger k' clients := by
  have hlog := Kernel.of_unscheduled Kernel.stackLog (fun _ => rfl) hk
  have hbounds := Kernel.of_unscheduled Kernel.bounds (fun _ => rfl) hk
  have hmem := Kernel.of_unscheduled Kernel.mem (fun _ => rfl) hk
  have hstack := Kernel.of_unscheduled Kernel.stackOf (fun _ => rfl) hk
  constructor
  · rw [hlog, hbounds, hmem]
    exact h.heap
  · rw [hlog]
    exact h.frees_match
  · rw [hlog, hstack]
    exact h.held
  · rw [hlog, hstack]
    exact h.recorded
  · rw [hstack]
    exact h.separate

/-- Giving back what a slot records, and clearing the record. -/
theorem release (h : Ledger k clients) (hfree : k.freeStack p = some k') {f : ProcEnt → ProcEnt}
    (hf : (f (k'.proctab p)).stkbase = 0) : Ledger (k'.modify p f) clients := by
  have hself : ((k'.modify p f).stackOf p).addr = 0 := by
    simpa [Kernel.stackOf, Kernel.modify] using hf
  have hother : ∀ q, q ≠ p → (k'.modify p f).stackOf q = k'.stackOf q := by
    intro q hq
    simp [Kernel.stackOf, Kernel.modify, hq]
  have hne : ∀ q, ((k'.modify p f).stackOf q).addr ≠ 0 → q ≠ p := by
    rintro q hq rfl
    exact hq hself
  rcases Kernel.freeStack_eq hfree with ⟨h0, rfl⟩ | ⟨h0, r, hrun, hk⟩
  · constructor
    · exact h.heap
    · exact h.frees_match
    · intro q hq
      have hqp := hne q hq
      rw [hother q hqp] at hq ⊢
      exact h.held q hq
    · intro b hb
      obtain ⟨q, rfl⟩ := h.recorded b hb
      refine ⟨q, hother q ?_⟩
      rintro rfl
      exact h.addr_ne_zero hb h0
    · intro q q' hq heq
      have hqp := hne q hq
      have hqp' := hne q' (heq ▸ hq)
      rw [hother q hqp] at hq heq
      rw [hother q' hqp'] at heq
      exact h.separate q q' hq heq
  · have hlog : k'.stackLog = .free (k.stackOf p) :: k.stackLog := by
      rw [hk]
      rfl
    have hbounds : k'.bounds = k.bounds := by rw [hk]
    have hstack : k'.stackOf = k.stackOf := by
      rw [hk]
      rfl
    have hmem : k.stackOf p ∈ outstanding k.stackLog := h.held p h0
    -- distinct slots record distinct stacks, so the other records stay outstanding
    have hkeep : ∀ q, q ≠ p → k.stackOf q ∈ outstanding k.stackLog →
        k.stackOf q ∈ (outstanding k.stackLog).erase (k.stackOf p) := by
      intro q hq hqm
      refine (List.mem_erase_of_ne fun heq => hq ?_).mpr hqm
      exact (h.separate p q h0 heq.symm).symm
    constructor
    · obtain ⟨l, hl⟩ := h.heap
      obtain ⟨c', l', hrun', hl'⟩ := hl.freemem_spec (List.mem_append_left _ hmem)
      have hc : c' = k'.mem := (Prod.mk.inj (hrun'.symm.trans hrun)).2
      refine ⟨l', ?_⟩
      rw [List.erase_append_left _ hmem, hc] at hl'
      change HeapInvariant k'.bounds k'.mem (outstanding k'.stackLog ++ clients) l'
      rw [hbounds, hlog]
      exact hl'
    · change FreesMatch k'.stackLog
      rw [hlog]
      exact ⟨hmem, h.frees_match⟩
    · intro q hq
      have hqp := hne q hq
      rw [hother q hqp, hstack] at hq ⊢
      change k.stackOf q ∈ outstanding k'.stackLog
      rw [hlog]
      exact hkeep q hqp (h.held q hq)
    · intro b hb
      change b ∈ outstanding k'.stackLog at hb
      rw [hlog] at hb
      obtain ⟨q, rfl⟩ := h.recorded b (List.mem_of_mem_erase hb)
      refine ⟨q, (hother q ?_).trans (congrFun hstack q)⟩
      rintro rfl
      exact h.outstanding_nodup.not_mem_erase hb
    · intro q q' hq heq
      have hqp := hne q hq
      have hqp' := hne q' (heq ▸ hq)
      rw [hother q hqp, hstack] at hq heq
      rw [hother q' hqp', hstack] at heq
      exact h.separate q q' hq heq

/-- Taking a stack from the heap and recording it in a slot that records none. -/
theorem install (h : Ledger k clients) (hp : (k.stackOf p).addr = 0) {n stk : ℕ}
    (hn : n + 7 < ulongSize) (hget : k.getmem n = some (stk, k')) (hstk : stk ≠ 0)
    (entry : ProcEntry) (name : List Char) (arg : ℤ) :
    Ledger (k'.install p stk n entry name arg) clients := by
  obtain ⟨hrun, hk⟩ := Kernel.getmem_eq hget
  obtain ⟨l, hl⟩ := h.heap
  have hfresh : ∃ l', HeapInvariant k.bounds k'.mem
      (⟨stk, n⟩ :: (outstanding k.stackLog ++ clients)) l' := by
    rcases hl.getmem_spec hn with hrun' | ⟨p', c', l', -, hrun', hl'⟩
    · exact absurd (Option.some.inj (Prod.mk.inj (hrun.symm.trans hrun')).1) hstk
    · obtain ⟨hp', hc'⟩ := Prod.mk.inj (hrun'.symm.trans hrun)
      rw [Option.some.inj hp', hc'] at hl'
      exact ⟨l', hl'⟩
  have hlog : (k'.install p stk n entry name arg).stackLog = .alloc ⟨stk, n⟩ :: k.stackLog := by
    rw [hk]
    rfl
  have hself : (k'.install p stk n entry name arg).stackOf p = ⟨stk, n⟩ := by
    simp [Kernel.stackOf, Kernel.install, Kernel.modify, Kernel.newProcent]
  have hother : ∀ q, q ≠ p →
      (k'.install p stk n entry name arg).stackOf q = k.stackOf q := by
    intro q hq
    rw [hk]
    simp [Kernel.stackOf, Kernel.install, Kernel.modify, hq]
  have hnew : (⟨stk, n⟩ : LiveBlk) ∉ outstanding k.stackLog := by
    obtain ⟨l', hl'⟩ := hfresh
    intro hmem
    exact (List.nodup_cons.mp hl'.live_nodup).1 (List.mem_append_left _ hmem)
  constructor
  · obtain ⟨l', hl'⟩ := hfresh
    refine ⟨l', ?_⟩
    rw [hlog, hk]
    exact hl'
  · rw [hlog]
    exact h.frees_match
  · intro q hq
    rw [hlog]
    by_cases hqp : q = p
    · rw [hqp, hself]
      exact List.mem_cons_self
    · rw [hother q hqp] at hq ⊢
      exact List.mem_cons_of_mem _ (h.held q hq)
  · intro b hb
    rw [hlog] at hb
    rcases List.mem_cons.mp hb with rfl | hb
    · exact ⟨p, hself⟩
    · obtain ⟨q, rfl⟩ := h.recorded b hb
      refine ⟨q, hother q ?_⟩
      rintro rfl
      exact h.addr_ne_zero hb hp
  · intro q q' hq heq
    by_cases hqp : q = p
    · by_cases hqp' : q' = p
      · rw [hqp, hqp']
      · rw [hqp, hself, hother q' hqp'] at heq
        exact absurd (heq ▸ h.held q' (by rw [← heq]; exact hstk)) hnew
    · rw [hother q hqp] at hq heq
      by_cases hqp' : q' = p
      · rw [hqp', hself] at heq
        exact absurd (heq ▸ h.held q hq) hnew
      · rw [hother q' hqp'] at heq
        exact h.separate q q' hq heq

/-- A request that the heap cannot serve changes nothing. -/
theorem getmem_null (h : Ledger k clients) {n : ℕ} (hn : n + 7 < ulongSize)
    (hget : k.getmem n = some (0, k')) : Ledger k' clients := by
  obtain ⟨hrun, hk⟩ := Kernel.getmem_eq hget
  obtain ⟨l, hl⟩ := h.heap
  have hmem : k'.mem = k.mem := by
    rcases hl.getmem_spec hn with hrun' | ⟨p', c', l', hp', hrun', -⟩
    · exact (Prod.mk.inj (hrun.symm.trans hrun')).2
    · exact absurd (Option.some.inj (Prod.mk.inj (hrun'.symm.trans hrun)).1) hp'
  rw [hmem] at hk
  rw [hk]
  exact h

end Ledger

/-- The kernel, and the heap blocks of everyone who is not a process stack. -/
structure StackState where
  kernel : Kernel
  clients : List LiveBlk

/-- Steps of the kernel, and heap calls of well-behaved clients. -/
inductive StackOp
  | createArg (entry : ProcEntry) (stksize : ℕ) (name : List Char) (arg : ℤ)
  | kill (pid : ℤ)
  | exit
  | block
  | ready (pid : ℤ)
  | resched
  | preempt
  | getmem (nbytes : ℕ)
  | freemem (b : LiveBlk)

namespace StackState

def init (lo hi : ℕ) : StackState := ⟨(Kernel.boot lo hi).procInit, []⟩

/-- Clients ask for sizes that do not wrap and release what they hold. -/
def step (s : StackState) : StackOp → Option StackState
  | .createArg entry n name arg => (s.kernel.step (.createArg entry n name arg)).map (⟨·, s.clients⟩)
  | .kill pid => (s.kernel.step (.kill pid)).map (⟨·, s.clients⟩)
  | .exit => (s.kernel.step .exit).map (⟨·, s.clients⟩)
  | .block => (s.kernel.step .block).map (⟨·, s.clients⟩)
  | .ready pid => (s.kernel.step (.ready pid)).map (⟨·, s.clients⟩)
  | .resched => (s.kernel.step .resched).map (⟨·, s.clients⟩)
  | .preempt => (s.kernel.step .preempt).map (⟨·, s.clients⟩)
  | .getmem n =>
    if n + 7 < ulongSize then
      (s.kernel.getmem n).map fun r => ⟨r.2, if r.1 = 0 then s.clients else ⟨r.1, n⟩ :: s.clients⟩
    else none
  | .freemem b =>
    if b ∈ s.clients then (s.kernel.freemem b.addr b.nbytes).map (⟨·, s.clients.erase b⟩)
    else none

/-- `proc_ready` is only given slots that record a stack. -/
def ReadiesStack (s : StackState) : StackOp → Prop
  | .ready pid => ∀ p ∈ Kernel.slotOf pid, (s.kernel.proctab p).stkbase ≠ 0
  | _ => True

/-- The ledger is right and every process that may run has a stack. -/
structure Invariant (s : StackState) : Prop where
  scheduled : s.kernel.Scheduled
  ledger : Ledger s.kernel s.clients
  holds : ∀ p, s.kernel.OnHeapStack p → (s.kernel.stackOf p).addr ≠ 0

theorem Invariant.stackOk {s : StackState} (h : s.Invariant) : s.kernel.StackOk where
  frees_match := h.ledger.frees_match
  live p hp := h.ledger.held p (h.holds p hp)
  disjoint p q hp hq hpq := by
    obtain ⟨l, hl⟩ := h.ledger.heap
    have hdis : (outstanding s.kernel.stackLog).Pairwise fun a b => a.extent.Disjoint b.extent := by
      have hpair := hl.live_disjoint
      rw [extents, List.pairwise_map] at hpair
      exact (List.pairwise_append.mp hpair).1
    have : Std.Symm fun a b : LiveBlk => a.extent.Disjoint b.extent := ⟨fun _ _ h => h.symm⟩
    apply hdis.forall (h.ledger.held p (h.holds p hp)) (h.ledger.held q (h.holds q hq))
    exact fun heq => hpq (h.ledger.separate p q (h.holds p hp) heq)
  recorded b hb := by
    obtain ⟨p, rfl⟩ := h.ledger.recorded b hb
    exact ⟨p, rfl, fun q hq => (h.ledger.separate p q (h.ledger.addr_ne_zero hb) hq.symm).symm⟩

theorem init_invariant {lo hi : ℕ} (hhi : hi < ulongSize) (hlo : 0 < roundmb lo)
    (hlt : roundmb lo < truncmb hi) : (init lo hi).Invariant where
  scheduled := Kernel.procInit_scheduled _
  ledger := by
    have hstack : ∀ p, ((Kernel.boot lo hi).procInit.stackOf p).addr = 0 := by
      intro p
      unfold Kernel.procInit Kernel.stackOf
      simp only
      split_ifs <;> rfl
    constructor
    · exact ⟨_, memInit_invariant _ hhi hlo hlt⟩
    · trivial
    · exact fun p hp => absurd (hstack p) hp
    · intro b hb
      cases hb
    · exact fun p q hp => absurd (hstack p) hp
  holds := by
    rintro p ⟨hp, hst⟩
    change (Kernel.boot lo hi).procInit.state p = .ready ∨ _ at hst
    simp [init, Kernel.procInit_state, hp] at hst

namespace Invariant

variable {s s' : StackState} {k : Kernel}

/-- A step of the scheduler that lets no process without a stack run. -/
theorem of_sched (h : s.Invariant) (hsched : k.Scheduled)
    (hrest : k.unscheduled = s.kernel.unscheduled)
    (hactive : ∀ p, k.OnHeapStack p → (s.kernel.stackOf p).addr ≠ 0) :
    Invariant ⟨k, s.clients⟩ where
  scheduled := hsched
  ledger := h.ledger.congr hrest
  holds p hp := by
    rw [Kernel.of_unscheduled Kernel.stackOf (fun _ => rfl) hrest]
    exact hactive p hp

theorem resched (h : s.Invariant) : Invariant ⟨s.kernel.procResched, s.clients⟩ := by
  apply h.of_sched h.scheduled.procResched (Kernel.procResched_unscheduled _)
  obtain ⟨a, hsim, hok⟩ := h.scheduled
  rintro p ⟨hp, hst⟩
  apply h.holds p
  refine ⟨hp, ?_⟩
  rw [(hsim.procResched hok).state_eq] at hst
  rw [hsim.state_eq]
  rcases Sched.resched_state hok p with heq | ⟨-, hor⟩
  · rwa [heq] at hst
  · tauto

theorem preempt (h : s.Invariant) : Invariant ⟨s.kernel.procPreempt, s.clients⟩ := by
  have hclear : Invariant ⟨{ s.kernel with reschedPending := false }, s.clients⟩ :=
    h.of_sched (h.scheduled.congr rfl rfl rfl rfl) rfl h.holds
  unfold Kernel.procPreempt
  split_ifs
  · exact h
  · exact h
  · exact hclear.resched
  · exact hclear

theorem block (h : s.Invariant) : Invariant ⟨s.kernel.procBlock, s.clients⟩ := by
  apply h.of_sched h.scheduled.procBlock (Kernel.procBlock_unscheduled _)
  obtain ⟨a, hsim, hok⟩ := h.scheduled
  rintro p ⟨hp, hst⟩
  apply h.holds p
  refine ⟨hp, ?_⟩
  rw [hsim.procBlock.state_eq] at hst
  rw [hsim.state_eq]
  rcases Sched.block_state hok p with heq | ⟨rfl, -⟩ | ⟨-, hor⟩
  · rwa [heq] at hst
  · exact Or.inr (Or.inl hok.curr_state)
  · tauto

theorem exit (h : s.Invariant) (hk : s.kernel.procExit = some k) :
    Invariant ⟨k, s.clients⟩ := by
  apply h.of_sched (h.scheduled.procExit hk) (Kernel.procExit_unscheduled hk)
  obtain ⟨a, hsim, hok⟩ := h.scheduled
  rintro p ⟨hp, hst⟩
  apply h.holds p
  refine ⟨hp, ?_⟩
  obtain ⟨k₁, hrun, hsim'⟩ := hsim.procExit
  obtain rfl : k₁ = k := Option.some.inj (hrun.symm.trans hk)
  rw [hsim'.state_eq] at hst
  rw [hsim.state_eq]
  rcases Sched.exit_state hok p with heq | ⟨rfl, hfree⟩ | ⟨-, hor⟩
  · rwa [heq] at hst
  · simp [hfree] at hst
  · tauto

/-- Waking a slot that records a stack. -/
theorem ready (h : s.Invariant) {pid : ℤ} (hpid : s.ReadiesStack (.ready pid)) :
    Invariant ⟨s.kernel.procReady pid, s.clients⟩ := by
  apply h.of_sched (h.scheduled.procReady pid) (Kernel.procReady_unscheduled _ pid)
  obtain ⟨a, hsim, hok⟩ := h.scheduled
  rintro p ⟨hp, hst⟩
  by_cases hs : Kernel.slotOf pid = some p
  · exact hpid p hs
  · apply h.holds p
    refine ⟨hp, ?_⟩
    rw [(hsim.procReady hok pid).state_eq] at hst
    rw [hsim.state_eq]
    cases hslot : Kernel.slotOf pid with
    | none => simpa [hslot] using hst
    | some q =>
      have hpq : p ≠ q := by
        rintro rfl
        exact hs hslot
      simp only [hslot, Option.elim, Sched.wake] at hst
      split_ifs at hst
      · exact hst
      · simpa [hpq] using hst

theorem kill (h : s.Invariant) {pid : ℤ} (hk : s.kernel.procKill pid = some k) :
    Invariant ⟨k, s.clients⟩ := by
  have hsched := h.scheduled.procKill hk
  rcases Kernel.procKill_cases hk with ⟨rfl, -⟩ | ⟨p, k₁, k₂, hs, hp, hrem, hfree, rfl⟩
  · exact h
  · obtain ⟨a, hsim, hok⟩ := h.scheduled
    have hrest : (k₁.dropLockOf pid).stackOf = s.kernel.stackOf ∧
        Ledger (k₁.dropLockOf pid) s.clients := by
      have hun : k₁.unscheduled = s.kernel.unscheduled := Kernel.readyRemoveLoop_unscheduled hrem
      have hled := h.ledger.congr hun
      have hstack := Kernel.of_unscheduled Kernel.stackOf (fun _ => rfl) hun
      unfold Kernel.dropLockOf
      split_ifs
      · exact ⟨hstack, ⟨hled.heap, hled.frees_match, hled.held, hled.recorded, hled.separate⟩⟩
      · exact ⟨hstack, hled⟩
    have hkill := hsim.procKill hk
    rw [hs] at hkill
    refine ⟨hsched, hrest.2.release (f := fun e => { e with stkbase := 0, state := .free }) hfree
      rfl, ?_⟩
    rintro q ⟨hq, hst⟩
    have hpc : ¬ (p = a.curr ∨ a.state p = .free) := by
      rwa [← hsim.curr_eq, ← hsim.state_eq]
    rw [hkill.state_eq] at hst
    simp only [Option.elim, Sched.kill, if_neg hpc] at hst
    have hqp : q ≠ p := by
      rintro rfl
      simp at hst
    have hstack : (k₂.vacate p).stackOf q = s.kernel.stackOf q := by
      have htab := (Kernel.freeStack_sched hfree).1
      rw [← hrest.1]
      simp [Kernel.stackOf, Kernel.vacate, Kernel.modify, hqp, htab]
    rw [hstack]
    apply h.holds q
    refine ⟨hq, ?_⟩
    rw [hsim.state_eq]
    simpa [hqp] using hst

/-- A slot that is reused gives back the stack its last process left behind. -/
theorem create (h : s.Invariant) {entry : ProcEntry} {n : ℕ} {name : List Char} {arg r : ℤ}
    (hc : s.kernel.procCreateArg entry n name arg = some (r, k)) : Invariant ⟨k, s.clients⟩ := by
  have hsched := h.scheduled.procCreateArg hc
  rcases Kernel.procCreateArg_cases hc with
    ⟨-, -, rfl⟩ | ⟨p, k₁, stk, k₂, halloc, hreap, hget, hres⟩
  · exact h
  · obtain ⟨hp0, hpfree⟩ := Kernel.allocSlot_spec halloc
    have h₁ : Ledger k₁ s.clients ∧ (k₁.stackOf p).addr = 0 ∧ k₁.state = s.kernel.state ∧
        ∀ q, q ≠ p → k₁.stackOf q = s.kernel.stackOf q := by
      unfold Kernel.reapStack at hreap
      split_ifs at hreap with h0
      · cases hreap
        exact ⟨h.ledger, h0, rfl, fun _ _ => rfl⟩
      · obtain ⟨k₀, hfree, rfl⟩ := Option.map_eq_some_iff.mp hreap
        have htab := (Kernel.freeStack_sched hfree).1
        refine ⟨h.ledger.release hfree rfl, ?_, ?_, ?_⟩
        · simp [Kernel.stackOf, Kernel.modify]
        · rw [Kernel.modify_state_of rfl]
          unfold Kernel.state
          rw [htab]
        · intro q hq
          simp [Kernel.stackOf, Kernel.modify, hq, htab]
    obtain ⟨hled, hself, hstate, hother⟩ := h₁
    have hk₂ := (Kernel.getmem_eq hget).2
    have hstate₂ : k₂.state = s.kernel.state := by
      rw [← hstate, hk₂]
      rfl
    have hother₂ : ∀ q, q ≠ p → k₂.stackOf q = s.kernel.stackOf q := by
      intro q hq
      rw [← hother q hq, hk₂]
      rfl
    rcases hres with ⟨rfl, -, rfl⟩ | ⟨hstk, -, rfl⟩
    · refine ⟨hsched, hled.getmem_null (Kernel.stackSize_lt n) hget, ?_⟩
      rintro q ⟨hq, hst⟩
      rw [hstate₂] at hst
      have hqp : q ≠ p := by
        rintro rfl
        simp [hpfree] at hst
      rw [hother₂ q hqp]
      exact h.holds q ⟨hq, hst⟩
    · have hinst := hled.install hself (Kernel.stackSize_lt n) hget hstk entry name arg
      have hpush := Kernel.readyPush_unscheduled
        (k₂.install p stk (Kernel.stackSize n) entry name arg) p
      refine ⟨hsched, hinst.congr hpush, ?_⟩
      rintro q ⟨hq, hst⟩
      rw [Kernel.of_unscheduled Kernel.stackOf (fun _ => rfl) hpush]
      rw [Kernel.readyPush_state] at hst
      by_cases hqp : q = p
      · subst hqp
        simpa [Kernel.stackOf, Kernel.install, Kernel.modify, Kernel.newProcent] using hstk
      · have hstack : (k₂.install p stk (Kernel.stackSize n) entry name arg).stackOf q =
            k₂.stackOf q := by
          simp [Kernel.stackOf, Kernel.install, Kernel.modify, hqp]
        rw [hstack, hother₂ q hqp]
        apply h.holds q
        refine ⟨hq, ?_⟩
        rw [← hstate₂]
        simpa [Kernel.state, Kernel.install, Kernel.modify, hqp] using hst

/-- Heap calls of clients leave the stacks alone. -/
theorem of_heap (h : s.Invariant) {mem : Loc → ℕ} {clients : List LiveBlk}
    (hheap : ∃ l, HeapInvariant s.kernel.bounds mem
      (outstanding s.kernel.stackLog ++ clients) l) :
    Invariant ⟨{ s.kernel with mem }, clients⟩ where
  scheduled := h.scheduled.congr rfl rfl rfl rfl
  ledger := ⟨hheap, h.ledger.frees_match, h.ledger.held, h.ledger.recorded, h.ledger.separate⟩
  holds := h.holds

theorem getmem (h : s.Invariant) {n p : ℕ} (hn : n + 7 < ulongSize)
    (hget : s.kernel.getmem n = some (p, k)) :
    Invariant ⟨k, if p = 0 then s.clients else ⟨p, n⟩ :: s.clients⟩ := by
  obtain ⟨hrun, hk⟩ := Kernel.getmem_eq hget
  obtain ⟨l, hl⟩ := h.ledger.heap
  rw [hk]
  rcases hl.getmem_spec hn with hrun' | ⟨p', c', l', hp', hrun', hl'⟩
  · obtain ⟨hp, hc⟩ := Prod.mk.inj (hrun.symm.trans hrun')
    rw [if_pos (Option.some.inj hp), hc]
    exact h.of_heap ⟨l, hl⟩
  · obtain ⟨hp, hc⟩ := Prod.mk.inj (hrun.symm.trans hrun')
    obtain rfl : p = p' := Option.some.inj hp
    rw [if_neg hp', hc]
    exact h.of_heap ⟨l', hl'.of_perm List.perm_middle.symm⟩

theorem freemem (h : s.Invariant) {b : LiveBlk} (hb : b ∈ s.clients)
    (hfree : s.kernel.freemem b.addr b.nbytes = some k) :
    Invariant ⟨k, s.clients.erase b⟩ := by
  obtain ⟨l, hl⟩ := h.ledger.heap
  obtain ⟨c', l', hrun, hl'⟩ := hl.freemem_spec (List.mem_append_right _ hb)
  unfold Kernel.freemem at hfree
  rw [hrun] at hfree
  cases hfree
  refine h.of_heap ⟨l', hl'.of_perm ?_⟩
  have hperm : (outstanding s.kernel.stackLog ++ s.clients).Perm
      (b :: (outstanding s.kernel.stackLog ++ s.clients.erase b)) :=
    ((List.perm_cons_erase hb).append_left _).trans List.perm_middle
  simpa using hperm.erase b

end Invariant

theorem step_invariant {s s' : StackState} {op : StackOp} (h : s.Invariant)
    (hop : s.ReadiesStack op) (hstep : s.step op = some s') : s'.Invariant := by
  cases op with
  | createArg entry n name arg =>
    obtain ⟨k, hk, rfl⟩ := Option.map_eq_some_iff.mp hstep
    obtain ⟨⟨r, k⟩, hc, rfl⟩ := Option.map_eq_some_iff.mp hk
    exact h.create hc
  | kill pid =>
    obtain ⟨k, hk, rfl⟩ := Option.map_eq_some_iff.mp hstep
    exact h.kill hk
  | exit =>
    obtain ⟨k, hk, rfl⟩ := Option.map_eq_some_iff.mp hstep
    exact h.exit hk
  | block =>
    cases hstep
    exact h.block
  | ready pid =>
    cases hstep
    exact h.ready hop
  | resched =>
    cases hstep
    exact h.resched
  | preempt =>
    cases hstep
    exact h.preempt
  | getmem n =>
    simp only [step] at hstep
    split_ifs at hstep with hn
    obtain ⟨⟨p, k⟩, hget, rfl⟩ := Option.map_eq_some_iff.mp hstep
    exact h.getmem hn hget
  | freemem b =>
    simp only [step] at hstep
    split_ifs at hstep with hb
    obtain ⟨k, hfree, rfl⟩ := Option.map_eq_some_iff.mp hstep
    exact h.freemem hb hfree

/-- A slot that records no stack becomes ready: its process has no live stack. -/
theorem ready_not_stackOk {s s' : StackState} {op : StackOp} (h : s.Invariant)
    (hop : ¬ s.ReadiesStack op) (hstep : s.step op = some s') : ¬ s'.kernel.StackOk := by
  cases op with
  | ready pid =>
    cases hstep
    obtain ⟨p, hp⟩ := not_forall.mp hop
    obtain ⟨hs, h0⟩ : Kernel.slotOf pid = some p ∧ (s.kernel.proctab p).stkbase = 0 := by
      simpa using hp
    have hpn := Kernel.slotOf_ne_null hs
    have hidle : ¬ (s.kernel.state p = .ready ∨ s.kernel.state p = .curr) := by
      intro hst
      exact h.holds p ⟨hpn, by tauto⟩ h0
    have hled := h.ledger.congr (Kernel.procReady_unscheduled s.kernel pid)
    have hstack : (s.kernel.procReady pid).stackOf p = s.kernel.stackOf p :=
      congrFun (Kernel.of_unscheduled Kernel.stackOf (fun _ => rfl)
        (Kernel.procReady_unscheduled s.kernel pid)) p
    have hready : (s.kernel.procReady pid).state p = .ready := by
      simp [Kernel.procReady, hs, hidle]
    intro hok
    have hlive := hok.live p ⟨hpn, Or.inl hready⟩
    exact hled.addr_ne_zero hlive (by rw [hstack]; exact h0)
  | _ => exact absurd trivial hop

/-- Stack ownership is right in every state of a run exactly when no step of the
run makes a slot ready that records no stack. -/
theorem stack_ownership_iff {lo hi : ℕ} (hhi : hi < ulongSize) (hlo : 0 < roundmb lo)
    (hlt : roundmb lo < truncmb hi) (ops : List StackOp)
    (hrun : (exec step (init lo hi) ops).isSome) :
    Always step (fun s => s.kernel.StackOk) (init lo hi) ops ↔
      EachStep step ReadiesStack (init lo hi) ops := by
  apply always_iff_eachStep Invariant
  · exact fun _ h => h.stackOk
  · exact fun _ _ _ => step_invariant
  · exact fun _ _ _ => ready_not_stackOk
  · exact init_invariant hhi hlo hlt
  · exact hrun

/-- A process is created, exits, and its slot is used again. -/
theorem stack_ownership_reused_slot :
    Always step (fun s => s.kernel.StackOk) (init 4096 65536)
      [.createArg (.other 1) 4096 [] 0, .resched, .exit, .createArg (.other 1) 8192 [] 0,
        .kill 1] := by
  rw [stack_ownership_iff (by decide) (by decide) (by decide)]
  · simp [EachStep, ReadiesStack]
  · decide

/-- A killed process is made ready: it would run on a stack that is free. -/
theorem stack_of_killed_process_not_live :
    ¬ ∀ lo hi, hi < ulongSize → 0 < roundmb lo → roundmb lo < truncmb hi → ∀ ops,
      (exec step (init lo hi) ops).isSome →
        Always step (fun s => s.kernel.StackOk) (init lo hi) ops := by
  intro hclaim
  let ops : List StackOp := [.createArg (.other 1) 4096 [] 0, .kill 1, .ready 1]
  have hrun : (exec step (init 4096 65536) ops).isSome := by decide
  obtain ⟨s, hs⟩ := Option.isSome_iff_exists.mp hrun
  have hlast : s.kernel.StackOk :=
    (hclaim 4096 65536 (by decide) (by decide) (by decide) ops hrun).of_exec hs
  have hstate : (exec step (init 4096 65536) ops).map (fun s => s.kernel.state 1) =
      some .ready := by decide
  have hstack : (exec step (init 4096 65536) ops).map (fun s => outstanding s.kernel.stackLog) =
      some [] := by decide
  rw [hs] at hstate hstack
  have hlive := hlast.live 1 ⟨by decide, Or.inl (Option.some.inj hstate)⟩
  have hnone : outstanding s.kernel.stackLog = [] := Option.some.inj hstack
  rw [hnone] at hlive
  cases hlive

end StackState

namespace Kernel

/-- The free list is in order, no recorded stack wraps around, and both keep to
multiples of `m`. -/
structure RoomOk (m : ℕ) (k : Kernel) : Prop where
  free : ∃ l, FreeListInvariant k.bounds k.mem l ∧ OnGrid m l
  recorded : ∀ p, (k.stackOf p).addr ≠ 0 →
    (k.stackOf p).addr + roundUp (k.stackOf p).nbytes < ulongSize ∧
      m ∣ (k.stackOf p).addr ∧ m ∣ roundUp (k.stackOf p).nbytes

/-- A slot of the process table apart from its link on the ready list. -/
def entry (k : Kernel) (p : Slot) : ProcEnt := { k.proctab p with next := none }

/-- The ready list and the free list are in order, and no recorded stack wraps around. -/
structure Intact (k : Kernel) : Prop where
  scheduled : k.Scheduled
  room : RoomOk 1 k

variable {k k' : Kernel}

namespace RoomOk

variable {p : Slot} {m : ℕ}

theorem congr (h : RoomOk m k) (hk : k'.unscheduled = k.unscheduled) : RoomOk m k' where
  free := by
    rw [of_unscheduled bounds (fun _ => rfl) hk, of_unscheduled mem (fun _ => rfl) hk]
    exact h.free
  recorded := by
    rw [of_unscheduled stackOf (fun _ => rfl) hk]
    exact h.recorded

/-- A release by the kernel or by anyone else. -/
theorem free_after_freemem (h : RoomOk m k) {blk n : ℕ} {r : ℤ} {mem : Loc → ℕ}
    (hfits : blk + roundUp n < ulongSize) (hm : m ∣ blk ∧ m ∣ roundUp n)
    (hrun : (Memory.freemem k.bounds blk n).run headerCells k.mem = (some r, mem)) :
    ∃ l, FreeListInvariant k.bounds mem l ∧ OnGrid m l := by
  obtain ⟨l, hl, hgrid⟩ := h.free
  rcases hl.freemem_spec hfits hrun with rfl | ⟨l', hl', hrel⟩
  · exact ⟨l, hl, hgrid⟩
  · exact ⟨l', hl', hgrid.released hm hrel⟩

theorem freeStack (h : RoomOk m k) (hfree : k.freeStack p = some k') : RoomOk m k' := by
  rcases freeStack_eq hfree with ⟨-, rfl⟩ | ⟨h0, r, hrun, hk⟩
  · exact h
  · obtain ⟨hfits, hm⟩ := h.recorded p h0
    have hfree' := h.free_after_freemem hfits hm hrun
    rw [hk]
    exact ⟨hfree', h.recorded⟩

/-- Clearing a record. -/
theorem modify (h : RoomOk m k) {f : ProcEnt → ProcEnt} (hf : (f (k.proctab p)).stkbase = 0) :
    RoomOk m (k.modify p f) := by
  refine ⟨h.free, fun q hq => ?_⟩
  by_cases hqp : q = p
  · subst hqp
    exact absurd (by simpa [stackOf, Kernel.modify] using hf) hq
  · have hother : (k.modify p f).stackOf q = k.stackOf q := by simp [stackOf, Kernel.modify, hqp]
    rw [hother] at hq ⊢
    exact h.recorded q hq

theorem kill (h : RoomOk m k) {pid : ℤ} (hk : k.procKill pid = some k') : RoomOk m k' := by
  rcases procKill_cases hk with ⟨rfl, -⟩ | ⟨p, k₁, k₂, -, -, hrem, hfree, rfl⟩
  · exact h
  · have h₁ : RoomOk m k₁ := h.congr (readyRemoveLoop_unscheduled hrem)
    have h₂ : RoomOk m (k₁.dropLockOf pid) := by
      unfold dropLockOf
      split_ifs
      · exact ⟨h₁.free, h₁.recorded⟩
      · exact h₁
    exact (h₂.freeStack hfree).modify rfl

end RoomOk

/-- A creation records a stack of the size that it asks for, and may clear a record. -/
theorem create_nbytes {entry : ProcEntry} {n : ℕ} {name : List Char} {arg r : ℤ}
    (hc : k.procCreateArg entry n name arg = some (r, k')) (q : Slot) :
    (k'.stackOf q).nbytes = (k.stackOf q).nbytes ∨ (k'.stackOf q).nbytes = 0 ∨
      (k'.stackOf q).nbytes = stackSize n := by
  rcases procCreateArg_cases hc with ⟨-, -, rfl⟩ | ⟨p, k₁, stk, k₂, -, hreap, hget, hres⟩
  · exact Or.inl rfl
  have hreaped : (k₁.stackOf q).nbytes = (k.stackOf q).nbytes ∨ (k₁.stackOf q).nbytes = 0 := by
    unfold reapStack at hreap
    split_ifs at hreap with h0
    · cases hreap
      exact Or.inl rfl
    · obtain ⟨k₀, hfree, rfl⟩ := Option.map_eq_some_iff.mp hreap
      have htab := (freeStack_sched hfree).1
      by_cases hqp : q = p
      · subst hqp
        exact Or.inr (by simp [stackOf, modify])
      · exact Or.inl (by simp [stackOf, modify, hqp, htab])
  have hsame : k₂.stackOf q = k₁.stackOf q := by
    rw [(getmem_eq hget).2]
    rfl
  rcases hres with ⟨-, -, rfl⟩ | ⟨-, -, rfl⟩
  · rw [hsame]
    tauto
  · rw [of_unscheduled stackOf (fun _ => rfl) (readyPush_unscheduled _ p)]
    by_cases hqp : q = p
    · subst hqp
      exact Or.inr (Or.inr (by simp [stackOf, install, modify, newProcent]))
    · have hother : (k₂.install p stk (stackSize n) entry name arg).stackOf q = k₂.stackOf q := by
        simp [stackOf, install, modify, hqp]
      rw [hother, hsame]
      tauto

@[simp] theorem setNext_entry (k : Kernel) (p q : Slot) (r : Option Slot) :
    (k.setNext p r).entry q = k.entry q := by
  by_cases hq : q = p
  · subst hq
    simp [entry, setNext, modify]
  · simp [entry, setNext, modify, hq]

theorem readyUnlink_entry (k : Kernel) (prev : Option Slot) (curr q : Slot) :
    (k.readyUnlink prev curr).entry q = k.entry q := by
  rw [readyUnlink, setNext_entry]
  cases prev with
  | none => rfl
  | some p => exact setNext_entry k p q _

theorem readyRemoveLoop_entry {p : Slot} {fuel : ℕ} {prev curr : Option Slot}
    (h : k.readyRemoveLoop p fuel prev curr = some k') (q : Slot) : k'.entry q = k.entry q := by
  induction fuel generalizing prev curr with
  | zero =>
    cases curr with
    | none =>
      cases h
      rfl
    | some c => simp [readyRemoveLoop] at h
  | succ fuel ih =>
    cases curr with
    | none =>
      cases h
      rfl
    | some c =>
      simp only [readyRemoveLoop] at h
      split_ifs at h with hc
      · cases h
        exact readyUnlink_entry ..
      · exact ih h

theorem RoomOk.freeStack_returns {m : ℕ} (h : RoomOk m k) (p : Slot) :
    ∃ k', k.freeStack p = some k' := by
  unfold Kernel.freeStack
  split_ifs with h0
  · exact ⟨k, rfl⟩
  · obtain ⟨l, hl, -⟩ := h.free
    obtain ⟨r, mem, hrun⟩ := freemem_returns headerCells k.mem hl (k.proctab p).stkbase
      (k.proctab p).stklen
    simp only [Kernel.freemem, hrun, Option.map_some]
    exact ⟨_, rfl⟩

@[simp] theorem dropLockOf_proctab (k : Kernel) (pid : ℤ) :
    (k.dropLockOf pid).proctab = k.proctab := by
  unfold dropLockOf
  split_ifs <;> rfl

/-- `proc_kill` ends the process of the pid, if there is one that is not current, and
touches no other one. -/
theorem Intact.procKill (h : k.Intact) (pid : ℤ) :
    ∃ k', k.procKill pid = some k' ∧ k'.Intact ∧ k'.currpid = k.currpid ∧
      (∀ p, slotOf pid = some p → p ≠ k.currpid → k'.state p = .free) ∧
      ∀ p, slotOf pid ≠ some p ∨ p = k.currpid ∨ k.state p = .free →
        k'.entry p = k.entry p := by
  obtain ⟨k', hk⟩ : ∃ k', k.procKill pid = some k' := by
    unfold Kernel.procKill
    cases slotOf pid with
    | none => exact ⟨k, rfl⟩
    | some p =>
      dsimp only
      split_ifs with hp
      · exact ⟨k, rfl⟩
      · obtain ⟨a, hsim, -⟩ := h.scheduled
        obtain ⟨k₁, hrem, -⟩ := hsim.remove p
        have h₁ : RoomOk 1 (k₁.dropLockOf pid) := by
          have hroom := h.room.congr (readyRemoveLoop_unscheduled hrem)
          unfold dropLockOf
          split_ifs
          · exact ⟨hroom.free, hroom.recorded⟩
          · exact hroom
        obtain ⟨k₂, hfree⟩ := h₁.freeStack_returns p
        simp only [hrem, hfree, Option.bind_eq_bind, Option.bind_some]
        exact ⟨_, rfl⟩
  have hkill := procKill_kills h.scheduled hk
  refine ⟨k', hk, ⟨hkill.scheduled, h.room.kill hk⟩, hkill.currpid_eq, ?_, ?_⟩
  · intro p hp hne
    rw [hkill.state_eq, if_pos ⟨hp, hne⟩]
  · intro p hp
    rcases procKill_cases hk with ⟨rfl, -⟩ | ⟨q, k₁, k₂, hq, hqc, hrem, hfree, rfl⟩
    · rfl
    · have hpq : p ≠ q := by
        rintro rfl
        exact hp.elim (fun hne => hne hq) hqc
      have htab : k₂.proctab = k₁.proctab := by
        rw [(freeStack_sched hfree).1, dropLockOf_proctab]
      have hentry := readyRemoveLoop_entry hrem p
      rw [← hentry]
      simp [entry, vacate, modify, hpq, htab]

theorem state_of_entry {p : Slot} (h : k'.entry p = k.entry p) : k'.state p = k.state p := by
  change (k'.entry p).state = (k.entry p).state
  rw [h]

theorem Intact.curr_alive (h : k.Intact) : k.state k.currpid ≠ .free := by
  obtain ⟨a, hsim, hok⟩ := h.scheduled
  rw [hsim.curr_eq, hsim.state_eq, hok.curr_state]
  decide

end Kernel

/-- The stacks of the ledger lie in the heap. -/
theorem Ledger.roomOk {k : Kernel} {clients : List LiveBlk} (h : Ledger k clients)
    (hsize : ∀ p, (k.stackOf p).nbytes + 7 < ulongSize) : k.RoomOk 1 := by
  obtain ⟨l, hl⟩ := h.heap
  refine ⟨⟨l, hl.freeList, by simp [OnGrid]⟩, fun p hp => ⟨?_, one_dvd _, one_dvd _⟩⟩
  have hin := (hl.live_inside _ (List.mem_map_of_mem (List.mem_append_left _ (h.held p hp)))).2
  have hhi := hl.heapHi_lt
  have hround : roundmb (k.stackOf p).nbytes = roundUp (k.stackOf p).nbytes := by
    rw [roundmb, uadd_eq (hsize p), roundUp]
  simp only [LiveBlk.extent, MemBlk.stop, hround] at hin
  omega

end XinuRpi4.Process
