import XinuRpi4.Process.Scheduler
import XinuRpi4.Foundation.LinkedSegment

/-!
# The kernel simulates the scheduler

The list that is threaded through the process table is the queue of the
abstract scheduler. Each function of `proc.c` does to the table what the
corresponding operation does to queue, states and current process, and leaves
everything else as it was.
-/

namespace XinuRpi4.Process

open Foundation

/-- A slot without what the scheduler writes. -/
def ProcEnt.unscheduled (e : ProcEnt) : ProcEnt :=
  { e with state := .free, next := none, sp := 0 }

/-- The kernel without what the scheduler writes. -/
def Kernel.unscheduled (k : Kernel) : Kernel :=
  { k with
    proctab := fun p => (k.proctab p).unscheduled
    currpid := nullproc, readyHead := none, readyTail := none
    reschedPending := false, ctxswCount := 0, sp := 0 }

namespace Kernel

variable {k : Kernel} {p q : Slot}

/-- What does not read the scheduler's part survives a step of the scheduler. -/
theorem of_unscheduled {β : Type*} {k' : Kernel} (f : Kernel → β)
    (hf : ∀ k, f k.unscheduled = f k) (h : k'.unscheduled = k.unscheduled) : f k' = f k := by
  rw [← hf k', h, hf k]

theorem modify_state_of {f : ProcEnt → ProcEnt}
    (h : (f (k.proctab p)).state = (k.proctab p).state) : (k.modify p f).state = k.state := by
  funext q
  by_cases hq : q = p
  · subst hq
    simpa [modify, state] using h
  · simp [modify, state, hq]

theorem modify_next_of {f : ProcEnt → ProcEnt}
    (h : (f (k.proctab p)).next = (k.proctab p).next) : (k.modify p f).next = k.next := by
  funext q
  by_cases hq : q = p
  · subst hq
    simpa [modify, next] using h
  · simp [modify, next, hq]

theorem modify_unscheduled_of {f : ProcEnt → ProcEnt}
    (h : (f (k.proctab p)).unscheduled = (k.proctab p).unscheduled) :
    (k.modify p f).unscheduled = k.unscheduled := by
  have htab : (fun q => ((k.modify p f).proctab q).unscheduled) =
      fun q => (k.proctab q).unscheduled := by
    funext q
    by_cases hq : q = p
    · subst hq
      simpa [modify] using h
    · simp [modify, hq]
  simp only [unscheduled, htab]
  rfl

@[simp] theorem setState_state (k : Kernel) (p : Slot) (st : ProcState) :
    (k.setState p st).state = Function.update k.state p st := by
  funext q
  by_cases hq : q = p
  · subst hq
    simp [setState, modify, state]
  · simp [setState, modify, state, hq]

@[simp] theorem setNext_next (k : Kernel) (p : Slot) (r : Option Slot) :
    (k.setNext p r).next = Function.update k.next p r := by
  funext q
  by_cases hq : q = p
  · subst hq
    simp [setNext, modify, next]
  · simp [setNext, modify, next, hq]

@[simp] theorem setState_next (k : Kernel) (p : Slot) (st : ProcState) :
    (k.setState p st).next = k.next := modify_next_of rfl

@[simp] theorem setNext_state (k : Kernel) (p : Slot) (r : Option Slot) :
    (k.setNext p r).state = k.state := modify_state_of rfl

@[simp] theorem ctxsw_state (k : Kernel) (p q : Slot) : (k.ctxsw p q).state = k.state :=
  modify_state_of (k := k) (p := p) (f := fun e => { e with sp := k.sp }) rfl

@[simp] theorem ctxsw_next (k : Kernel) (p q : Slot) : (k.ctxsw p q).next = k.next :=
  modify_next_of (k := k) (p := p) (f := fun e => { e with sp := k.sp }) rfl

@[simp] theorem setState_unscheduled (k : Kernel) (p : Slot) (st : ProcState) :
    (k.setState p st).unscheduled = k.unscheduled := modify_unscheduled_of rfl

@[simp] theorem setNext_unscheduled (k : Kernel) (p : Slot) (r : Option Slot) :
    (k.setNext p r).unscheduled = k.unscheduled := modify_unscheduled_of rfl

@[simp] theorem ctxsw_unscheduled (k : Kernel) (p q : Slot) :
    (k.ctxsw p q).unscheduled = k.unscheduled :=
  modify_unscheduled_of (k := k) (p := p) (f := fun e => { e with sp := k.sp }) rfl

@[simp] theorem setNextOf_state (k : Kernel) (q r : Option Slot) :
    (k.setNextOf q r).state = k.state := by
  cases q with
  | none => rfl
  | some q => exact setNext_state k q r

@[simp] theorem setNextOf_unscheduled (k : Kernel) (q r : Option Slot) :
    (k.setNextOf q r).unscheduled = k.unscheduled := by
  cases q with
  | none => rfl
  | some q => exact setNext_unscheduled k q r

@[simp] theorem setNextOf_currpid (k : Kernel) (q r : Option Slot) :
    (k.setNextOf q r).currpid = k.currpid := by
  cases q <;> rfl

theorem readyPush_of_empty (h : k.readyHead = none) (p : Slot) :
    k.readyPush p = { k.setNext p none with readyHead := some p, readyTail := some p } := by
  simp only [readyPush, h]

theorem readyPush_of_head {s : Slot} (h : k.readyHead = some s) (p : Slot) :
    k.readyPush p =
      { (k.setNext p none).setNextOf k.readyTail (some p) with readyTail := some p } := by
  simp only [readyPush, h]

theorem readyPop_of_head (h : k.readyHead = some p) :
    k.readyPop = some (p,
      { k with
        readyHead := k.next p
        readyTail := if k.next p = none then none else k.readyTail }.setNext p none) := by
  simp only [readyPop, h]

@[simp] theorem readyPush_state (k : Kernel) (p : Slot) : (k.readyPush p).state = k.state := by
  cases h : k.readyHead with
  | none =>
    rw [readyPush_of_empty h]
    exact setNext_state k p none
  | some s =>
    rw [readyPush_of_head h]
    exact (setNextOf_state _ _ _).trans (setNext_state k p none)

@[simp] theorem readyPush_currpid (k : Kernel) (p : Slot) :
    (k.readyPush p).currpid = k.currpid := by
  cases h : k.readyHead with
  | none =>
    rw [readyPush_of_empty h]
    rfl
  | some s =>
    rw [readyPush_of_head h]
    exact setNextOf_currpid ..

@[simp] theorem readyPush_unscheduled (k : Kernel) (p : Slot) :
    (k.readyPush p).unscheduled = k.unscheduled := by
  cases h : k.readyHead with
  | none =>
    rw [readyPush_of_empty h]
    exact setNext_unscheduled k p none
  | some s =>
    rw [readyPush_of_head h]
    exact (setNextOf_unscheduled _ _ _).trans (setNext_unscheduled k p none)

@[simp] theorem readyUnlink_state (k : Kernel) (prev : Option Slot) (p : Slot) :
    (k.readyUnlink prev p).state = k.state :=
  (setNext_state _ p none).trans (setNextOf_state k prev (k.next p))

@[simp] theorem readyUnlink_currpid (k : Kernel) (prev : Option Slot) (p : Slot) :
    (k.readyUnlink prev p).currpid = k.currpid :=
  setNextOf_currpid k prev (k.next p)

@[simp] theorem readyUnlink_unscheduled (k : Kernel) (prev : Option Slot) (p : Slot) :
    (k.readyUnlink prev p).unscheduled = k.unscheduled :=
  (setNext_unscheduled _ p none).trans (setNextOf_unscheduled k prev (k.next p))

theorem readyPop_unscheduled {k' : Kernel} (h : k.readyPop = some (p, k')) :
    k'.unscheduled = k.unscheduled := by
  cases hhead : k.readyHead with
  | none => simp [readyPop, hhead] at h
  | some q =>
    rw [readyPop_of_head hhead] at h
    cases h
    exact setNext_unscheduled _ p none

theorem readyRemoveLoop_unscheduled {k' : Kernel} {fuel : ℕ} {prev curr : Option Slot}
    (h : k.readyRemoveLoop p fuel prev curr = some k') : k'.unscheduled = k.unscheduled := by
  induction fuel generalizing prev curr with
  | zero =>
    cases curr with
    | none =>
      cases h
      rfl
    | some c => simp [readyRemoveLoop] at h
  | succ fuel ih =>
    cases curr with
    | none =>
      cases h
      rfl
    | some c =>
      simp only [readyRemoveLoop] at h
      split_ifs at h with hc
      · cases h
        exact readyUnlink_unscheduled ..
      · exact ih h

@[simp] theorem makeCurrent_unscheduled (k : Kernel) (p : Slot) :
    (k.makeCurrent p).unscheduled = k.unscheduled := setState_unscheduled k p .curr

@[simp] theorem park_unscheduled (k : Kernel) : k.park.unscheduled = k.unscheduled := by
  unfold park
  split_ifs with h
  · rw [readyPush_unscheduled, setState_unscheduled]
  · rfl

@[simp] theorem procReady_unscheduled (k : Kernel) (pid : ℤ) :
    (k.procReady pid).unscheduled = k.unscheduled := by
  unfold procReady
  cases slotOf pid with
  | none => rfl
  | some p =>
    simp only
    split_ifs with h
    · rfl
    · rw [readyPush_unscheduled, setState_unscheduled]

@[simp] theorem procResched_unscheduled (k : Kernel) :
    k.procResched.unscheduled = k.unscheduled := by
  unfold procResched
  cases h : k.readyPop with
  | none => rfl
  | some r =>
    obtain ⟨p, k'⟩ := r
    rw [ctxsw_unscheduled, ← readyPop_unscheduled h, ← park_unscheduled k']
    exact makeCurrent_unscheduled k'.park p

@[simp] theorem procPreempt_unscheduled (k : Kernel) :
    k.procPreempt.unscheduled = k.unscheduled := by
  unfold procPreempt
  split_ifs
  · rfl
  · rfl
  · rw [procResched_unscheduled]
    rfl
  · rfl

@[simp] theorem dispatchNext_unscheduled (k : Kernel) :
    k.dispatchNext.unscheduled = k.unscheduled := by
  unfold dispatchNext
  cases h : k.readyPop with
  | none => exact makeCurrent_unscheduled k nullproc
  | some r =>
    obtain ⟨p, k'⟩ := r
    rw [← readyPop_unscheduled h]
    exact makeCurrent_unscheduled k' p

@[simp] theorem procBlock_unscheduled (k : Kernel) : k.procBlock.unscheduled = k.unscheduled := by
  unfold procBlock
  rw [ctxsw_unscheduled, dispatchNext_unscheduled, setState_unscheduled]

theorem procExit_unscheduled {k' : Kernel} (h : k.procExit = some k') :
    k'.unscheduled = k.unscheduled := by
  obtain ⟨k₁, hrem, rfl⟩ := Option.map_eq_some_iff.mp h
  rw [← setState_unscheduled k k.currpid .free, ← readyRemoveLoop_unscheduled hrem]
  exact dispatchNext_unscheduled k₁

theorem allocSlotLoop_spec {fuel i : ℕ} (h : k.allocSlotLoop fuel i = some p) :
    i ≤ p.val ∧ k.state p = .free := by
  induction fuel generalizing i with
  | zero => simp [allocSlotLoop] at h
  | succ fuel ih =>
    simp only [allocSlotLoop] at h
    split_ifs at h with hi hfree
    · cases h
      exact ⟨le_rfl, hfree⟩
    · have := ih h
      exact ⟨by omega, this.2⟩

/-- `alloc_slot` finds a free slot other than the null process. -/
theorem allocSlot_spec (h : k.allocSlot = some p) : p ≠ nullproc ∧ k.state p = .free := by
  obtain ⟨hp, hfree⟩ := allocSlotLoop_spec h
  refine ⟨?_, hfree⟩
  rintro rfl
  simp at hp

/-- What a heap call of the kernel changes. -/
theorem getmem_eq {n stk : ℕ} {k' : Kernel} (h : k.getmem n = some (stk, k')) :
    (Memory.getmem n).run Memory.headerCells k.mem = (some stk, k'.mem) ∧
      k' = { k with mem := k'.mem } := by
  unfold getmem at h
  split at h
  · cases h
  · next p mem hrun =>
    cases h
    exact ⟨hrun, rfl⟩

theorem freeStack_eq {k' : Kernel} (h : k.freeStack p = some k') :
    (k.proctab p).stkbase = 0 ∧ k' = k ∨
      (k.proctab p).stkbase ≠ 0 ∧ ∃ r,
        (Memory.freemem k.bounds (k.proctab p).stkbase (k.proctab p).stklen).run
            Memory.headerCells k.mem = (some r, k'.mem) ∧
          k' = { k with
            mem := k'.mem
            stackLog := .free ⟨(k.proctab p).stkbase, (k.proctab p).stklen⟩ :: k.stackLog } := by
  unfold freeStack at h
  split_ifs at h with h0
  · cases h
    exact Or.inl ⟨h0, rfl⟩
  · refine Or.inr ⟨h0, ?_⟩
    obtain ⟨k₁, hfree, rfl⟩ := Option.map_eq_some_iff.mp h
    unfold freemem at hfree
    split at hfree
    · cases hfree
    · next r mem hrun =>
      cases hfree
      exact ⟨r, hrun, rfl⟩

/-- A stack release leaves the table, the list and the current process alone. -/
theorem freeStack_sched {k' : Kernel} (h : k.freeStack p = some k') :
    k'.proctab = k.proctab ∧ k'.readyHead = k.readyHead ∧ k'.readyTail = k.readyTail ∧
      k'.currpid = k.currpid := by
  rcases freeStack_eq h with ⟨-, rfl⟩ | ⟨-, r, -, hk⟩
  · exact ⟨rfl, rfl, rfl, rfl⟩
  · rw [hk]
    exact ⟨rfl, rfl, rfl, rfl⟩

/-- The two ways `proc_kill` returns. -/
theorem procKill_cases {pid : ℤ} {k' : Kernel} (h : k.procKill pid = some k') :
    (k' = k ∧ ∀ p, slotOf pid = some p → p = k.currpid ∨ k.state p = .free) ∨
      ∃ p k₁ k₂, slotOf pid = some p ∧ ¬ (p = k.currpid ∨ k.state p = .free) ∧
        k.readyRemove p = some k₁ ∧ (k₁.dropLockOf pid).freeStack p = some k₂ ∧
        k' = k₂.vacate p := by
  unfold procKill at h
  cases hs : slotOf pid with
  | none =>
    rw [hs] at h
    cases h
    exact Or.inl ⟨rfl, by simp⟩
  | some p =>
    simp only [hs] at h
    split_ifs at h with hp
    · cases h
      refine Or.inl ⟨rfl, ?_⟩
      rintro _ ⟨⟩
      exact hp
    · obtain ⟨k₁, hrem, h⟩ := Option.bind_eq_some_iff.mp h
      obtain ⟨k₂, hfree, h⟩ := Option.bind_eq_some_iff.mp h
      cases h
      exact Or.inr ⟨p, k₁, k₂, rfl, hp, hrem, hfree, rfl⟩

/-- The three ways `proc_create_arg` returns: no slot, no memory, a new process. -/
theorem procCreateArg_cases {entry : ProcEntry} {n : ℕ} {name : List Char} {arg r : ℤ}
    {k' : Kernel} (h : k.procCreateArg entry n name arg = some (r, k')) :
    (k.allocSlot = none ∧ r = -1 ∧ k' = k) ∨
      ∃ p k₁ stk k₂, k.allocSlot = some p ∧ k.reapStack p = some k₁ ∧
        k₁.getmem (stackSize n) = some (stk, k₂) ∧
        (stk = 0 ∧ r = -1 ∧ k' = k₂ ∨
          stk ≠ 0 ∧ r = p.val ∧
            k' = (k₂.install p stk (stackSize n) entry name arg).readyPush p) := by
  unfold procCreateArg at h
  cases ha : k.allocSlot with
  | none =>
    rw [ha] at h
    cases h
    exact Or.inl ⟨rfl, rfl, rfl⟩
  | some p =>
    simp only [ha] at h
    obtain ⟨k₁, hreap, h⟩ := Option.bind_eq_some_iff.mp h
    obtain ⟨⟨stk, k₂⟩, hget, h⟩ := Option.bind_eq_some_iff.mp h
    refine Or.inr ⟨p, k₁, stk, k₂, rfl, hreap, hget, ?_⟩
    simp only at h
    split_ifs at h with h0
    · cases h
      exact Or.inl ⟨h0, rfl, rfl⟩
    · cases h
      exact Or.inr ⟨h0, rfl, rfl⟩

end Kernel

/-- The list in the process table is the queue `l`. -/
structure ReadyChain (k : Kernel) (l : List Slot) : Prop where
  chain : Segment k.next k.readyHead l none
  tail : k.readyTail = l.getLast?
  nodup : l.Nodup

namespace ReadyChain

variable {k : Kernel} {l pre post : List Slot} {p : Slot}

theorem push (h : ReadyChain k l) (hp : p ∉ l) : ReadyChain (k.readyPush p) (l ++ [p]) := by
  obtain ⟨hchain, htail, hnd⟩ := h
  have hnd' : (l ++ [p]).Nodup := by
    rw [← List.concat_eq_append, List.nodup_concat]
    exact ⟨hp, hnd⟩
  rcases List.eq_nil_or_concat' l with rfl | ⟨l, t, rfl⟩
  · have hhead : k.readyHead = none := hchain
    have hnext : (k.readyPush p).next p = none := by
      rw [Kernel.readyPush_of_empty hhead]
      exact congrFun (Kernel.setNext_next k p none) p |>.trans (by simp)
    constructor
    · rw [Kernel.readyPush_of_empty hhead] at hnext ⊢
      exact ⟨rfl, hnext⟩
    · rw [Kernel.readyPush_of_empty hhead]
      rfl
    · exact hnd'
  · obtain ⟨s, hs⟩ : ∃ s, k.readyHead = some s := by
      cases l with
      | nil => exact ⟨t, hchain.1⟩
      | cons s l => exact ⟨s, hchain.1⟩
    have ht : k.readyTail = some t := by simpa using htail
    have hpush : k.readyPush p =
        { (k.setNext p none).setNext t (some p) with readyTail := some p } := by
      rw [Kernel.readyPush_of_head hs, ht]
      rfl
    have hnext : (k.readyPush p).next =
        Function.update (Function.update k.next p none) t (some p) := by
      rw [hpush]
      exact (Kernel.setNext_next _ t (some p)).trans (by rw [Kernel.setNext_next])
    have hhead : (k.readyPush p).readyHead = k.readyHead := by
      rw [hpush]
      rfl
    have htl : t ∉ l := by
      rw [← List.concat_eq_append, List.nodup_concat] at hnd
      exact hnd.1
    constructor
    · rw [hnext, hhead, Segment.concat_iff]
      constructor
      · apply Segment.relink (q := none) _ htl
        rwa [Segment.update_of_notMem hp]
      · have hpt : p ≠ t := by
          rintro rfl
          exact hp (by simp)
        rw [Function.update_of_ne hpt, Function.update_self]
    · rw [hpush]
      simp
    · exact hnd'

theorem pop_nil (h : ReadyChain k []) : k.readyPop = none := by
  have hhead : k.readyHead = none := h.chain
  simp only [Kernel.readyPop, hhead]

theorem pop_cons (h : ReadyChain k (p :: l)) :
    ∃ k', k.readyPop = some (p, k') ∧ ReadyChain k' l ∧ k'.state = k.state ∧
      k'.currpid = k.currpid := by
  obtain ⟨⟨hhead, hchain⟩, htail, hnd⟩ := h
  obtain ⟨hpl, hnd⟩ := List.nodup_cons.mp hnd
  have hnext := hchain.head?_eq
  refine ⟨_, Kernel.readyPop_of_head hhead, ⟨?_, ?_, hnd⟩, ?_, rfl⟩
  · rw [Kernel.setNext_next, Segment.update_of_notMem hpl]
    exact hchain
  · cases l with
    | nil =>
      have h0 : k.next p = none := hnext
      exact if_pos h0
    | cons q l =>
      have h0 : k.next p ≠ none := by simp [hnext]
      exact (if_neg h0).trans htail
  · rw [Kernel.setNext_state]
    rfl

/-- Taking a node out of the middle of the list. -/
theorem unlink (h : ReadyChain k (pre ++ p :: post)) :
    ReadyChain (k.readyUnlink pre.getLast? p) (pre ++ post) := by
  obtain ⟨hchain, htail, hnd⟩ := h
  obtain ⟨hp, hndl⟩ := List.nodup_cons.mp (List.nodup_middle.mp hnd)
  have hpPre : p ∉ pre := fun hm => hp (by simp [hm])
  have hpPost : p ∉ post := fun hm => hp (by simp [hm])
  obtain ⟨r, hpre, rfl, hpost⟩ := Segment.append_iff.mp hchain
  have hnil : post = [] ↔ k.readyTail = some p := by
    rw [htail]
    rcases List.eq_nil_or_concat' post with rfl | ⟨post, t, rfl⟩
    · simp
    · have ht : t ≠ p := by
        rintro rfl
        exact hpPost (by simp)
      have hlast : (pre ++ p :: (post ++ [t])).getLast? = some t := by
        rw [← List.cons_append, ← List.append_assoc]
        exact List.getLast?_concat ..
      rw [hlast]
      simp [ht]
  have htail' : ∀ prev, pre.getLast? = prev →
      (if k.readyTail = some p then prev else k.readyTail) = (pre ++ post).getLast? := by
    intro prev hprev
    by_cases hpost0 : post = []
    · rw [if_pos (hnil.mp hpost0), hpost0, List.append_nil, hprev]
    · rw [if_neg fun h => hpost0 (hnil.mpr h), htail]
      rw [List.getLast?_append_of_ne_nil _ (by simp), List.getLast?_append_of_ne_nil _ hpost0,
        List.getLast?_cons_of_ne_nil hpost0]
  rcases List.eq_nil_or_concat' pre with rfl | ⟨pre, q, rfl⟩
  · refine ⟨?_, htail' none rfl, hndl⟩
    rw [Kernel.readyUnlink, Kernel.setNext_next, List.nil_append, Segment.update_of_notMem hpPost]
    exact hpost
  · have hlast : (pre ++ [q]).getLast? = some q := by simp
    rw [hlast]
    refine ⟨?_, htail' (some q) hlast, hndl⟩
    have hq : q ∉ pre ∧ q ∉ post := by
      rw [List.append_assoc, List.singleton_append] at hndl
      have := (List.nodup_cons.mp (List.nodup_middle.mp hndl)).1
      simpa using this
    have hnext : (k.setNext q (k.next p)).next = Function.update k.next q (k.next p) :=
      Kernel.setNext_next k q _
    rw [Kernel.readyUnlink, Kernel.setNext_next, Segment.update_of_notMem hp]
    change Segment (k.setNext q (k.next p)).next k.readyHead _ none
    rw [hnext, Segment.append_iff]
    refine ⟨k.next p, hpre.relink hq.1, ?_⟩
    rwa [Segment.update_of_notMem hq.2]

/-- The walk of `ready_remove` behind `pre`. -/
theorem removeLoop (h : ReadyChain k (pre ++ post)) (hp : p ∉ pre) (fuel : ℕ) {curr : Option Slot}
    (hseg : Segment k.next curr post none) (hfuel : post.length ≤ fuel) :
    ∃ k', k.readyRemoveLoop p fuel pre.getLast? curr = some k' ∧
      ReadyChain k' ((pre ++ post).erase p) ∧ k'.state = k.state ∧ k'.currpid = k.currpid := by
  induction post generalizing pre fuel curr with
  | nil =>
    have hcurr : curr = none := hseg
    rw [List.append_nil] at h
    rw [List.append_nil, List.erase_of_not_mem hp, hcurr]
    exact ⟨k, by simp [Kernel.readyRemoveLoop], h, rfl, rfl⟩
  | cons c post ih =>
    obtain ⟨rfl, hseg⟩ := hseg
    obtain ⟨fuel, rfl⟩ : ∃ n, fuel = n + 1 := ⟨fuel - 1, by simp at hfuel; omega⟩
    by_cases hc : c = p
    · subst hc
      refine ⟨k.readyUnlink pre.getLast? c, by simp [Kernel.readyRemoveLoop], ?_,
        Kernel.readyUnlink_state .., Kernel.readyUnlink_currpid ..⟩
      rw [List.erase_append_right _ hp, List.erase_cons_head]
      exact h.unlink
    · have hstep : k.readyRemoveLoop p (fuel + 1) pre.getLast? (some c) =
          k.readyRemoveLoop p fuel (pre ++ [c]).getLast? (k.next c) := by
        simp [Kernel.readyRemoveLoop, hc]
      rw [hstep]
      have hpre : pre ++ c :: post = (pre ++ [c]) ++ post := by simp
      rw [hpre] at h ⊢
      refine ih h ?_ fuel hseg (by simpa using hfuel)
      simp [hp, Ne.symm hc]

/-- `ready_remove` returns, and takes the target out if it is there. -/
theorem remove (h : ReadyChain k l) (p : Slot) :
    ∃ k', k.readyRemove p = some k' ∧ ReadyChain k' (l.erase p) ∧ k'.state = k.state ∧
      k'.currpid = k.currpid := by
  have hlen : l.length ≤ nproc := by simpa using h.nodup.length_le_card
  have h' : ReadyChain k ([] ++ l) := h
  simpa [Kernel.readyRemove] using h'.removeLoop (p := p) (by simp) nproc h.chain hlen

/-- Only links and ends are part of the list. -/
theorem congr {k' : Kernel} (h : ReadyChain k l) (hnext : k'.next = k.next)
    (hhead : k'.readyHead = k.readyHead) (htail : k'.readyTail = k.readyTail) :
    ReadyChain k' l :=
  ⟨by rw [hnext, hhead]; exact h.chain, htail.trans h.tail, h.nodup⟩

end ReadyChain

/-- The kernel holds the abstract scheduler `a`. -/
structure Simulates (k : Kernel) (a : Sched) : Prop extends ReadyChain k a.ready where
  state_eq : k.state = a.state
  curr_eq : k.currpid = a.curr

namespace Simulates

variable {k : Kernel} {a : Sched}

/-- Appending a process that is not queued, in any new state. -/
theorem setState_push (h : Simulates k a) {p : Slot} (st : ProcState) (hp : p ∉ a.ready) :
    Simulates ((k.setState p st).readyPush p)
      { a with state := Function.update a.state p st, ready := a.ready ++ [p] } where
  toReadyChain := by
    have hchain : ReadyChain (k.setState p st) a.ready :=
      h.toReadyChain.congr (Kernel.setState_next k p st) rfl rfl
    exact hchain.push hp
  state_eq := by rw [Kernel.readyPush_state, Kernel.setState_state, h.state_eq]
  curr_eq := (Kernel.readyPush_currpid _ _).trans h.curr_eq

/-- `proc_ready`. -/
theorem procReady (h : Simulates k a) (hok : a.Ok) (pid : ℤ) :
    Simulates (k.procReady pid) ((Kernel.slotOf pid).elim a a.wake) := by
  unfold Kernel.procReady
  cases hs : Kernel.slotOf pid with
  | none => exact h
  | some p =>
    simp only [Option.elim, Sched.wake, h.state_eq]
    split_ifs with hst
    · exact h
    · apply h.setState_push
      rw [hok.mem_iff]
      tauto

/-- Counters, the lock and the heap are no part of the scheduler. -/
theorem congr {k' : Kernel} (h : Simulates k a) (htab : k'.proctab = k.proctab)
    (hhead : k'.readyHead = k.readyHead) (htail : k'.readyTail = k.readyTail)
    (hcurr : k'.currpid = k.currpid) : Simulates k' a where
  toReadyChain := h.toReadyChain.congr (by unfold Kernel.next; rw [htab]) hhead htail
  state_eq := by
    rw [← h.state_eq]
    unfold Kernel.state
    rw [htab]
  curr_eq := hcurr.trans h.curr_eq

theorem pop_empty (h : Simulates k a) (hready : a.ready = []) : k.readyPop = none := by
  have hchain := h.toReadyChain
  rw [hready] at hchain
  exact hchain.pop_nil

theorem pop {p : Slot} {l : List Slot} (h : Simulates k a) (hready : a.ready = p :: l) :
    ∃ k', k.readyPop = some (p, k') ∧ Simulates k' { a with ready := l } := by
  obtain ⟨k', hpop, hchain, hstate, hcurr⟩ := (hready ▸ h.toReadyChain).pop_cons
  exact ⟨k', hpop, ⟨hchain, hstate.trans h.state_eq, hcurr.trans h.curr_eq⟩⟩

theorem makeCurrent (h : Simulates k a) (p : Slot) :
    Simulates (k.makeCurrent p) { a with state := Function.update a.state p .curr, curr := p } where
  toReadyChain := h.toReadyChain.congr (Kernel.setState_next k p .curr) rfl rfl
  state_eq := (Kernel.setState_state k p .curr).trans (by rw [h.state_eq])
  curr_eq := rfl

/-- A switch only saves and loads a stack pointer. -/
theorem ctxsw (h : Simulates k a) (p q : Slot) : Simulates (k.ctxsw p q) a where
  toReadyChain := h.toReadyChain.congr (Kernel.ctxsw_next k p q) rfl rfl
  state_eq := (Kernel.ctxsw_state k p q).trans h.state_eq
  curr_eq := h.curr_eq

/-- `proc_resched`. -/
theorem procResched (h : Simulates k a) (hok : a.Ok) : Simulates k.procResched a.resched := by
  have hcn := hok.curr_notMem
  unfold Kernel.procResched Sched.resched
  cases hready : a.ready with
  | nil =>
    rw [h.pop_empty hready]
    exact h
  | cons p l =>
    obtain ⟨k', hpop, h'⟩ := h.pop hready
    have hcl : a.curr ∉ l := fun hm => hcn (by simp [hready, hm])
    rw [hpop]
    simp only [Kernel.park, h'.state_eq, h'.curr_eq]
    split_ifs with hpark
    · apply Simulates.ctxsw
      exact ((h'.setState_push .ready hcl).makeCurrent p).congr rfl rfl rfl rfl
    · apply Simulates.ctxsw
      exact (h'.makeCurrent p).congr rfl rfl rfl rfl

/-- The common end of `proc_block` and `proc_exit`. -/
theorem dispatchNext (h : Simulates k a) : Simulates k.dispatchNext a.dispatch := by
  unfold Kernel.dispatchNext Sched.dispatch
  cases hready : a.ready with
  | nil =>
    rw [h.pop_empty hready]
    have hnull := h.makeCurrent nullproc
    rwa [hready] at hnull
  | cons p l =>
    obtain ⟨k', hpop, h'⟩ := h.pop hready
    rw [hpop]
    exact h'.makeCurrent p

theorem setState (h : Simulates k a) (p : Slot) (st : ProcState) :
    Simulates (k.setState p st) { a with state := Function.update a.state p st } where
  toReadyChain := h.toReadyChain.congr (Kernel.setState_next k p st) rfl rfl
  state_eq := by rw [Kernel.setState_state, h.state_eq]
  curr_eq := h.curr_eq

/-- `proc_block`. -/
theorem procBlock (h : Simulates k a) : Simulates k.procBlock a.block := by
  have h' := (h.setState k.currpid .wait).dispatchNext
  rw [h.curr_eq] at h'
  unfold Kernel.procBlock
  rw [h.curr_eq]
  exact h'.ctxsw _ _

theorem remove (h : Simulates k a) (p : Slot) :
    ∃ k', k.readyRemove p = some k' ∧ Simulates k' { a with ready := a.ready.erase p } := by
  obtain ⟨k', hrun, hchain, hstate, hcurr⟩ := h.toReadyChain.remove p
  exact ⟨k', hrun, ⟨hchain, hstate.trans h.state_eq, hcurr.trans h.curr_eq⟩⟩

/-- `proc_exit` always switches away. -/
theorem procExit (h : Simulates k a) : ∃ k', k.procExit = some k' ∧ Simulates k' a.exit := by
  obtain ⟨k', hrun, h'⟩ := (h.setState k.currpid .free).remove k.currpid
  rw [h.curr_eq] at hrun h'
  refine ⟨_, by rw [Kernel.procExit, h.curr_eq, hrun, Option.map_some], ?_⟩
  exact h'.dispatchNext.congr rfl rfl rfl rfl

/-- Rewriting a slot that is not queued. -/
theorem modify_of_notMem (h : Simulates k a) {p : Slot} (hp : p ∉ a.ready)
    (f : ProcEnt → ProcEnt) :
    Simulates (k.modify p f)
      { a with state := Function.update a.state p (f (k.proctab p)).state } where
  toReadyChain := by
    refine ⟨?_, h.tail, h.nodup⟩
    apply (Segment.congr _).mpr h.chain
    intro q hq
    have hne : q ≠ p := by
      rintro rfl
      exact hp hq
    simp [Kernel.next, Kernel.modify, hne]
  state_eq := by
    rw [← h.state_eq]
    funext q
    by_cases hq : q = p
    · subst hq
      simp [Kernel.state, Kernel.modify]
    · simp [Kernel.state, Kernel.modify, hq]
  curr_eq := h.curr_eq

/-- The same, when the state of the slot stays. -/
theorem modify_of_state_eq (h : Simulates k a) {p : Slot} (hp : p ∉ a.ready)
    {f : ProcEnt → ProcEnt} (hf : (f (k.proctab p)).state = (k.proctab p).state) :
    Simulates (k.modify p f) a := by
  have h' := h.modify_of_notMem hp f
  have hst : (k.proctab p).state = a.state p := congrFun h.state_eq p
  rwa [hf, hst, Function.update_eq_self] at h'

/-- `proc_preempt` is a reschedule or nothing. -/
theorem procPreempt (h : Simulates k a) (hok : a.Ok) :
    Simulates k.procPreempt a ∨ Simulates k.procPreempt a.resched := by
  unfold Kernel.procPreempt
  split_ifs
  · exact Or.inl h
  · exact Or.inl h
  · refine Or.inr (Simulates.procResched ?_ hok)
    exact h.congr rfl rfl rfl rfl
  · exact Or.inl (h.congr rfl rfl rfl rfl)

/-- `proc_kill`. -/
theorem procKill (h : Simulates k a) {pid : ℤ} {k' : Kernel} (hk : k.procKill pid = some k') :
    Simulates k' ((Kernel.slotOf pid).elim a a.kill) := by
  rcases Kernel.procKill_cases hk with ⟨rfl, hp⟩ | ⟨p, k₁, k₂, hs, hp, hrem, hfree, rfl⟩
  · cases hs : Kernel.slotOf pid with
    | none => exact h
    | some p =>
      have := hp p hs
      rw [h.curr_eq, h.state_eq] at this
      simpa only [Option.elim, Sched.kill, if_pos this] using h
  · obtain ⟨k₁', hrem', h₁⟩ := h.remove p
    obtain rfl : k₁' = k₁ := Option.some.inj (hrem'.symm.trans hrem)
    obtain ⟨htab, hhead, htail, hcurr⟩ := Kernel.freeStack_sched hfree
    have hdrop : Simulates (k₁'.dropLockOf pid) { a with ready := a.ready.erase p } := by
      unfold Kernel.dropLockOf
      split_ifs
      · exact h₁.congr rfl rfl rfl rfl
      · exact h₁
    have h₂ := (hdrop.congr htab hhead htail hcurr).modify_of_notMem
      (h.nodup.not_mem_erase : p ∉ a.ready.erase p)
      (fun e => { e with stkbase := 0, state := .free })
    rw [h.curr_eq, h.state_eq] at hp
    rw [hs]
    simpa only [Kernel.vacate, Option.elim, Sched.kill, if_neg hp] using h₂

/-- `proc_create_arg` enrolls a free slot, or leaves the scheduler alone. -/
theorem procCreateArg (h : Simulates k a) (hok : a.Ok) {entry : ProcEntry} {n : ℕ}
    {name : List Char} {arg r : ℤ} {k' : Kernel}
    (hc : k.procCreateArg entry n name arg = some (r, k')) :
    r = -1 ∧ Simulates k' a ∨
      ∃ p, p ≠ nullproc ∧ a.state p = .free ∧ r = p.val ∧ Simulates k' (a.enroll p) := by
  rcases Kernel.procCreateArg_cases hc with
    ⟨-, rfl, rfl⟩ | ⟨p, k₁, stk, k₂, halloc, hreap, hget, hres⟩
  · exact Or.inl ⟨rfl, h⟩
  · obtain ⟨hp0, hpfree⟩ := Kernel.allocSlot_spec halloc
    rw [h.state_eq] at hpfree
    have hpn : p ∉ a.ready := by
      rw [hok.mem_iff, hpfree]
      decide
    have h₁ : Simulates k₁ a := by
      unfold Kernel.reapStack at hreap
      split_ifs at hreap
      · cases hreap
        exact h
      · obtain ⟨k₀, hfree, rfl⟩ := Option.map_eq_some_iff.mp hreap
        obtain ⟨htab, hhead, htail, hcurr⟩ := Kernel.freeStack_sched hfree
        exact (h.congr htab hhead htail hcurr).modify_of_state_eq hpn rfl
    have h₂ : Simulates k₂ a := by
      rw [(Kernel.getmem_eq hget).2]
      exact h₁.congr rfl rfl rfl rfl
    rcases hres with ⟨-, rfl, rfl⟩ | ⟨-, rfl, rfl⟩
    · exact Or.inl ⟨rfl, h₂⟩
    · refine Or.inr ⟨p, hp0, hpfree, rfl, ?_⟩
      have h₃ : Simulates (k₂.install p stk (Kernel.stackSize n) entry name arg)
          { a with state := Function.update a.state p .ready } :=
        (h₂.modify_of_notMem hpn
          (Kernel.newProcent stk (Kernel.stackSize n) entry name arg)).congr rfl rfl rfl rfl
      refine ⟨h₃.toReadyChain.push hpn, ?_, ?_⟩
      · rw [Kernel.readyPush_state]
        exact h₃.state_eq
      · rw [Kernel.readyPush_currpid]
        exact h₃.curr_eq

end Simulates

end XinuRpi4.Process
