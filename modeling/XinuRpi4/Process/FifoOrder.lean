import XinuRpi4.Process.Transitions

/-!
# First in, first out

Every switch takes the head of the ready list and every arrival goes behind its
tail, so a process moves forward one place at each switch. A kill of a process ahead
of it moves it one place as well. Nobody who arrives later runs before it.
-/

namespace XinuRpi4.Process

open Foundation

/-- The functions of `proc.c`; `procdemo` is a shell command made of them. -/
def KernelOp.OfProc : KernelOp → Prop
  | .procdemo _ _ => False
  | _ => True

/-- The process that the step is asked to kill. -/
def KernelOp.victim : KernelOp → Option Slot
  | .kill pid => Kernel.slotOf pid
  | _ => none

namespace Kernel

/-- The slots on the list from `ready_head`. -/
def readyWalk (k : Kernel) : ℕ → Option Slot → List Slot
  | 0, _ => []
  | _, none => []
  | fuel + 1, some p => p :: readyWalk k fuel (k.next p)

def readyOrder (k : Kernel) : List Slot := k.readyWalk nproc k.readyHead

/-- The ready processes ahead of `p`. -/
def ahead (k : Kernel) (p : Slot) : List Slot := k.readyOrder.takeWhile (· ≠ p)

/-- The step calls `ctxsw`, or `proc_exit`'s variant of it. -/
def Switches (k : Kernel) : KernelOp → Bool
  | .resched => k.readyHead.isSome
  | .preempt => k.preemptOn && k.reschedPending && k.actorPump == 0 && k.currpid != nullproc &&
      k.readyHead.isSome
  | .block => true
  | .exit => true
  | _ => false

/-- The processes that the switches of a run make current, in order. -/
def dispatched : Kernel → List KernelOp → List Slot
  | _, [] => []
  | k, op :: ops =>
    match k.step op with
    | none => []
    | some k' => (if k.Switches op then [k'.currpid] else []) ++ dispatched k' ops

/-- The processes that are killed while they wait ahead of `p`, until `p` runs. -/
def killedAhead (p : Slot) : Kernel → List KernelOp → List Slot
  | _, [] => []
  | k, op :: ops =>
    match k.step op with
    | none => []
    | some k' =>
      (op.victim.filter (· ∈ k.ahead p)).toList ++
        if k'.currpid = p then [] else killedAhead p k' ops

end Kernel

namespace Sched

variable {a : Sched} {p : Slot} {pre post : List Slot}

theorem wake_ready (h : a.ready = pre ++ p :: post) (q : Slot) :
    ∃ post', (a.wake q).ready = pre ++ p :: post' := by
  unfold wake
  split_ifs
  · exact ⟨post, h⟩
  · exact ⟨post ++ [q], by simp [h]⟩

theorem enroll_ready (h : a.ready = pre ++ p :: post) (q : Slot) :
    ∃ post', (a.enroll q).ready = pre ++ p :: post' :=
  ⟨post ++ [q], by simp [enroll, h]⟩

theorem kill_ready (hok : a.Ok) (h : a.ready = pre ++ p :: post) {q : Slot} (hq : q ≠ p) :
    ∃ post', (a.kill q).ready = pre.erase q ++ p :: post' := by
  unfold kill
  split_ifs with hidle
  · have hmem : q ∉ pre := by
      intro hm
      have hqr : q ∈ a.ready := by simp [h, hm]
      rcases hidle with rfl | hfree
      · exact hok.curr_notMem hqr
      · rw [hok.mem_iff, hfree] at hqr
        cases hqr
    exact ⟨post, by rw [List.erase_of_not_mem hmem, h]⟩
  · by_cases hm : q ∈ pre
    · exact ⟨post, by simp [h, List.erase_append_left _ hm]⟩
    · refine ⟨post.erase q, ?_⟩
      have htail : (p :: post).erase q = p :: post.erase q :=
        List.erase_cons_tail (by simpa using hq.symm)
      simp [h, List.erase_append_right _ hm, List.erase_of_not_mem hm, htail]

theorem kill_curr (a : Sched) (q : Slot) : (a.kill q).curr = a.curr := by
  unfold kill
  split_ifs
  · rfl
  · rfl

/-- The head of the queue runs, and everyone else moves up. -/
theorem resched_ready (h : a.ready = pre ++ p :: post) :
    some (a.resched).curr = (pre ++ [p]).head? ∧
      (pre ≠ [] → ∃ post', (a.resched).ready = pre.tail ++ p :: post') := by
  cases pre with
  | nil =>
    simp only [List.nil_append] at h
    simp only [resched, h]
    split_ifs <;> simp
  | cons q pre =>
    simp only [List.cons_append] at h
    simp only [resched, h]
    split_ifs
    · exact ⟨rfl, fun _ => ⟨post ++ [a.curr], by simp⟩⟩
    · exact ⟨rfl, fun _ => ⟨post, rfl⟩⟩

theorem dispatch_ready (h : a.ready = pre ++ p :: post) :
    some (a.dispatch).curr = (pre ++ [p]).head? ∧
      (pre ≠ [] → ∃ post', (a.dispatch).ready = pre.tail ++ p :: post') := by
  cases pre with
  | nil =>
    simp only [List.nil_append] at h
    simp [dispatch, h]
  | cons q pre =>
    simp only [List.cons_append] at h
    simp [dispatch, h]

end Sched

namespace Kernel

variable {k k' : Kernel} {p : Slot} {pre post : List Slot} {op : KernelOp}

theorem ReadyList.scheduled {l : List Slot} (h : ReadyList k l) :
    ∃ a, Simulates k a ∧ a.Ok ∧ a.ready = l :=
  ⟨⟨l, k.state, k.currpid⟩, ⟨⟨h.acyclic, h.tail_last, h.nodup⟩, rfl, rfl⟩,
    ⟨⟨h.nodup, h.mem_iff, h.null_notMem⟩, h.curr_state⟩, rfl⟩

theorem readyWalk_eq {l : List Slot} {start : Option Slot} (h : Segment k.next start l none)
    (fuel : ℕ) (hfuel : l.length ≤ fuel) : k.readyWalk fuel start = l := by
  induction l generalizing start fuel with
  | nil =>
    have hs : start = none := h
    subst hs
    cases fuel <;> rfl
  | cons p l ih =>
    obtain ⟨rfl, hrest⟩ := h
    obtain ⟨fuel, rfl⟩ : ∃ n, fuel = n + 1 := ⟨fuel - 1, by simp at hfuel; omega⟩
    rw [readyWalk, ih hrest fuel (by simpa using hfuel)]

theorem ReadyList.readyOrder_eq {l : List Slot} (h : ReadyList k l) : k.readyOrder = l := by
  apply readyWalk_eq h.acyclic
  simpa using h.nodup.length_le_card

theorem ReadyList.ahead_eq (h : ReadyList k (pre ++ p :: post)) : k.ahead p = pre := by
  have hp : p ∉ pre := by
    have := (List.nodup_append.mp h.nodup).2.2
    intro hm
    exact this p hm p (by simp) rfl
  rw [ahead, h.readyOrder_eq, List.takeWhile_append_of_pos]
  · simp
  · intro q hq
    have hne : q ≠ p := fun heq => hp (heq ▸ hq)
    simpa using hne

/-- `p` is on the ready list, behind `pre`. -/
def WaitsBehind (k : Kernel) (p : Slot) (pre : List Slot) : Prop :=
  ∃ post, ReadyList k (pre ++ p :: post)

theorem WaitsBehind.ne_curr (h : k.WaitsBehind p pre) : k.currpid ≠ p := by
  obtain ⟨post, h⟩ := h
  rintro rfl
  exact h.curr_notMem (by simp)

theorem waitsBehind_of {a : Sched} (hsim : Simulates k a) (hok : a.Ok)
    (h : ∃ post, a.ready = pre ++ p :: post) : k.WaitsBehind p pre := by
  obtain ⟨post, h⟩ := h
  exact ⟨post, h ▸ hsim.readyList hok⟩

/-- A process that waits makes every call that reschedules switch. -/
theorem WaitsBehind.head_isSome (h : k.WaitsBehind p pre) : k.readyHead.isSome := by
  obtain ⟨post, h⟩ := h
  cases pre with
  | nil => simp [h.acyclic.1]
  | cons q pre => simp [h.acyclic.1]

/-- One step of `proc.c`, seen by a process on the ready list that it does not kill: a
switch runs the head of the list, any other step at most takes its victim out. -/
theorem WaitsBehind.step (h : k.WaitsBehind p pre) (hop : op.OfProc) (hkill : op.victim ≠ some p)
    (hstep : k.step op = some k') :
    (k.Switches op = false ∧ k'.currpid = k.currpid ∧
        k'.WaitsBehind p (op.victim.elim pre pre.erase)) ∨
      (k.Switches op = true ∧ op.victim = none ∧ some k'.currpid = (pre ++ [p]).head? ∧
        (pre ≠ [] → k'.WaitsBehind p pre.tail)) := by
  have hhead := h.head_isSome
  obtain ⟨post, hlist⟩ := h
  obtain ⟨a, hsim, hok, hready⟩ := hlist.scheduled
  have hresched : ∀ k₁ : Kernel, Simulates k₁ a → some k₁.procResched.currpid = (pre ++ [p]).head? ∧
      (pre ≠ [] → k₁.procResched.WaitsBehind p pre.tail) := by
    intro k₁ h₁
    have h₂ := h₁.procResched hok
    obtain ⟨hcurr, hrest⟩ := Sched.resched_ready hready
    rw [h₂.curr_eq]
    exact ⟨hcurr, fun hne => waitsBehind_of h₂ hok.resched (hrest hne)⟩
  cases op with
  | createArg entry n name arg =>
    left
    obtain ⟨⟨r, k₁⟩, hc, rfl⟩ := Option.map_eq_some_iff.mp hstep
    rcases hsim.procCreateArg hok hc with ⟨-, h'⟩ | ⟨q, hq, hfree, -, h'⟩
    · exact ⟨rfl, h'.curr_eq.trans hsim.curr_eq.symm, waitsBehind_of h' hok ⟨post, hready⟩⟩
    · exact ⟨rfl, h'.curr_eq.trans hsim.curr_eq.symm,
        waitsBehind_of h' (hok.enroll hq hfree) (Sched.enroll_ready hready q)⟩
  | ready pid =>
    left
    cases hstep
    have h' := hsim.procReady hok pid
    refine ⟨rfl, procReady_currpid k pid, ?_⟩
    cases hs : slotOf pid with
    | none =>
      rw [hs] at h'
      exact waitsBehind_of h' hok ⟨post, hready⟩
    | some q =>
      rw [hs] at h'
      exact waitsBehind_of h' (hok.wake (slotOf_ne_null hs)) (Sched.wake_ready hready q)
  | resched =>
    right
    cases hstep
    exact ⟨hhead, rfl, hresched k hsim⟩
  | preempt =>
    cases hstep
    have hcleared : Simulates { k with reschedPending := false } a := hsim.congr rfl rfl rfl rfl
    simp only [procPreempt, Switches]
    split_ifs with hoff hpump hnull
    · left
      refine ⟨?_, rfl, waitsBehind_of hsim hok ⟨post, hready⟩⟩
      rcases hoff with hoff | hoff
      · simp [hoff]
      · simp [hoff]
    · left
      exact ⟨by simp [hpump], rfl, waitsBehind_of hsim hok ⟨post, hready⟩⟩
    · right
      obtain ⟨hon, hpend⟩ := not_or.mp hoff
      refine ⟨?_, rfl, hresched _ hcleared⟩
      simp [not_not.mp hon, not_not.mp hpend, not_not.mp hpump, hnull, hhead]
    · left
      exact ⟨by simp [not_not.mp hnull], rfl, waitsBehind_of hcleared hok ⟨post, hready⟩⟩
  | block =>
    right
    cases hstep
    have hready' : ({ a with state := Function.update a.state a.curr .wait } : Sched).ready =
        pre ++ p :: post := hready
    obtain ⟨hcurr, hrest⟩ := Sched.dispatch_ready hready'
    rw [hsim.procBlock.curr_eq]
    exact ⟨rfl, rfl, hcurr, fun hne => waitsBehind_of hsim.procBlock hok.block (hrest hne)⟩
  | kill pid =>
    left
    have h' := hsim.procKill hstep
    cases hs : slotOf pid with
    | none =>
      rw [hs] at h'
      refine ⟨rfl, h'.curr_eq.trans hsim.curr_eq.symm, ?_⟩
      simpa [KernelOp.victim, hs] using waitsBehind_of h' hok ⟨post, hready⟩
    | some q =>
      have hqp : q ≠ p := by
        rintro rfl
        exact hkill hs
      rw [hs] at h'
      refine ⟨rfl, ?_, ?_⟩
      · exact h'.curr_eq.trans ((Sched.kill_curr a q).trans hsim.curr_eq.symm)
      · have := waitsBehind_of h' hok.kill (Sched.kill_ready hok hready hqp)
        simpa [KernelOp.victim, hs] using this
  | exit =>
    right
    obtain ⟨k₁, hrun, h'⟩ := hsim.procExit
    obtain rfl : k₁ = k' := Option.some.inj (hrun.symm.trans hstep)
    have hready' : ({ a with
        state := Function.update a.state a.curr .free
        ready := a.ready.erase a.curr } : Sched).ready = pre ++ p :: post := by
      rw [← hready]
      exact List.erase_of_not_mem hok.curr_notMem
    obtain ⟨hcurr, hrest⟩ := Sched.dispatch_ready hready'
    rw [h'.curr_eq]
    exact ⟨rfl, rfl, hcurr, fun hne => waitsBehind_of h' hok.exit (hrest hne)⟩
  | procdemo ping pong => exact hop.elim
  | setPreempt on =>
    left
    cases hstep
    exact ⟨rfl, rfl, post, hlist.acyclic, hlist.nodup, hlist.tail_last, hlist.mem_iff,
      hlist.null_notMem, hlist.curr_state, hlist.curr_notMem⟩
  | reschedRequest =>
    left
    cases hstep
    exact ⟨rfl, rfl, waitsBehind_of (hsim.congr rfl rfl rfl rfl) hok ⟨post, hready⟩⟩
  | actorPumpEnter =>
    left
    cases hstep
    exact ⟨rfl, rfl, waitsBehind_of (hsim.congr rfl rfl rfl rfl) hok ⟨post, hready⟩⟩
  | actorPumpLeave =>
    left
    cases hstep
    refine ⟨rfl, ?_, ?_⟩
    · split_ifs <;> rfl
    · split_ifs
      · exact waitsBehind_of (hsim.congr rfl rfl rfl rfl) hok ⟨post, hready⟩
      · exact waitsBehind_of hsim hok ⟨post, hready⟩

/-- The victim of a step, if it was ahead of `p`. -/
theorem WaitsBehind.victim_perm (h : k.WaitsBehind p pre) (op : KernelOp) :
    ((op.victim.filter (· ∈ k.ahead p)).toList ++ op.victim.elim pre pre.erase).Perm pre := by
  obtain ⟨post, h⟩ := h
  rw [h.ahead_eq]
  cases op.victim with
  | none => simp
  | some q =>
    by_cases hq : q ∈ pre
    · simpa [Option.filter, hq] using (List.perm_cons_erase hq).symm
    · simp [Option.filter, hq, List.erase_of_not_mem hq]

theorem victim_sublist (pre : List Slot) (v : Option Slot) : (v.elim pre pre.erase).Sublist pre := by
  cases v with
  | none => exact List.Sublist.refl pre
  | some q => exact List.erase_sublist

/-- A process on the ready list that is not killed: as long as it has not run, the
processes that ran are, in order, some of those that were ahead of it; the others
still are ahead of it or were killed there. It runs when none is left. -/
theorem fifo_order (h : ReadyList k (pre ++ p :: post)) {ops : List KernelOp}
    (hops : ∀ op ∈ ops, op.OfProc ∧ op.victim ≠ some p) (hrun : exec step k ops = some k') :
    (∃ pre' post', ReadyList k' (pre' ++ p :: post') ∧ (dispatched k ops ++ pre').Sublist pre ∧
        (killedAhead p k ops ++ (dispatched k ops ++ pre')).Perm pre) ∨
      ∃ ran more, dispatched k ops = ran ++ p :: more ∧ ran.Sublist pre ∧
        (killedAhead p k ops ++ ran).Perm pre := by
  have hwait : k.WaitsBehind p pre := ⟨post, h⟩
  clear h
  induction ops generalizing k pre with
  | nil =>
    cases hrun
    obtain ⟨post, h⟩ := hwait
    exact Or.inl ⟨pre, post, h, List.Sublist.refl _, List.Perm.refl _⟩
  | cons op ops ih =>
    obtain ⟨k₁, hstep, hrest⟩ := Option.bind_eq_some_iff.mp hrun
    obtain ⟨⟨hop, hkill⟩, hops⟩ := List.forall_mem_cons.mp hops
    simp only [dispatched, killedAhead, hstep]
    rcases hwait.step hop hkill hstep with ⟨hsw, hcurr, hwait'⟩ | ⟨hsw, hnone, hcurr, hwait'⟩
    · -- no switch: the victim of the step, if it was ahead, is gone
      have hperm := hwait.victim_perm op
      have hsub := victim_sublist pre op.victim
      have hne : k₁.currpid ≠ p := hcurr ▸ hwait.ne_curr
      simp only [hsw, if_neg hne, Bool.false_eq_true, if_false, List.nil_append, List.append_assoc]
      rcases ih hops hrest hwait' with ⟨pre', post', hl, hsub', hperm'⟩ | ⟨ran, more, hd, hsub', hperm'⟩
      · exact Or.inl ⟨pre', post', hl, hsub'.trans hsub, (hperm'.append_left _).trans hperm⟩
      · exact Or.inr ⟨ran, more, hd, hsub'.trans hsub, (hperm'.append_left _).trans hperm⟩
    · simp only [hsw, hnone, if_true, Option.filter_none, Option.toList_none, List.nil_append]
      cases pre with
      | nil =>
        have hp : k₁.currpid = p := by simpa using hcurr
        exact Or.inr ⟨[], dispatched k₁ ops, by simp [hp], List.Sublist.refl _, by simp [hp]⟩
      | cons q pre =>
        have hq : k₁.currpid = q := by simpa using hcurr
        have hne : q ≠ p := by
          obtain ⟨post, h⟩ := hwait
          rintro rfl
          have := h.nodup
          simp at this
        simp only [hq, if_neg hne, List.singleton_append]
        rcases ih hops hrest (hwait' (by simp)) with
          ⟨pre', post', hl, hsub', hperm'⟩ | ⟨ran, more, hd, hsub', hperm'⟩
        · refine Or.inl ⟨pre', post', hl, hsub'.cons_cons q, ?_⟩
          exact List.perm_middle.trans (hperm'.cons q)
        · refine Or.inr ⟨q :: ran, more, by simp [hd], hsub'.cons_cons q, ?_⟩
          exact List.perm_middle.trans (hperm'.cons q)

/-- Two processes are created and wait for their first turn. -/
theorem exists_two_ready : ∃ k, exec step (boot 4096 65536).procInit
    [.createArg (.other 1) 4096 [] 0, .createArg (.other 2) 4096 [] 0] = some k ∧
      ReadyList k ([1] ++ 2 :: []) := by
  obtain ⟨k, hk⟩ := Option.isSome_iff_exists.mp
    (by decide : (exec step (boot 4096 65536).procInit
      [.createArg (.other 1) 4096 [] 0, .createArg (.other 2) 4096 [] 0]).isSome)
  have hsched : k.Scheduled := by
    apply exec_invariant Scheduled _ (procInit_scheduled _) hk
    intro op hop s s' h hstep
    apply step_scheduled h _ hstep
    simp only [List.mem_cons, List.not_mem_nil, or_false] at hop
    rcases hop with rfl | rfl
    · trivial
    · trivial
  obtain ⟨⟨l, hl⟩, -⟩ := hsched.readyOk
  have horder : (exec step (boot 4096 65536).procInit
      [.createArg (.other 1) 4096 [] 0, .createArg (.other 2) 4096 [] 0]).map readyOrder =
        some [1, 2] := by decide
  rw [hk] at horder
  obtain rfl : l = [1, 2] := hl.readyOrder_eq.symm.trans (Option.some.inj horder)
  exact ⟨k, hk, hl⟩

/-- The first one runs and blocks. -/
theorem fifo_order_two_ready : ∃ k k', ReadyList k ([1] ++ 2 :: []) ∧
    exec step k [.resched, .block] = some k' ∧
      ((∃ pre' post', ReadyList k' (pre' ++ 2 :: post') ∧
          (dispatched k [.resched, .block] ++ pre').Sublist [1] ∧
          (killedAhead 2 k [.resched, .block] ++
            (dispatched k [.resched, .block] ++ pre')).Perm [1]) ∨
        ∃ ran more, dispatched k [.resched, .block] = ran ++ 2 :: more ∧ ran.Sublist [1] ∧
          (killedAhead 2 k [.resched, .block] ++ ran).Perm [1]) := by
  obtain ⟨k, -, hl⟩ := exists_two_ready
  exact ⟨k, k.procResched.procBlock, hl, rfl, fifo_order hl (by
    intro op hop
    simp only [List.mem_cons, List.not_mem_nil, or_false] at hop
    rcases hop with rfl | rfl
    · exact ⟨trivial, by decide⟩
    · exact ⟨trivial, by decide⟩) rfl⟩

/-- The process in front is killed, and the second switch is not the one that runs the
process behind it: the first one was. -/
theorem killed_ahead_runs_earlier :
    ¬ ∀ (k : Kernel) (p : Slot) (pre post : List Slot), ReadyList k (pre ++ p :: post) →
      ∀ ops : List KernelOp, (∀ op ∈ ops, op.OfProc ∧ op.victim ≠ some p) →
        (exec step k ops).isSome → pre.length < (dispatched k ops).length →
          (dispatched k ops)[pre.length]? = some p := by
  intro hclaim
  obtain ⟨k, hk, hl⟩ := exists_two_ready
  have hrun : ((exec step (boot 4096 65536).procInit
      [.createArg (.other 1) 4096 [] 0, .createArg (.other 2) 4096 [] 0]).bind fun k =>
        exec step k [.kill 1, .resched, .block]).isSome := by decide
  have hturns : (exec step (boot 4096 65536).procInit
      [.createArg (.other 1) 4096 [] 0, .createArg (.other 2) 4096 [] 0]).map
        (dispatched · [.kill 1, .resched, .block]) = some [2, nullproc] := by decide
  rw [hk] at hrun hturns
  have hturns := Option.some.inj hturns
  have hsecond := hclaim k 2 [1] [] hl [.kill 1, .resched, .block] (by
    intro op hop
    simp only [List.mem_cons, List.not_mem_nil, or_false] at hop
    rcases hop with rfl | rfl | rfl
    · exact ⟨trivial, by decide⟩
    · exact ⟨trivial, by decide⟩
    · exact ⟨trivial, by decide⟩) hrun (by simp only at hturns; rw [hturns]; decide)
  simp only at hturns
  rw [hturns] at hsecond
  exact absurd hsecond (by decide)

end Kernel

end XinuRpi4.Process
