import XinuRpi4.Process.LockSystem

/-!
# When the watchdog of the heap lock is right

The ready list is first in, first out, so a holder of the lock that can run has its
turn between two rounds of a process that waits for the lock: the failed rounds of
the waiter are paid for by the times a holder was switched out. This fails for the
null process, which is never on the list; for the rounds a waiter has spent on a
holder that could not run, when the lock then goes to another one; and after
`AIPL_SPIN_LIMIT` switches.
-/

namespace XinuRpi4.Process

open Foundation

namespace Sched

variable {a : Sched} {h w p : Slot}

/-- The process is ready or runs. -/
def Runs (a : Sched) (p : Slot) : Prop := a.state p = .ready ∨ a.state p = .curr

/-- Process `h` has its turn before `w` has its next one. -/
def Before (a : Sched) (h w : Slot) : Prop :=
  h = a.curr ∨ w ≠ a.curr ∧ (w = nullproc ∨ [h, w].Sublist a.ready)

theorem sublist_pair_tail {x : Slot} {l : List Slot} (hx : h ≠ x) (hs : [h, w].Sublist (x :: l)) :
    [h, w].Sublist l := by
  cases hs with
  | cons _ hs => exact hs
  | cons_cons _ _ => exact absurd rfl hx

/-- The first of the list runs next. -/
theorem Before.pop {x : Slot} {l l' : List Slot} {b : Sched} (hb : a.Before h w)
    (hcurr : h ≠ a.curr) (hready : a.ready = x :: l) (hnd : (x :: l).Nodup)
    (hnull : nullproc ∉ a.ready) (hb' : b.ready = l') (hl : l.Sublist l') (hc : b.curr = x) :
    b.Before h w := by
  rcases hb with hh | ⟨hw, hor⟩
  · exact absurd hh hcurr
  · by_cases hx : h = x
    · exact Or.inl (hx.trans hc.symm)
    · refine Or.inr ?_
      rcases hor with rfl | hs
      · refine ⟨?_, Or.inl rfl⟩
        rw [hc]
        rintro rfl
        exact hnull (by rw [hready]; exact List.mem_cons_self)
      · rw [hready] at hs
        have hs' := sublist_pair_tail hx hs
        refine ⟨?_, Or.inr ?_⟩
        · rw [hc]
          rintro rfl
          exact (List.nodup_cons.mp hnd).1 (hs'.subset (by simp))
        · rw [hb']
          exact hs'.trans hl

theorem Before.resched (hb : a.Before h w) (hok : a.Ok) (hcurr : h ≠ a.curr) :
    a.resched.Before h w := by
  cases hready : a.ready with
  | nil =>
    have heq : a.resched = a := by
      unfold Sched.resched
      rw [hready]
    rw [heq]
    exact hb
  | cons x l =>
    have hnd := hok.nodup
    rw [hready] at hnd
    unfold Sched.resched
    rw [hready]
    simp only
    split_ifs
    · exact hb.pop hcurr hready hnd hok.null_notMem rfl (List.sublist_append_left ..) rfl
    · exact hb.pop hcurr hready hnd hok.null_notMem rfl (List.Sublist.refl _) rfl

/-- A process that waits goes behind all that are ready. -/
theorem before_resched_self (hok : a.Ok) (hh : a.state h = .ready) : a.resched.Before h a.curr := by
  have hmem := (hok.mem_iff h).mpr hh
  have hcn := hok.curr_notMem
  cases hready : a.ready with
  | nil =>
    rw [hready] at hmem
    cases hmem
  | cons x l =>
    rw [hready] at hmem hcn
    have hxc : a.curr ≠ x := fun heq => hcn (by simp [heq])
    unfold Sched.resched Before
    rw [hready]
    simp only
    by_cases hx : h = x
    · split_ifs <;> exact Or.inl hx
    · have hl : h ∈ l := (List.mem_cons.mp hmem).resolve_left hx
      split_ifs with hpark
      · refine Or.inr ⟨hxc, Or.inr ?_⟩
        have hs : [h].Sublist l := List.singleton_sublist.mpr hl
        exact hs.append (List.Sublist.refl [a.curr])
      · refine Or.inr ⟨hxc, Or.inl ?_⟩
        by_contra hne
        exact hpark ⟨hok.curr_state, hne⟩

theorem Before.dispatch {b : Sched} (hb : a.Before h w) (hcurr : h ≠ a.curr) (hok : a.Ok)
    (hh : a.state h = .ready) (hready : b.ready = a.ready) : b.dispatch.Before h w := by
  have hmem := (hok.mem_iff h).mpr hh
  cases hl : a.ready with
  | nil =>
    rw [hl] at hmem
    cases hmem
  | cons x l =>
    have hnd := hok.nodup
    rw [hl] at hnd
    unfold Sched.dispatch
    rw [hready, hl]
    exact hb.pop hcurr hl hnd hok.null_notMem rfl (List.Sublist.refl _) rfl

/-- Joining and leaving of others changes no order. -/
theorem Before.of_sublist {b : Sched} (hb : a.Before h w) (hcurr : b.curr = a.curr)
    (hl : [h, w].Sublist a.ready → [h, w].Sublist b.ready) : b.Before h w := by
  rcases hb with hh | ⟨hw, hor⟩
  · exact Or.inl (hh.trans hcurr.symm)
  · exact Or.inr ⟨by rw [hcurr]; exact hw, hor.imp id hl⟩

end Sched

/-- The process is in the loop of `aipl_lock`, after `n` failed rounds. -/
def Waits (a : Sched) (ctl : Slot → LockCtl) (w : Slot) (n : ℕ) : Prop :=
  a.state w ≠ .free ∧ (ctl w).fails = some n

/-- Failed rounds are paid for. A process has failed at most once more than a holder
was switched out, and not even that when its next round comes before the turn of the
holder; this is promised while the holder, if there is one, can run. -/
structure Turns (a : Sched) (owner : ℤ) (ctl : Slot → LockCtl) (outs : Slot → ℕ) : Prop where
  curr_only : ∀ p, a.state p = .curr → p = a.curr ∨ p = nullproc
  null_alive : a.state nullproc ≠ .free
  runs : ∀ p, ctl p ≠ .out → a.state p = .free ∨ a.Runs p
  null_curr : owner = (nullproc : Slot).val → a.Runs nullproc → a.curr = nullproc
  bounded : ∀ w n, Waits a ctl w n → outs w < aiplSpinLimit
  few : (∀ h : Slot, owner = h.val → a.Runs h) → ∀ w n, Waits a ctl w n → n ≤ outs w + 1
  turn : ∀ h : Slot, owner = h.val → a.Runs h → ∀ w n, Waits a ctl w n → ¬ a.Before h w →
    n ≤ outs w

section

variable {a : Sched} {owner : ℤ} {ctl : Slot → LockCtl} {outs : Slot → ℕ} {h w p : Slot} {n : ℕ}

theorem Waits.ne_out (hw : Waits a ctl w n) : ctl w ≠ .out := by
  intro heq
  have hfails := hw.2
  rw [heq] at hfails
  cases hfails

namespace Turns

/-- A holder that can run but does not is on the ready list. -/
theorem ready_of_runs (ht : Turns a owner ctl outs) (ho : owner = h.val) (hr : a.Runs h)
    (hc : h ≠ a.curr) : a.state h = .ready := by
  rcases hr with hr | hr
  · exact hr
  · rcases ht.curr_only h hr with heq | rfl
    · exact absurd heq hc
    · exact absurd (ht.null_curr ho (Or.inr hr)).symm hc

/-- When the waiting process runs, the holder has had its turn. -/
theorem le_outs_of_curr (ht : Turns a owner ctl outs) (ho : owner = h.val) (hr : a.Runs h)
    (hc : h ≠ a.curr) (hw : Waits a ctl a.curr n) : n ≤ outs a.curr := by
  apply ht.turn h ho hr a.curr n hw
  rintro (heq | ⟨hne, -⟩)
  · exact hc heq
  · exact hne rfl

/-- The current process moves on to a place without failed rounds. -/
theorem goto (ht : Turns a owner ctl outs) (hok : a.Ok) {c : LockCtl} {outs' : Slot → ℕ}
    (hc : ∀ n, c.fails = some n → n = 0 ∧ outs' a.curr = 0)
    (houts : ∀ q, q ≠ a.curr → outs' q = outs q) :
    Turns a owner (Function.update ctl a.curr c) outs' := by
  have hwaits : ∀ w n, Waits a (Function.update ctl a.curr c) w n →
      (w = a.curr ∧ n = 0 ∧ outs' w = 0) ∨ w ≠ a.curr ∧ Waits a ctl w n := by
    rintro w n ⟨hfree, hfails⟩
    by_cases hw : w = a.curr
    · subst hw
      rw [Function.update_self] at hfails
      exact Or.inl ⟨rfl, hc n hfails⟩
    · rw [Function.update_of_ne hw] at hfails
      exact Or.inr ⟨hw, hfree, hfails⟩
  refine ⟨ht.curr_only, ht.null_alive, fun q hq => ?_, ht.null_curr, fun w n hw => ?_,
    fun hall w n hw => ?_, fun h ho hr w n hw hb => ?_⟩
  · by_cases hqc : q = a.curr
    · subst hqc
      exact Or.inr (Or.inr hok.curr_state)
    · rw [Function.update_of_ne hqc] at hq
      exact ht.runs q hq
  · rcases hwaits w n hw with ⟨-, -, h0⟩ | ⟨hne, hw'⟩
    · rw [h0]
      decide
    · rw [houts w hne]
      exact ht.bounded w n hw'
  · rcases hwaits w n hw with ⟨-, rfl, -⟩ | ⟨hne, hw'⟩
    · omega
    · rw [houts w hne]
      exact ht.few hall w n hw'
  · rcases hwaits w n hw with ⟨-, rfl, -⟩ | ⟨hne, hw'⟩
    · omega
    · rw [houts w hne]
      exact ht.turn h ho hr w n hw' hb

/-- The lock is released, or the current process takes it. -/
theorem handOver (ht : Turns a owner ctl outs) {owner' : ℤ}
    (ho : owner' < 0 ∨ owner' = a.curr.val)
    (hfew : ∀ w n, Waits a ctl w n → n ≤ outs w + 1) : Turns a owner' ctl outs := by
  have heq : ∀ h : Slot, owner' = h.val → h = a.curr := by
    intro h hh
    rcases ho with ho | ho
    · omega
    · exact Fin.ext (by omega)
  refine ⟨ht.curr_only, ht.null_alive, ht.runs, fun hnull _ => (heq _ hnull).symm, ht.bounded,
    fun _ => hfew, fun h hh _ w n _ hb => ?_⟩
  exact absurd (Or.inl (heq h hh)) hb

/-- The failed rounds are few when the holder is the current process, or nobody. -/
theorem few_of_open (ht : Turns a owner ctl outs) (hok : a.Ok)
    (ho : owner < 0 ∨ owner = a.curr.val) (w : Slot) (n : ℕ) (hw : Waits a ctl w n) :
    n ≤ outs w + 1 := by
  refine ht.few (fun h hh => ?_) w n hw
  have heq : h = a.curr := Fin.ext (by omega)
  subst heq
  exact Or.inr hok.curr_state

theorem runs_resched (hok : a.Ok) (p : Slot) : a.resched.Runs p ↔ a.Runs p := by
  unfold Sched.Runs
  rcases Sched.resched_state hok p with heq | ⟨hnew, hold⟩
  · rw [heq]
  · exact ⟨fun _ => hold, fun _ => hnew⟩

theorem free_resched (hok : a.Ok) (p : Slot) :
    a.resched.state p = .free ↔ a.state p = .free := by
  rcases Sched.resched_state hok p with heq | ⟨hnew | hnew, hold | hold⟩
  · rw [heq]
  all_goals simp [hnew, hold]

theorem waits_resched (hok : a.Ok) : Waits a.resched ctl w n ↔ Waits a ctl w n := by
  unfold Waits
  rw [ne_eq, free_resched hok]

theorem curr_only_resched (ht : Turns a owner ctl outs) (hp : a.resched.state p = .curr) :
    p = a.resched.curr ∨ p = nullproc := by
  unfold Sched.resched at hp ⊢
  cases hready : a.ready with
  | nil =>
    simp only [hready] at hp ⊢
    exact ht.curr_only p hp
  | cons x l =>
    simp only [hready] at hp ⊢
    split_ifs at hp ⊢ with hpark
    · by_cases hx : p = x
      · exact Or.inl hx
      · simp only [Function.update_of_ne hx] at hp
        by_cases hc : p = a.curr
        · subst hc
          simp at hp
        · rw [Function.update_of_ne hc] at hp
          exact Or.inr ((ht.curr_only p hp).resolve_left hc)
    · by_cases hx : p = x
      · exact Or.inl hx
      · simp only [Function.update_of_ne hx] at hp
        rcases ht.curr_only p hp with rfl | hnull
        · by_contra hne
          exact hpark ⟨hp, fun heq => hne (Or.inr heq)⟩
        · exact Or.inr hnull

/-- A process that does not hold the lock is switched out. -/
theorem resched (ht : Turns a owner ctl outs) (hok : a.Ok) (hc : owner ≠ a.curr.val) :
    Turns a.resched owner ctl outs := by
  have hne : ∀ h : Slot, owner = h.val → h ≠ a.curr := by
    rintro h ho rfl
    exact hc ho
  refine ⟨fun p => ht.curr_only_resched, ?_, fun p hp => ?_, fun ho hr => ?_, fun w n hw => ?_,
    fun hall w n hw => ?_, fun h ho hr w n hw hb => ?_⟩
  · rw [ne_eq, free_resched hok]
    exact ht.null_alive
  · rw [free_resched hok, runs_resched hok]
    exact ht.runs p hp
  · have hcurr := ht.null_curr ho ((runs_resched hok _).mp hr)
    exact absurd hcurr.symm (hne _ ho)
  · exact ht.bounded w n ((waits_resched hok).mp hw)
  · refine ht.few (fun h ho => ?_) w n ((waits_resched hok).mp hw)
    exact (runs_resched hok h).mp (hall h ho)
  · refine ht.turn h ho ((runs_resched hok h).mp hr) w n ((waits_resched hok).mp hw) ?_
    exact fun hb' => hb (hb'.resched hok (hne h ho))

/-- The holder is switched out, and this is counted. -/
theorem resched_holder (ht : Turns a owner ctl outs) (hok : a.Ok) (hc : owner = a.curr.val)
    (hnull : a.curr ≠ nullproc) (hlimit : ∀ w n, Waits a ctl w n → outs w + 1 < aiplSpinLimit) :
    Turns a.resched owner ctl (fun w => outs w + 1) := by
  have hfew := ht.few_of_open hok (Or.inr hc)
  refine ⟨fun p => ht.curr_only_resched, ?_, fun p hp => ?_, fun ho _ => ?_, fun w n hw => ?_,
    fun _ w n hw => ?_, fun _ _ _ w n hw _ => ?_⟩
  · rw [ne_eq, free_resched hok]
    exact ht.null_alive
  · rw [free_resched hok, runs_resched hok]
    exact ht.runs p hp
  · exact absurd (Fin.ext (by omega)) hnull
  · exact hlimit w n ((waits_resched hok).mp hw)
  · have := hfew w n ((waits_resched hok).mp hw)
    omega
  · exact hfew w n ((waits_resched hok).mp hw)

/-- A failed round and the yield after it. -/
theorem failed (ht : Turns a owner ctl outs) (hok : a.Ok) (ho : ∃ h : Slot, owner = h.val)
    (hc : owner ≠ a.curr.val) (hw : Waits a ctl a.curr n) {c : LockCtl}
    (hfails : c.fails = some (n + 1)) :
    Turns a.resched owner (Function.update ctl a.curr c) outs := by
  obtain ⟨h, ho⟩ := ho
  have hne : h ≠ a.curr := by
    rintro rfl
    exact hc ho
  have hsame : ∀ g : Slot, owner = g.val → g = h := fun g hg => Fin.ext (by omega)
  have ht' := ht.resched hok hc
  have hwaits : ∀ w m, Waits a.resched (Function.update ctl a.curr c) w m →
      (w = a.curr ∧ m = n + 1) ∨ Waits a.resched ctl w m := by
    rintro w m ⟨hfree, hm⟩
    by_cases hwc : w = a.curr
    · subst hwc
      rw [Function.update_self, hfails] at hm
      cases hm
      exact Or.inl ⟨rfl, rfl⟩
    · rw [Function.update_of_ne hwc] at hm
      exact Or.inr ⟨hfree, hm⟩
  refine ⟨ht'.curr_only, ht'.null_alive, fun p hp => ?_, ht'.null_curr, fun w m hm => ?_,
    fun hall w m hm => ?_, fun g hg hr w m hm hb => ?_⟩
  · by_cases hpc : p = a.curr
    · subst hpc
      exact Or.inr ((runs_resched hok _).mpr (Or.inr hok.curr_state))
    · rw [Function.update_of_ne hpc] at hp
      exact ht'.runs p hp
  · rcases hwaits w m hm with ⟨rfl, -⟩ | hm
    · exact ht.bounded _ n hw
    · exact ht'.bounded w m hm
  · rcases hwaits w m hm with ⟨rfl, rfl⟩ | hm
    · have hr := (runs_resched hok h).mp (hall h ho)
      have := ht.le_outs_of_curr ho hr hne hw
      omega
    · exact ht'.few hall w m hm
  · rcases hwaits w m hm with ⟨rfl, rfl⟩ | hm
    · obtain rfl := hsame g hg
      have hready := ht.ready_of_runs ho ((runs_resched hok g).mp hr) hne
      exact absurd (Sched.before_resched_self hok hready) hb
    · exact ht'.turn g hg hr w m hm hb

/-- Nobody but the null process can run, so nobody else waits for the lock. -/
theorem idle (ht : Turns a owner ctl outs) {b : Sched} (hcurr : b.curr = nullproc)
    (hnull : b.state nullproc = .curr) (hidle : ∀ q, q ≠ nullproc → ¬ b.Runs q)
    (hout : ∀ q, q ≠ nullproc → ctl q ≠ .out → b.state q = .free) : Turns b owner ctl outs := by
  have hwaits : ∀ w n, Waits b ctl w n → w = nullproc ∧ Waits a ctl w n ∧ a.Runs w := by
    intro w n hw
    have hne := hw.ne_out
    by_cases hn : w = nullproc
    · subst hn
      exact ⟨rfl, ⟨ht.null_alive, hw.2⟩, (ht.runs nullproc hne).resolve_left ht.null_alive⟩
    · exact absurd (hout w hn hne) hw.1
  refine ⟨fun p hp => ?_, by simp [hnull], fun p hp => ?_, fun _ _ => hcurr, fun w n hw => ?_,
    fun hall w n hw => ?_, fun h ho hr w n hw hb => ?_⟩
  · by_contra hne
    exact hidle p (fun heq => hne (Or.inr heq)) (Or.inr hp)
  · by_cases hn : p = nullproc
    · subst hn
      exact Or.inr (Or.inr hnull)
    · exact Or.inl (hout p hn hp)
  · exact ht.bounded w n (hwaits w n hw).2.1
  · obtain ⟨rfl, hw', hr⟩ := hwaits w n hw
    refine ht.few (fun h ho => ?_) _ n hw'
    have heq : h = nullproc := by
      by_contra hne
      exact hidle h hne (hall h ho)
    rw [heq]
    exact hr
  · have heq : h = nullproc := by
      by_contra hne
      exact hidle h hne hr
    exact absurd (Or.inl (heq.trans hcurr.symm)) hb

/-- The current process, outside the code of the lock, has stopped, and the first of
the ready list runs. -/
theorem next (ht : Turns a owner ctl outs) (hok : a.Ok) (hout : ctl a.curr = .out)
    {b : Sched} (hready : b.ready = a.ready) (hsame : ∀ q, q ≠ a.curr → b.state q = a.state q)
    (hstop : ¬ b.Runs a.curr) (hnull : b.state nullproc ≠ .free) {x : Slot} {l : List Slot}
    (hl : a.ready = x :: l) : Turns b.dispatch owner ctl outs := by
  have hx : a.state x = .ready := (hok.mem_iff x).mp (by simp [hl])
  have hxc : x ≠ a.curr := by
    rintro rfl
    exact hok.curr_notMem (by simp [hl])
  have hxn : x ≠ nullproc := by
    rintro rfl
    exact hok.null_notMem (by simp [hl])
  have hb : b.dispatch = { ready := l, state := Function.update b.state x .curr, curr := x } := by
    unfold Sched.dispatch
    rw [hready, hl]
  have hstate : ∀ q, q ≠ x → b.dispatch.state q = b.state q := by
    intro q hq
    rw [hb]
    exact Function.update_of_ne hq ..
  have hcurrSt : b.dispatch.state x = .curr := by
    rw [hb]
    exact Function.update_self ..
  have hcurr : b.dispatch.curr = x := by rw [hb]
  have hruns : ∀ q, b.dispatch.Runs q → q ≠ a.curr ∧ a.Runs q := by
    intro q hr
    by_cases hq : q = x
    · subst hq
      exact ⟨hxc, Or.inl hx⟩
    · unfold Sched.Runs at hr
      rw [hstate q hq] at hr
      have hqc : q ≠ a.curr := by
        rintro rfl
        exact hstop hr
      rw [hsame q hqc] at hr
      exact ⟨hqc, hr⟩
  have hwaits : ∀ w n, Waits b.dispatch ctl w n → Waits a ctl w n := by
    intro w n hw
    have hwc : w ≠ a.curr := by
      rintro rfl
      exact hw.ne_out hout
    refine ⟨?_, hw.2⟩
    by_cases hq : w = x
    · rw [hq, hx]
      decide
    · rw [← hsame w hwc, ← hstate w hq]
      exact hw.1
  refine ⟨fun p hp => ?_, ?_, fun p hp => ?_, fun ho hr => ?_, fun w n hw => ?_,
    fun hall w n hw => ?_, fun h ho hr w n hw hbef => ?_⟩
  · rw [hcurr]
    by_cases hq : p = x
    · exact Or.inl hq
    · obtain ⟨hpc, -⟩ := hruns p (Or.inr hp)
      rw [hstate p hq, hsame p hpc] at hp
      exact Or.inr ((ht.curr_only p hp).resolve_left hpc)
  · rw [hstate _ hxn.symm]
    exact hnull
  · by_cases hq : p = x
    · rw [hq]
      exact Or.inr (Or.inr hcurrSt)
    · have hpc : p ≠ a.curr := by
        rintro rfl
        exact hp hout
      unfold Sched.Runs
      rw [hstate p hq, hsame p hpc]
      exact ht.runs p hp
  · obtain ⟨hnc, hr'⟩ := hruns _ hr
    exact absurd (ht.null_curr ho hr').symm hnc
  · exact ht.bounded w n (hwaits w n hw)
  · exact ht.few (fun h ho => (hruns h (hall h ho)).2) w n (hwaits w n hw)
  · obtain ⟨hhc, hr'⟩ := hruns h hr
    refine ht.turn h ho hr' w n (hwaits w n hw) fun hbef' => hbef ?_
    exact hbef'.dispatch hhc hok (ht.ready_of_runs ho hr' hhc) hready

/-- The current process, outside the code of the lock, blocks or ends. -/
theorem dispatch (ht : Turns a owner ctl outs) (hok : a.Ok) (hout : ctl a.curr = .out)
    {st : ProcState} (hst : st = .wait ∨ st = .free ∧ a.curr ≠ nullproc) :
    Turns (Sched.dispatch { a with state := Function.update a.state a.curr st }) owner ctl outs := by
  have hstop : ¬ (st = .ready ∨ st = .curr) := by
    rcases hst with rfl | ⟨rfl, -⟩ <;> decide
  cases hready : a.ready with
  | nil =>
    have hdisp : Sched.dispatch { a with state := Function.update a.state a.curr st } =
        { a with
          state := Function.update (Function.update a.state a.curr st) nullproc .curr
          curr := nullproc } := by
      unfold Sched.dispatch
      simp only [hready]
    have hrest : ∀ q, q ≠ a.curr → q ≠ nullproc → ¬ a.Runs q := by
      rintro q hq hn (hr | hr)
      · have hmem := (hok.mem_iff q).mpr hr
        rw [hready] at hmem
        cases hmem
      · exact (ht.curr_only q hr).elim hq hn
    rw [hready] at hdisp
    rw [hdisp]
    refine ht.idle rfl (by simp) (fun q hn hr => ?_) fun q hn hq => ?_
    · unfold Sched.Runs at hr
      simp only [Function.update_of_ne hn] at hr
      by_cases hq : q = a.curr
      · subst hq
        rw [Function.update_self] at hr
        exact hstop hr
      · rw [Function.update_of_ne hq] at hr
        exact hrest q hq hn hr
    · have hqc : q ≠ a.curr := by
        rintro rfl
        exact hq hout
      simp only [Function.update_of_ne hn, Function.update_of_ne hqc]
      exact (ht.runs q hq).resolve_right (hrest q hqc hn)
  | cons x l =>
    rw [← hready]
    refine ht.next hok hout rfl (fun q hq => Function.update_of_ne hq ..) ?_ ?_ hready
    · unfold Sched.Runs
      simp only [Function.update_self]
      exact hstop
    · by_cases hnull : nullproc = a.curr
      · rcases hst with rfl | ⟨rfl, hne⟩
        · simp only [← hnull, Function.update_self]
          decide
        · exact absurd hnull.symm hne
      · simp only [Function.update_of_ne hnull]
        exact ht.null_alive

/-- A process that cannot run joins the ready list. -/
theorem enroll (ht : Turns a owner ctl outs) (hok : a.Ok) (hp : p ≠ nullproc) (hstop : ¬ a.Runs p)
    {ctl' : Slot → LockCtl} (hout : ctl' p = .out) (hctl : ∀ q, q ≠ p → ctl' q = ctl q)
    (hpaid : owner = p.val → ∀ w n, Waits a ctl w n → n ≤ outs w) :
    Turns (a.enroll p) owner ctl' outs := by
  have hpc : a.curr ≠ p := by
    rintro rfl
    exact hstop (Or.inr hok.curr_state)
  have hself : (a.enroll p).state p = .ready := Function.update_self ..
  have hstate : ∀ q, q ≠ p → (a.enroll p).state q = a.state q :=
    fun q hq => Function.update_of_ne hq ..
  have hruns : ∀ q, q ≠ p → (a.enroll p).Runs q → a.Runs q := by
    intro q hq hr
    unfold Sched.Runs at hr
    rw [hstate q hq] at hr
    exact hr
  have hwaits : ∀ w n, Waits (a.enroll p) ctl' w n → Waits a ctl w n := by
    intro w n hw
    have hwp : w ≠ p := by
      rintro rfl
      exact hw.ne_out hout
    unfold Waits
    rw [← hstate w hwp, ← hctl w hwp]
    exact hw
  refine ⟨fun q hq => ?_, ?_, fun q hq => ?_, fun ho hr => ?_, fun w n hw => ?_,
    fun hall w n hw => ?_, fun h ho hr w n hw hb => ?_⟩
  · by_cases hqp : q = p
    · rw [hqp, hself] at hq
      cases hq
    · rw [hstate q hqp] at hq
      exact ht.curr_only q hq
  · rw [hstate _ hp.symm]
    exact ht.null_alive
  · have hqp : q ≠ p := by
      rintro rfl
      exact hq hout
    unfold Sched.Runs
    rw [hctl q hqp] at hq
    rw [hstate q hqp]
    exact ht.runs q hq
  · exact ht.null_curr ho (hruns _ hp.symm hr)
  · exact ht.bounded w n (hwaits w n hw)
  · by_cases ho : owner = p.val
    · have := hpaid ho w n (hwaits w n hw)
      omega
    · refine ht.few (fun h hh => hruns h ?_ (hall h hh)) w n (hwaits w n hw)
      rintro rfl
      exact ho hh
  · by_cases hhp : h = p
    · subst hhp
      exact hpaid ho w n (hwaits w n hw)
    · refine ht.turn h ho (hruns h hhp hr) w n (hwaits w n hw) fun hb' => hb ?_
      exact hb'.of_sublist rfl fun hs => hs.trans (List.sublist_append_left ..)

/-- A process is killed, and the lock it may hold is released. -/
theorem kill (ht : Turns a owner ctl outs) (hp : p ≠ nullproc) (hpc : p ≠ a.curr)
    (hfree : a.state p ≠ .free)
    (hpaid : owner = p.val → ¬ a.Runs p → ∀ w n, Waits a ctl w n → n ≤ outs w) :
    Turns (a.kill p) (if owner = p.val then -1 else owner) ctl outs := by
  have hkill : a.kill p =
      { a with state := Function.update a.state p .free, ready := a.ready.erase p } := by
    unfold Sched.kill
    rw [if_neg (by tauto)]
  have hself : (a.kill p).state p = .free := by
    rw [hkill]
    exact Function.update_self ..
  have hstate : ∀ q, q ≠ p → (a.kill p).state q = a.state q := by
    intro q hq
    rw [hkill]
    exact Function.update_of_ne hq ..
  have hcurr : (a.kill p).curr = a.curr := by rw [hkill]
  have hruns : ∀ q, (a.kill p).Runs q → q ≠ p ∧ a.Runs q := by
    intro q hr
    unfold Sched.Runs at hr
    by_cases hq : q = p
    · rw [hq, hself] at hr
      rcases hr with hr | hr <;> cases hr
    · rw [hstate q hq] at hr
      exact ⟨hq, hr⟩
  have hwaits : ∀ w n, Waits (a.kill p) ctl w n → w ≠ p ∧ Waits a ctl w n := by
    intro w n hw
    have hwp : w ≠ p := by
      rintro rfl
      exact hw.1 hself
    refine ⟨hwp, ?_, hw.2⟩
    rw [← hstate w hwp]
    exact hw.1
  have howner : ∀ h : Slot, (if owner = p.val then -1 else owner) = (h.val : ℤ) →
      owner = h.val := by
    intro h ho
    split_ifs at ho with hop
    exact ho
  refine ⟨fun q hq => ?_, ?_, fun q hq => ?_, fun ho hr => ?_, fun w n hw => ?_,
    fun hall w n hw => ?_, fun h ho hr w n hw hb => ?_⟩
  · obtain ⟨hqp, -⟩ := hruns q (Or.inr hq)
    rw [hstate q hqp] at hq
    rw [hcurr]
    exact ht.curr_only q hq
  · rw [hstate _ hp.symm]
    exact ht.null_alive
  · by_cases hqp : q = p
    · rw [hqp]
      exact Or.inl hself
    · unfold Sched.Runs
      rw [hstate q hqp]
      exact ht.runs q hq
  · rw [hcurr]
    exact ht.null_curr (howner _ ho) (hruns _ hr).2
  · exact ht.bounded w n (hwaits w n hw).2
  · by_cases hop : owner = p.val
    · by_cases hrp : a.Runs p
      · refine ht.few (fun h hh => ?_) w n (hwaits w n hw).2
        have heq : h = p := Fin.ext (by omega)
        rw [heq]
        exact hrp
      · have := hpaid hop hrp w n (hwaits w n hw).2
        omega
    · rw [if_neg hop] at hall
      exact ht.few (fun h hh => (hruns h (hall h hh)).2) w n (hwaits w n hw).2
  · obtain ⟨hhp, hr'⟩ := hruns h hr
    obtain ⟨hwp, hw'⟩ := hwaits w n hw
    refine ht.turn h (howner h ho) hr' w n hw' fun hb' => hb ?_
    refine hb'.of_sublist hcurr fun hs => ?_
    have hpair : p ∉ [h, w] := by simp [hhp.symm, hwp.symm]
    rw [hkill, ← List.erase_of_not_mem hpair]
    exact hs.erase p

end Turns

end

end XinuRpi4.Process
