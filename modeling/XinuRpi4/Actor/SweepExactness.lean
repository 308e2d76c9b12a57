import XinuRpi4.Actor.OneProcess
import XinuRpi4.Actor.Slots
import XinuRpi4.Process.Stacks

/-!
# What a sweep of the collector takes

`ap_gc_sweep` decides, `ap_force_kill` frees the slot and `proc_kill` ends the
process, each with refusals of its own. The loop is described once, for every
table, by the slots that it takes; the counts and the two tables follow. What the
sweep is for is said in terms of the clock and of processes: it frees the actors
that have been idle for long enough, with their processes, and nothing else.
-/

namespace XinuRpi4.Actor

open Foundation Process

namespace Sys

/-- The slots that the loop of a sweep takes. -/
def Takes (s : Sys) (thresholdMs : ℤ) (nowMs : ℕ) (i : ActorId) : Prop :=
  (s.table.act i).pid ≠ -1 ∧ s.idle thresholdMs nowMs i = true

instance (s : Sys) (thresholdMs : ℤ) (nowMs : ℕ) (i : ActorId) :
    Decidable (s.Takes thresholdMs nowMs i) := inferInstanceAs (Decidable (_ ∧ _))

/-- `ap_force_kill` of a slot that the sweep takes is not refused. -/
theorem apForceKill_of_takes {s : Sys} {thresholdMs : ℤ} {nowMs : ℕ} {i : ActorId}
    (hi : i.val < s.table.nact.val) (h : s.Takes thresholdMs nowMs i) {k : Kernel}
    (hk : s.kernel.procKill (s.table.act i).pid = some k) :
    s.apForceKill i.val = some (0, { s with
      kernel := k
      table := { s.table.modify i fun a => { a with pid := -1 } with
        dead := Function.update s.table.dead i true } }) := by
  have hprot : (s.table.act i).protectedFromGc = false := by
    have hidle := h.2
    unfold idle at hidle
    simpa using (of_decide_eq_true hidle).1
  have hslot : s.table.slotOf i.val = some i := ActorTable.slotOf_val hi
  simp only [apForceKill, hslot]
  rw [if_neg (by simp [h.1, hprot]), killSlot, hk]
  rfl

/-- The state after the loop has visited the slots `l`. -/
structure SweptOver (s : Sys) (thresholdMs : ℤ) (nowMs : ℕ) (l : List ActorId) (w : Sweep) :
    Prop where
  intact : w.sys.kernel.Intact
  currpid : w.sys.kernel.currpid = s.kernel.currpid
  nact : w.sys.table.nact = s.table.nact
  act : ∀ i, w.sys.table.act i =
    if i ∈ l ∧ s.Takes thresholdMs nowMs i then { s.table.act i with pid := -1 } else s.table.act i
  dead : ∀ i, w.sys.table.dead i =
    if i ∈ l ∧ s.Takes thresholdMs nowMs i then true else s.table.dead i
  others : w.sys = { s with
    kernel := w.sys.kernel
    table := { s.table with act := w.sys.table.act, dead := w.sys.table.dead } }
  killed : w.killed = l.countP (s.Takes thresholdMs nowMs)
  scanned : w.scanned = l.countP fun i => (s.table.act i).pid ≠ -1
  ended : ∀ i ∈ l, s.Takes thresholdMs nowMs i → ∀ p,
    Kernel.slotOf (s.table.act i).pid = some p → p ≠ s.kernel.currpid → w.sys.kernel.state p = .free
  kept : ∀ p, (∀ i ∈ l, s.Takes thresholdMs nowMs i →
      Kernel.slotOf (s.table.act i).pid ≠ some p ∨ p = s.kernel.currpid ∨
        s.kernel.state p = .free) →
    w.sys.kernel.entry p = s.kernel.entry p

theorem SweptOver.nil {s : Sys} (h : s.kernel.Intact) (thresholdMs : ℤ) (nowMs : ℕ) :
    SweptOver s thresholdMs nowMs [] ⟨s, 0, 0⟩ where
  intact := h
  currpid := rfl
  nact := rfl
  act := by simp
  dead := by simp
  others := rfl
  killed := rfl
  scanned := rfl
  ended := by simp
  kept := fun _ _ => rfl

/-- One round of the loop. -/
theorem SweptOver.sweepSlot {s : Sys} {thresholdMs : ℤ} {nowMs : ℕ} {l : List ActorId} {w : Sweep}
    (h : SweptOver s thresholdMs nowMs l w) {i : ActorId} (hil : i ∉ l)
    (hi : i.val < s.table.nact.val) :
    ∃ w', Sys.sweepSlot thresholdMs false nowMs w i = some w' ∧
      SweptOver s thresholdMs nowMs (l ++ [i]) w' := by
  have hact : w.sys.table.act i = s.table.act i := by
    rw [h.act, if_neg fun hc => hil hc.1]
  have hidle : w.sys.idle thresholdMs nowMs i = s.idle thresholdMs nowMs i :=
    idle_congr hact h.nact thresholdMs nowMs
  have hmem : ∀ {j : ActorId}, j ∈ l ++ [i] ↔ j ∈ l ∨ j = i := by simp
  by_cases htakes : s.Takes thresholdMs nowMs i
  · obtain ⟨hpid, hidle'⟩ := htakes
    have htakes' : w.sys.Takes thresholdMs nowMs i := by
      rw [Takes, hact, hidle]
      exact ⟨hpid, hidle'⟩
    obtain ⟨k, hk, hintact, hcurr, hended, hkept⟩ := h.intact.procKill (w.sys.table.act i).pid
    have hforce := apForceKill_of_takes (by rw [h.nact]; exact hi) htakes' hk
    have hstep : Sys.sweepSlot thresholdMs false nowMs w i = some ⟨{ w.sys with
        kernel := k
        table := { w.sys.table.modify i fun a => { a with pid := -1 } with
          dead := Function.update w.sys.table.dead i true } }, w.killed + 1, w.scanned + 1⟩ := by
      rw [Sys.sweepSlot, if_neg htakes'.1, if_pos htakes'.2, hforce]
      rfl
    refine ⟨_, hstep, ?_⟩
    rw [hact] at hended hkept
    rw [h.currpid] at hended hkept
    constructor
    · exact hintact
    · exact hcurr.trans h.currpid
    · exact h.nact
    · intro j
      by_cases hji : j = i
      · subst hji
        rw [if_pos ⟨hmem.mpr (Or.inr rfl), hpid, hidle'⟩]
        simp [hact]
      · simp only [ActorTable.modify_act_of_ne _ _ hji, h.act, hmem, hji, or_false]
    · intro j
      by_cases hji : j = i
      · subst hji
        rw [if_pos ⟨hmem.mpr (Or.inr rfl), hpid, hidle'⟩]
        simp
      · simp only [Function.update_of_ne hji, h.dead, hmem, hji, or_false]
    · rw [h.others]
      rfl
    · simp only [h.killed, List.countP_append, List.countP_singleton]
      rw [if_pos (decide_eq_true ⟨hpid, hidle'⟩)]
    · simp only [h.scanned, List.countP_append, List.countP_singleton]
      rw [if_pos (decide_eq_true hpid)]
    · intro j hj hjt p hp hne
      by_cases htarget : Kernel.slotOf (s.table.act i).pid = some p
      · exact hended p htarget hne
      · have hjl : j ∈ l := by
          rcases hmem.mp hj with hjl | rfl
          · exact hjl
          · exact absurd hp htarget
        rw [Kernel.state_of_entry (hkept p (Or.inl htarget))]
        exact h.ended j hjl hjt p hp hne
    · intro p hp
      have hold := h.kept p fun j hj => hp j (hmem.mpr (Or.inl hj))
      have hi := hp i (hmem.mpr (Or.inr rfl)) ⟨hpid, hidle'⟩
      rw [← Kernel.state_of_entry hold] at hi
      rw [hkept p hi, hold]
  · -- the slot is free, protected or not idle for long enough
    have hskip : ∀ {j : ActorId}, j ∈ l ++ [i] ∧ s.Takes thresholdMs nowMs j ↔
        j ∈ l ∧ s.Takes thresholdMs nowMs j := by
      intro j
      rw [hmem]
      constructor
      · rintro ⟨hj | rfl, hjt⟩
        · exact ⟨hj, hjt⟩
        · exact absurd hjt htakes
      · exact fun ⟨hj, hjt⟩ => ⟨Or.inl hj, hjt⟩
    refine ⟨⟨w.sys, w.killed, w.scanned + if (s.table.act i).pid ≠ -1 then 1 else 0⟩, ?_, ?_⟩
    · rw [Sys.sweepSlot, hact, hidle]
      by_cases hpid : (s.table.act i).pid = -1
      · simp [hpid]
      · have hno : ¬ s.idle thresholdMs nowMs i = true := fun hc => htakes ⟨hpid, hc⟩
        rw [if_neg hpid, if_neg hno, if_pos hpid]
    · constructor
      · exact h.intact
      · exact h.currpid
      · exact h.nact
      · intro j
        simp only [hskip]
        exact h.act j
      · intro j
        simp only [hskip]
        exact h.dead j
      · exact h.others
      · simp only [h.killed, List.countP_append, List.countP_singleton]
        rw [if_neg (by simpa using htakes), Nat.add_zero]
      · simp only [h.scanned, List.countP_append, List.countP_singleton, decide_eq_true_eq]
      · intro j hj hjt
        obtain ⟨hjl, -⟩ := hskip.mp ⟨hj, hjt⟩
        exact h.ended j hjl hjt
      · exact fun p hp => h.kept p fun j hj => hp j (hmem.mpr (Or.inl hj))

/-- The whole loop. -/
theorem SweptOver.run {s : Sys} {thresholdMs : ℤ} {nowMs : ℕ} {l l' : List ActorId} {w : Sweep}
    (h : SweptOver s thresholdMs nowMs l w) (hnd : (l ++ l').Nodup)
    (hl' : ∀ i ∈ l', i.val < s.table.nact.val) :
    ∃ w', exec (Sys.sweepSlot thresholdMs false nowMs) w l' = some w' ∧
      SweptOver s thresholdMs nowMs (l ++ l') w' := by
  induction l' generalizing l w with
  | nil => exact ⟨w, rfl, by simpa using h⟩
  | cons i l' ih =>
    have hil : i ∉ l := fun hc => (List.nodup_append.mp hnd).2.2 i hc i (by simp) rfl
    obtain ⟨w₁, hstep, h₁⟩ := h.sweepSlot hil (hl' i (by simp))
    obtain ⟨w', hrun, h'⟩ := ih (l := l ++ [i]) h₁ (by simpa using hnd)
      fun j hj => hl' j (by simp [hj])
    refine ⟨w', ?_, by simpa using h'⟩
    rw [exec, hstep]
    exact hrun

/-- A dry run counts the same slots and changes nothing. -/
theorem exec_dryRun {s : Sys} {thresholdMs : ℤ} {nowMs : ℕ} (l : List ActorId) (killed scanned : ℕ) :
    exec (Sys.sweepSlot thresholdMs true nowMs) ⟨s, killed, scanned⟩ l =
      some ⟨s, killed + l.countP (s.Takes thresholdMs nowMs),
        scanned + l.countP fun i => (s.table.act i).pid ≠ -1⟩ := by
  induction l generalizing killed scanned with
  | nil => rfl
  | cons i l ih =>
    rw [exec, Sys.sweepSlot]
    by_cases hpid : (s.table.act i).pid = -1
    · rw [if_pos hpid, Option.bind_some, ih]
      simp [Takes, hpid]
    · rw [if_neg hpid]
      by_cases hidle : s.idle thresholdMs nowMs i
      · rw [if_pos hidle, if_pos rfl, Option.bind_some, ih]
        simp [Takes, hpid, hidle, Nat.add_assoc, Nat.add_comm 1]
      · rw [if_neg hidle, Option.bind_some, ih]
        simp [Takes, hpid, hidle, Nat.add_assoc, Nat.add_comm 1]

/-- The clock minus `last_active_ms`, as numbers. -/
def clockAge (s : Sys) (nowMs : ℕ) (i : ActorId) : ℤ := (nowMs : ℤ) - (s.table.act i).lastActiveMs

def Live (s : Sys) (i : ActorId) : Prop := i.val < s.table.nact.val ∧ (s.table.act i).pid ≠ -1

/-- The actors that a sweep is to free. -/
def Due (s : Sys) (thresholdMs : ℤ) (nowMs : ℕ) (i : ActorId) : Prop :=
  s.Live i ∧ (s.table.act i).protectedFromGc = false ∧ max thresholdMs 0 ≤ s.clockAge nowMs i

/-- What a dry run and a real sweep from the same state are to do. -/
structure SweepExact (s : Sys) (thresholdMs : ℤ) (nowMs : ℕ) (dry real : Sweep) : Prop where
  same_count : dry.killed = real.killed
  dry_unchanged : dry.sys = s
  scanned_eq : real.scanned = s.table.slots.countP fun i => (s.table.act i).pid ≠ -1
  freed : ∀ i, s.Due thresholdMs nowMs i → (real.sys.table.act i).pid = -1 ∧
    ∀ p, Kernel.slotOf (s.table.act i).pid = some p → real.sys.kernel.state p = .free
  kept : ∀ i, ¬ s.Due thresholdMs nowMs i →
    real.sys.table.act i = s.table.act i ∧ real.sys.table.dead i = s.table.dead i
  flags : real.sys.table.jmpArmed = s.table.jmpArmed ∧ real.sys.table.curReply = s.table.curReply
  /-- no actor that is not due, and in particular no protected one, loses its process -/
  owners : ∀ i, s.Live i → ¬ s.Due thresholdMs nowMs i → ∀ p,
    Kernel.slotOf (s.table.act i).pid = some p → real.sys.kernel.entry p = s.kernel.entry p
  others : ∀ p, (∀ i, s.Due thresholdMs nowMs i → Kernel.slotOf (s.table.act i).pid ≠ some p) →
    real.sys.kernel.entry p = s.kernel.entry p

/-- The signed 64-bit age is the age, as far as the threshold is concerned. -/
def AgeFits (s : Sys) (thresholdMs : ℤ) (nowMs : ℕ) (i : ActorId) : Prop :=
  s.clockAge nowMs i < 2 ^ 63 ∧
    (s.clockAge nowMs i < -2 ^ 63 → s.clockAge nowMs i + 2 ^ 64 < max thresholdMs 0)

/-- The ages fit, the sweeping process is none of those to be freed, and no process that
is to be freed is also that of an actor to be kept. -/
structure SweepFits (s : Sys) (thresholdMs : ℤ) (nowMs : ℕ) : Prop where
  age : ∀ i, s.Live i → (s.table.act i).protectedFromGc = false → s.AgeFits thresholdMs nowMs i
  sweeper : ∀ i, s.Due thresholdMs nowMs i →
    Kernel.slotOf (s.table.act i).pid ≠ some s.kernel.currpid
  unshared : ∀ i j, s.Due thresholdMs nowMs i → s.Live j → ¬ s.Due thresholdMs nowMs j → ∀ p,
    Kernel.slotOf (s.table.act i).pid = some p → Kernel.slotOf (s.table.act j).pid = some p →
      s.kernel.state p = .free

/-- The age that `ap_actor_age_ms` computes in 64 bits. -/
theorem bmod_age {d : ℤ} (hlo : -2 ^ 64 < d) (hhi : d < 2 ^ 64) :
    Int.bmod d (2 ^ 64) =
      if d < -2 ^ 63 then d + 2 ^ 64 else if d < 2 ^ 63 then d else d - 2 ^ 64 := by
  rw [Int.bmod_def]
  split_ifs <;> omega

theorem takes_iff {s : Sys} {thresholdMs : ℤ} {nowMs : ℕ} {i : ActorId} (hi : s.Live i) :
    s.Takes thresholdMs nowMs i ↔ (s.table.act i).protectedFromGc = false ∧
      max thresholdMs 0 ≤ Int.bmod (s.clockAge nowMs i) (2 ^ 64) := by
  have hage : s.table.apActorAgeMs i.val nowMs = Int.bmod (s.clockAge nowMs i) (2 ^ 64) := by
    unfold ActorTable.apActorAgeMs
    rw [ActorTable.slotOf_val hi.1]
    dsimp only
    rw [if_neg hi.2]
    rfl
  unfold Takes idle
  rw [hage, max_le_iff]
  simp [hi.2, and_comm]

/-- The sweep takes the actors that are due exactly when the age of each fits. -/
theorem takes_iff_due {s : Sys} {thresholdMs : ℤ} {nowMs : ℕ} {i : ActorId} (hi : s.Live i)
    (ht : thresholdMs < 2 ^ 63) (hnow : nowMs < 2 ^ 64) (hlast : (s.table.act i).lastActiveMs < 2 ^ 64)
    (hprot : (s.table.act i).protectedFromGc = false) :
    (s.Takes thresholdMs nowMs i ↔ s.Due thresholdMs nowMs i) ↔ s.AgeFits thresholdMs nowMs i := by
  have hlo : -2 ^ 64 < s.clockAge nowMs i := by
    unfold clockAge
    omega
  have hhi : s.clockAge nowMs i < 2 ^ 64 := by
    unfold clockAge
    omega
  have hmax : max thresholdMs 0 < 2 ^ 63 := by omega
  have hmax0 : 0 ≤ max thresholdMs 0 := le_max_right _ _
  rw [takes_iff hi, bmod_age hlo hhi]
  simp only [Due, AgeFits, hi, hprot, true_and]
  generalize s.clockAge nowMs i = d at *
  generalize max thresholdMs 0 = m at *
  split_ifs <;> omega

/-- Where the sweep takes the actors that are due, its effect is exact when no refusal of
`proc_kill` and no second owner of a process interferes. -/
theorem SweptOver.exact {s : Sys} {thresholdMs : ℤ} {nowMs : ℕ} {real : Sweep}
    (h : SweptOver s thresholdMs nowMs s.table.slots real)
    (hdue : ∀ i, i ∈ s.table.slots ∧ s.Takes thresholdMs nowMs i ↔ s.Due thresholdMs nowMs i)
    (hsweeper : ∀ i, s.Due thresholdMs nowMs i →
      Kernel.slotOf (s.table.act i).pid ≠ some s.kernel.currpid)
    (hunshared : ∀ i j, s.Due thresholdMs nowMs i → s.Live j → ¬ s.Due thresholdMs nowMs j → ∀ p,
      Kernel.slotOf (s.table.act i).pid = some p → Kernel.slotOf (s.table.act j).pid = some p →
        s.kernel.state p = .free) :
    SweepExact s thresholdMs nowMs
      ⟨s, s.table.slots.countP (s.Takes thresholdMs nowMs),
        s.table.slots.countP fun i => (s.table.act i).pid ≠ -1⟩ real where
  same_count := h.killed.symm
  dry_unchanged := rfl
  scanned_eq := h.scanned
  freed i hi := by
    obtain ⟨hmem, htakes⟩ := (hdue i).mpr hi
    refine ⟨?_, fun p hp => h.ended i hmem htakes p hp ?_⟩
    · rw [h.act, if_pos ⟨hmem, htakes⟩]
    · rintro rfl
      exact hsweeper i hi hp
  kept i hi := by
    rw [h.act, h.dead, if_neg (fun hc => hi ((hdue i).mp hc)),
      if_neg (fun hc => hi ((hdue i).mp hc))]
    exact ⟨rfl, rfl⟩
  flags := by
    rw [h.others]
    exact ⟨rfl, rfl⟩
  owners j hj hjdue p hp := by
    apply h.kept p
    intro i hi ht
    by_cases hip : Kernel.slotOf (s.table.act i).pid = some p
    · exact Or.inr (Or.inr (hunshared i j ((hdue i).mp ⟨hi, ht⟩) hj hjdue p hip hp))
    · exact Or.inl hip
  others p hp := h.kept p fun i hi ht => Or.inl (hp i ((hdue i).mp ⟨hi, ht⟩))

/-- For every actor table, clock and threshold, a dry run and a sweep from the same state
return, and they do what they are to do exactly when the ages fit into 64 bits, the
sweeping process is not to be freed itself, and no process has two owners one of which
is to be kept. -/
theorem sweep_exact_iff {s : Sys} (hk : s.kernel.Intact) {thresholdMs : ℤ} {nowMs : ℕ}
    (ht : thresholdMs < 2 ^ 63) (hnow : nowMs < 2 ^ 64)
    (hlast : ∀ i, s.Live i → (s.table.act i).lastActiveMs < 2 ^ 64) :
    ∃ dry real, s.apGcSweep thresholdMs true nowMs = some dry ∧
      s.apGcSweep thresholdMs false nowMs = some real ∧
      (SweepExact s thresholdMs nowMs dry real ↔ s.SweepFits thresholdMs nowMs) := by
  have hdry := @exec_dryRun s thresholdMs nowMs s.table.slots 0 0
  have hnodup : ([] ++ s.table.slots).Nodup := by simpa using slots_nodup s.table
  obtain ⟨real, hreal, h⟩ :=
    (SweptOver.nil hk thresholdMs nowMs).run hnodup fun i hi => mem_slots.mp hi
  rw [List.nil_append] at h
  simp only [Nat.zero_add] at hdry
  refine ⟨_, real, hdry, hreal, ?_, ?_⟩
  · intro hexact
    have hage : ∀ i, s.Live i → (s.table.act i).protectedFromGc = false →
        s.AgeFits thresholdMs nowMs i := by
      intro i hi hprot
      have hmem := mem_slots.mpr hi.1
      rw [← takes_iff_due hi ht hnow (hlast i hi) hprot]
      have hact := h.act i
      constructor
      · intro htakes
        by_contra hno
        rw [if_pos ⟨hmem, htakes⟩, (hexact.kept i hno).1] at hact
        exact hi.2 (congrArg ActorEnt.pid hact)
      · intro hdue
        by_contra hno
        rw [if_neg fun hc => hno hc.2] at hact
        exact hi.2 ((congrArg ActorEnt.pid hact).symm.trans (hexact.freed i hdue).1)
    have hsweeper : ∀ i, s.Due thresholdMs nowMs i →
        Kernel.slotOf (s.table.act i).pid ≠ some s.kernel.currpid := by
      intro i hi hpid
      have hfree := (hexact.freed i hi).2 _ hpid
      rw [← h.currpid] at hfree
      exact h.intact.curr_alive hfree
    refine ⟨hage, hsweeper, fun i j hi hj hjdue p hip hjp => ?_⟩
    rw [← Kernel.state_of_entry (hexact.owners j hj hjdue p hjp)]
    exact (hexact.freed i hi).2 p hip
  · intro hfits
    have hdue : ∀ i, i ∈ s.table.slots ∧ s.Takes thresholdMs nowMs i ↔
        s.Due thresholdMs nowMs i := by
      intro i
      constructor
      · rintro ⟨hmem, htakes⟩
        have hi : s.Live i := ⟨mem_slots.mp hmem, htakes.1⟩
        have hprot := ((takes_iff hi).mp htakes).1
        exact (takes_iff_due hi ht hnow (hlast i hi) hprot).mpr (hfits.age i hi hprot) |>.mp htakes
      · intro hi
        exact ⟨mem_slots.mpr hi.1.1, (takes_iff_due hi.1 ht hnow (hlast i hi.1) hi.2.1).mpr
          (hfits.age i hi.1 hi.2.1) |>.mpr hi⟩
    exact h.exact hdue hfits.sweeper hfits.unshared

/-- The first spawn leaves the lists of the kernel in order. -/
theorem intact_first_spawn {lo hi nowMs : ℕ} {t : ActorTable} {s' : Sys} {r : ℤ}
    (hhi : hi < Memory.ulongSize) (hlo : 0 < Memory.roundmb lo)
    (hlt : Memory.roundmb lo < Memory.truncmb hi)
    (hs : (init lo hi t).apSpawn nowMs = some (r, s')) : s'.kernel.Intact := by
  have hboot : StackState.Invariant ⟨(init lo hi t).kernel, []⟩ :=
    StackState.init_invariant hhi hlo hlt
  have hsize : ∀ p, ((init lo hi t).kernel.stackOf p).nbytes = 0 := by
    intro p
    change (((Kernel.boot lo hi).procInit).stackOf p).nbytes = 0
    unfold Kernel.procInit Kernel.stackOf
    simp only
    split_ifs <;> rfl
  rcases apSpawn_eq hs with ⟨-, rfl⟩ | ⟨id, t, pid, k, -, hc, rfl⟩
  · exact ⟨hboot.scheduled, hboot.ledger.roomOk fun p => by rw [hsize p]; decide⟩
  · have hspawned := hboot.create hc
    refine ⟨hspawned.scheduled, hspawned.ledger.roomOk fun p => ?_⟩
    rcases Kernel.create_nbytes hc p with heq | heq | heq
    · rw [heq, hsize p]
      decide
    · rw [heq]
      decide
    · rw [heq]
      exact Kernel.stackSize_lt _

/-- The boot process sweeps an actor that has been idle for 10 ms. -/
theorem sweep_exact_iff_spawned :
    ∃ s dry real, exec step (init 4096 65536 bootTable) [.spawn 0] = some s ∧
      s.apGcSweep 5 true 10 = some dry ∧ s.apGcSweep 5 false 10 = some real ∧
      SweepExact s 5 10 dry real := by
  have hview : (exec step (init 4096 65536 bootTable) [.spawn 0]).map (fun s =>
      (s.table.nact, (s.table.act 0).pid, s.kernel.currpid)) = some (1, 1, 0) := by decide
  have hlast : (exec step (init 4096 65536 bootTable) [.spawn 0]).map (fun s =>
      (s.table.act 0).lastActiveMs) = some 0 := by decide
  obtain ⟨s, hs, hview⟩ := Option.map_eq_some_iff.mp hview
  rw [hs] at hlast
  simp only [Option.map_some, Option.some.injEq, Prod.mk.injEq] at hview hlast
  obtain ⟨hnact, hpid, hcurr⟩ := hview
  obtain ⟨r, hspawn⟩ : ∃ r, (init 4096 65536 bootTable).apSpawn 0 = some (r, s) := by
    rw [exec] at hs
    obtain ⟨s₁, hstep, hs₁⟩ := Option.bind_eq_some_iff.mp hs
    cases hs₁
    obtain ⟨f, -, hmap⟩ := asCode_eq hstep
    obtain ⟨⟨r, s₂⟩, hspawn, rfl⟩ := Option.map_eq_some_iff.mp hmap
    exact ⟨r, hspawn⟩
  have hintact : s.kernel.Intact :=
    intact_first_spawn (by decide) (by decide) (by decide) hspawn
  have honly : ∀ i, s.Live i → i = 0 := by
    rintro i ⟨hi, -⟩
    rw [hnact] at hi
    exact Fin.ext (by simpa using hi)
  have hlast' : ∀ i, s.Live i → (s.table.act i).lastActiveMs < 2 ^ 64 := by
    intro i hi
    rw [honly i hi, hlast]
    decide
  obtain ⟨dry, real, hdry, hreal, hiff⟩ :=
    @sweep_exact_iff s hintact 5 10 (by decide) (by decide) hlast'
  refine ⟨s, dry, real, hs, hdry, hreal, hiff.mpr ⟨?_, ?_, ?_⟩⟩
  · intro i hi _
    rw [honly i hi, AgeFits, clockAge, hlast]
    decide
  · intro i hi
    rw [honly i hi.1, hpid, hcurr]
    decide
  · intro i j hi hj hjdue
    rw [honly j hj, ← honly i hi.1] at hjdue
    exact absurd hi hjdue

/-- An actor whose handler sweeps with a threshold of 0 takes its own slot: the slot is
free and counted, the process goes on. -/
theorem sweep_of_own_slot :
    ¬ ∀ s, Reachable step (fun _ _ => True) (init 4096 65536 bootTable) s →
      ∀ thresholdMs nowMs dry real, thresholdMs < 2 ^ 63 → nowMs < 2 ^ 64 →
        s.apGcSweep thresholdMs true nowMs = some dry →
        s.apGcSweep thresholdMs false nowMs = some real →
        SweepExact s thresholdMs nowMs dry real := by
  intro hclaim
  let ops : List SysOp := [.spawn 0, .send 0 7 0 0 0 0, .postStep, .resched, .recvStep 0, .lockStep]
  have hview : (exec step (init 4096 65536 bootTable) ops).map (fun s =>
      ((s.table.nact, (s.table.act 0).pid, (s.table.act 0).lastActiveMs,
        (s.table.act 0).protectedFromGc), (s.apGcSweep 0 true 0).isSome)) =
      some ((1, 1, 0, false), true) := by decide
  have hswept : (exec step (init 4096 65536 bootTable) ops).bind (fun s =>
      (s.apGcSweep 0 false 0).map fun w => w.sys.kernel.state 1) = some .curr := by decide
  obtain ⟨s, hs, hview⟩ := Option.map_eq_some_iff.mp hview
  simp only [Prod.mk.injEq] at hview
  obtain ⟨⟨hnact, hpid, hlast, hprot⟩, hdry⟩ := hview
  obtain ⟨dry, hdry⟩ := Option.isSome_iff_exists.mp hdry
  rw [hs, Option.bind_some] at hswept
  obtain ⟨real, hreal, hstate⟩ := Option.map_eq_some_iff.mp hswept
  have hexact := hclaim s (Reachable.start.exec (.of_forall (fun _ _ _ => trivial) _) hs) 0 0 dry
    real (by decide) (by decide) hdry hreal
  have hdue : s.Due 0 0 0 := by
    refine ⟨⟨?_, ?_⟩, hprot, ?_⟩
    · rw [hnact]
      decide
    · rw [hpid]
      decide
    · rw [clockAge, hlast]
      decide
  have hfree := (hexact.freed 0 hdue).2 1 (by rw [hpid]; decide)
  rw [hstate] at hfree
  cases hfree

end Sys

end XinuRpi4.Actor
