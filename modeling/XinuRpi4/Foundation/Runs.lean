import Mathlib.Tactic

/-!
# Runs of a step function

A system is a partial step function over labels; `none` means that the label
cannot happen in the state. `Reachable step ok s₀` collects the states of the
runs from `s₀` all of whose steps meet the side condition `ok`. An invariant
that every admitted step keeps holds in all of them. When every step that
breaks the side condition also breaks the property at once, a run has the
property throughout exactly when all its steps meet the condition.
-/

namespace XinuRpi4.Foundation

variable {σ ι : Type*}

inductive Reachable (step : σ → ι → Option σ) (ok : σ → ι → Prop) (s₀ : σ) : σ → Prop
  | start : Reachable step ok s₀ s₀
  | next {s s' : σ} {i : ι} : Reachable step ok s₀ s → ok s i → step s i = some s' →
      Reachable step ok s₀ s'

/-- The invariant rule. -/
theorem Reachable.invariant {step : σ → ι → Option σ} {ok : σ → ι → Prop} {s₀ s : σ}
    (I : σ → Prop) (hstart : I s₀)
    (hnext : ∀ s i s', I s → ok s i → step s i = some s' → I s')
    (h : Reachable step ok s₀ s) : I s := by
  induction h with
  | start => exact hstart
  | next _ hok hstep ih => exact hnext _ _ _ ih hok hstep

/-- What holds for the entries of a log holds when one with it is added. -/
theorem forall_mem_snoc {P : ι → Prop} {is : List ι} {i : ι} (h : ∀ j ∈ is, P j) (hi : P i) :
    ∀ j ∈ is ++ [i], P j :=
  List.forall_mem_append.mpr ⟨h, List.forall_mem_singleton.mpr hi⟩

/-- Run a list of labels. -/
def exec (step : σ → ι → Option σ) : σ → List ι → Option σ
  | s, [] => some s
  | s, i :: is => (step s i).bind fun s' => exec step s' is

theorem exec_append (step : σ → ι → Option σ) (s : σ) (is js : List ι) :
    exec step s (is ++ js) = (exec step s is).bind fun t => exec step t js := by
  induction is generalizing s with
  | nil => rfl
  | cons i is ih =>
    simp only [List.cons_append, exec, Option.bind_assoc]
    exact congrArg _ (funext ih)

/-- What every step over the labels of a list keeps holds after the run. -/
theorem exec_invariant {step : σ → ι → Option σ} {is : List ι} (I : σ → Prop)
    (hnext : ∀ i ∈ is, ∀ s s', I s → step s i = some s' → I s') {s t : σ} (hs : I s)
    (hrun : exec step s is = some t) : I t := by
  induction is generalizing s with
  | nil =>
    cases hrun
    exact hs
  | cons i is ih =>
    obtain ⟨s', hstep, hrest⟩ := Option.bind_eq_some_iff.mp hrun
    exact ih (fun j hj => hnext j (List.mem_cons_of_mem i hj))
      (hnext i List.mem_cons_self s s' hs hstep) hrest

/-- What the step for a label establishes, and the others keep, holds for every
label of the list after the run. -/
theorem exec_forall {step : σ → ι → Option σ} {is : List ι} (I : σ → Prop) (Q : ι → σ → Prop)
    (hnext : ∀ i ∈ is, ∀ s s', I s → step s i = some s' → I s' ∧ Q i s' ∧ ∀ j, Q j s → Q j s')
    {s t : σ} (hs : I s) (hrun : exec step s is = some t) :
    I t ∧ (∀ i ∈ is, Q i t) ∧ ∀ j, Q j s → Q j t := by
  induction is generalizing s with
  | nil =>
    cases hrun
    exact ⟨hs, by simp, fun _ h => h⟩
  | cons i is ih =>
    obtain ⟨s', hstep, hrest⟩ := Option.bind_eq_some_iff.mp hrun
    obtain ⟨hI, hQ, hkeep⟩ := hnext i List.mem_cons_self s s' hs hstep
    obtain ⟨hI', hQ', hkeep'⟩ := ih (fun j hj => hnext j (List.mem_cons_of_mem i hj)) hI hrest
    refine ⟨hI', ?_, fun j hj => hkeep' j (hkeep j hj)⟩
    intro j hj
    rcases List.mem_cons.mp hj with rfl | hj
    · exact hkeep' j hQ
    · exact hQ' j hj

/-- A run by one label goes no further than to a state without a step for it. -/
theorem exec_replicate_le {step : σ → ι → Option σ} {i : ι} {m n : ℕ} {s t u : σ}
    (hrun : exec step s (List.replicate m i) = some t) (hend : step t i = none)
    (hrun' : exec step s (List.replicate n i) = some u) : n ≤ m := by
  induction m generalizing s n with
  | zero =>
    cases hrun
    cases n with
    | zero => exact le_rfl
    | succ n => simp [exec, List.replicate_succ, hend] at hrun'
  | succ m ih =>
    cases n with
    | zero => exact Nat.zero_le _
    | succ n =>
      obtain ⟨s', hstep, hrest⟩ := Option.bind_eq_some_iff.mp hrun
      obtain ⟨s'', hstep', hrest'⟩ := Option.bind_eq_some_iff.mp hrun'
      cases hstep.symm.trans hstep'
      exact Nat.succ_le_succ (ih hrest hrest')

/-- A property of every state a run passes through. -/
def Always (step : σ → ι → Option σ) (P : σ → Prop) : σ → List ι → Prop
  | s, [] => P s
  | s, i :: is => P s ∧ ∀ s', step s i = some s' → Always step P s' is

/-- A condition on every step of a run, read in the state before the step. -/
def EachStep (step : σ → ι → Option σ) (ok : σ → ι → Prop) : σ → List ι → Prop
  | _, [] => True
  | s, i :: is => ok s i ∧ ∀ s', step s i = some s' → EachStep step ok s' is

theorem EachStep.of_forall {step : σ → ι → Option σ} {ok : σ → ι → Prop} {is : List ι}
    (h : ∀ s, ∀ i ∈ is, ok s i) (s : σ) : EachStep step ok s is := by
  induction is generalizing s with
  | nil => trivial
  | cons i is ih =>
    refine ⟨h s i List.mem_cons_self, fun s' _ => ih ?_ s'⟩
    exact fun s j hj => h s j (List.mem_cons_of_mem i hj)

theorem EachStep.imp {step : σ → ι → Option σ} {ok ok' : σ → ι → Prop} {s : σ} {is : List ι}
    (h : ∀ s i, ok s i → ok' s i) (hs : EachStep step ok s is) : EachStep step ok' s is := by
  induction is generalizing s with
  | nil => trivial
  | cons i is ih => exact ⟨h s i hs.1, fun s' hstep => ih (hs.2 s' hstep)⟩

/-- A condition that follows from another wherever an invariant holds. -/
theorem EachStep.imp_of_invariant {step : σ → ι → Option σ} {ok ok' : σ → ι → Prop} (I : σ → Prop)
    (hnext : ∀ s i s', I s → ok s i → step s i = some s' → I s')
    (h : ∀ s i, I s → ok s i → ok' s i) {s : σ} (hs : I s) {is : List ι}
    (hok : EachStep step ok s is) : EachStep step ok' s is := by
  induction is generalizing s with
  | nil => trivial
  | cons i is ih =>
    exact ⟨h s i hs hok.1, fun s' hstep => ih (hnext s i s' hs hok.1 hstep) (hok.2 s' hstep)⟩

theorem EachStep.append {step : σ → ι → Option σ} {ok : σ → ι → Prop} {s : σ} {is js : List ι}
    (h : EachStep step ok s is) (h' : ∀ t, exec step s is = some t → EachStep step ok t js) :
    EachStep step ok s (is ++ js) := by
  induction is generalizing s with
  | nil => exact h' s rfl
  | cons i is ih =>
    refine ⟨h.1, fun s' hstep => ih (h.2 s' hstep) fun t ht => h' t ?_⟩
    simpa [exec, hstep] using ht

/-- Two conditions that agree wherever an invariant holds, which the steps that meet a
third condition keep. -/
theorem eachStep_congr_of {step : σ → ι → Option σ} {pre ok ok' : σ → ι → Prop} (I : σ → Prop)
    (hnext : ∀ s i s', I s → pre s i → step s i = some s' → I s')
    (hiff : ∀ s i, I s → pre s i → (ok s i ↔ ok' s i)) {s : σ} (hs : I s) {is : List ι}
    (hpre : EachStep step pre s is) : EachStep step ok s is ↔ EachStep step ok' s is := by
  induction is generalizing s with
  | nil => exact Iff.rfl
  | cons i is ih =>
    refine and_congr (hiff s i hs hpre.1) (forall_congr' fun s' => forall_congr' fun hstep => ?_)
    exact ih (hnext s i s' hs hpre.1 hstep) (hpre.2 s' hstep)

/-- Two conditions that agree wherever an invariant holds. -/
theorem eachStep_congr {step : σ → ι → Option σ} {ok ok' : σ → ι → Prop} (I : σ → Prop)
    (hnext : ∀ s i s', I s → step s i = some s' → I s')
    (hiff : ∀ s i, I s → (ok s i ↔ ok' s i)) {s : σ} (hs : I s) {is : List ι} :
    EachStep step ok s is ↔ EachStep step ok' s is := by
  have hpre : EachStep step (fun _ _ => True) s is := EachStep.of_forall (fun _ _ _ => trivial) s
  exact eachStep_congr_of I (fun s i s' h _ => hnext s i s' h) (fun s i h _ => hiff s i h) hs hpre

instance EachStep.decidable (step : σ → ι → Option σ) (ok : σ → ι → Prop)
    [∀ s i, Decidable (ok s i)] : ∀ s is, Decidable (EachStep step ok s is)
  | _, [] => .isTrue trivial
  | s, i :: is =>
    match h : step s i with
    | none => decidable_of_iff (ok s i) (by simp [EachStep, h])
    | some s' =>
      have := EachStep.decidable step ok s' is
      decidable_of_iff (ok s i ∧ EachStep step ok s' is) (by simp [EachStep, h])

theorem Reachable.exec {step : σ → ι → Option σ} {ok : σ → ι → Prop} {s₀ s t : σ} {is : List ι}
    (h : Reachable step ok s₀ s) (hok : EachStep step ok s is)
    (hrun : exec step s is = some t) : Reachable step ok s₀ t := by
  induction is generalizing s with
  | nil =>
    cases hrun
    exact h
  | cons i is ih =>
    obtain ⟨s', hstep, hrest⟩ := Option.bind_eq_some_iff.mp hrun
    exact ih (h.next hok.1 hstep) (hok.2 s' hstep) hrest

theorem Always.of_exec {step : σ → ι → Option σ} {P : σ → Prop} {s t : σ} {is : List ι}
    (h : Always step P s is) (hrun : exec step s is = some t) : P t := by
  induction is generalizing s with
  | nil =>
    cases hrun
    exact h
  | cons i is ih =>
    obtain ⟨s', hstep, hrest⟩ := Option.bind_eq_some_iff.mp hrun
    exact ih (h.2 s' hstep) hrest

instance Always.decidable (step : σ → ι → Option σ) (P : σ → Prop) [∀ s, Decidable (P s)] :
    ∀ s is, Decidable (Always step P s is)
  | s, [] => inferInstanceAs (Decidable (P s))
  | s, i :: is =>
    match h : step s i with
    | none => decidable_of_iff (P s) (by simp [Always, h])
    | some s' =>
      have := Always.decidable step P s' is
      decidable_of_iff (P s ∧ Always step P s' is) (by simp [Always, h])

/-- An invariant that is kept as long as the property holds. -/
theorem Always.invariant {step : σ → ι → Option σ} {P : σ → Prop} {s t : σ} {is : List ι}
    (h : Always step P s is) (I : σ → Prop)
    (hnext : ∀ s i s', I s → P s' → step s i = some s' → I s') (hs : I s)
    (hrun : exec step s is = some t) : I t := by
  induction is generalizing s with
  | nil =>
    cases hrun
    exact hs
  | cons i is ih =>
    obtain ⟨s', hstep, hrest⟩ := Option.bind_eq_some_iff.mp hrun
    have hP : P s' := by
      have h' := h.2 s' hstep
      cases is with
      | nil => exact h'
      | cons j js => exact h'.1
    exact ih (h.2 s' hstep) (hnext s i s' hs hP hstep) hrest

/-- What holds along a run holds along the rest of it. -/
theorem Always.of_append {step : σ → ι → Option σ} {P : σ → Prop} {s t : σ} {is js : List ι}
    (h : Always step P s (is ++ js)) (hrun : exec step s is = some t) : Always step P t js := by
  induction is generalizing s with
  | nil =>
    cases hrun
    exact h
  | cons i is ih =>
    obtain ⟨s', hstep, hrest⟩ := Option.bind_eq_some_iff.mp hrun
    exact ih (h.2 s' hstep) hrest

/-- An invariant that every admitted step keeps gives a property of all states. -/
theorem always_of_eachStep {step : σ → ι → Option σ} {ok : σ → ι → Prop} (I P : σ → Prop)
    (hIP : ∀ s, I s → P s) (hkeep : ∀ s i s', I s → ok s i → step s i = some s' → I s')
    {s : σ} (hs : I s) {is : List ι} (hok : EachStep step ok s is) : Always step P s is := by
  induction is generalizing s with
  | nil => exact hIP s hs
  | cons i is ih =>
    exact ⟨hIP s hs, fun s' hstep => ih (hkeep s i s' hs hok.1 hstep) (hok.2 s' hstep)⟩

/-- An invariant that every step keeps. -/
theorem always_of_invariant {step : σ → ι → Option σ} (I P : σ → Prop) (hIP : ∀ s, I s → P s)
    (hkeep : ∀ s i s', I s → step s i = some s' → I s') {s : σ} (hs : I s) (is : List ι) :
    Always step P s is := by
  have hany : EachStep step (fun _ _ => True) s is := EachStep.of_forall (fun _ _ _ => trivial) s
  exact always_of_eachStep I P hIP (fun s i s' h _ => hkeep s i s' h) hs hany

/-- A run keeps the property throughout exactly when all its steps meet the
condition, if a step that breaks the condition breaks the property. -/
theorem always_iff_eachStep {step : σ → ι → Option σ} {ok : σ → ι → Prop} (I P : σ → Prop)
    (hIP : ∀ s, I s → P s)
    (hkeep : ∀ s i s', I s → ok s i → step s i = some s' → I s')
    (hbreak : ∀ s i s', I s → ¬ ok s i → step s i = some s' → ¬ P s')
    {s₀ : σ} (hs₀ : I s₀) {is : List ι} (hrun : (exec step s₀ is).isSome) :
    Always step P s₀ is ↔ EachStep step ok s₀ is := by
  induction is generalizing s₀ with
  | nil => exact ⟨fun _ => trivial, fun _ => hIP _ hs₀⟩
  | cons i is ih =>
    cases hstep : step s₀ i with
    | none => simp [exec, hstep] at hrun
    | some s' =>
      have hrun' : (exec step s' is).isSome := by simpa [exec, hstep] using hrun
      have hhead : ∀ {Q : σ → List ι → Prop}, Q s' is ↔ ∀ t, some s' = some t → Q t is := by
        intro Q
        simp
      simp only [Always, EachStep, hstep, ← hhead]
      by_cases hok : ok s₀ i
      · simp [hok, hIP s₀ hs₀, ih (hkeep _ _ _ hs₀ hok hstep) hrun']
      · have hP : ¬ P s' := hbreak _ _ _ hs₀ hok hstep
        have hA : ¬ Always step P s' is := by
          intro h
          cases is with
          | nil => exact hP h
          | cons j js => exact hP h.1
        simp [hok, hA]

/-- The same for every list of labels, when a label that cannot happen meets the
condition. -/
theorem always_iff_eachStep_of_none {step : σ → ι → Option σ} {ok : σ → ι → Prop} (I P : σ → Prop)
    (hIP : ∀ s, I s → P s)
    (hkeep : ∀ s i s', I s → ok s i → step s i = some s' → I s')
    (hbreak : ∀ s i s', I s → ¬ ok s i → step s i = some s' → ¬ P s')
    (hnone : ∀ s i, step s i = none → ok s i) {s₀ : σ} (hs₀ : I s₀) (is : List ι) :
    Always step P s₀ is ↔ EachStep step ok s₀ is := by
  induction is generalizing s₀ with
  | nil => exact ⟨fun _ => trivial, fun _ => hIP _ hs₀⟩
  | cons i is ih =>
    cases hstep : step s₀ i with
    | none => simp [Always, EachStep, hstep, hIP s₀ hs₀, hnone s₀ i hstep]
    | some s' =>
      by_cases hok : ok s₀ i
      · simp [Always, EachStep, hstep, hok, hIP s₀ hs₀, ih (hkeep _ _ _ hs₀ hok hstep)]
      · have hP : ¬ P s' := hbreak _ _ _ hs₀ hok hstep
        have hA : ¬ Always step P s' is := by
          intro h
          cases is with
          | nil => exact hP h
          | cons j js => exact hP h.1
        simp [Always, EachStep, hstep, hok, hA]

/-- All states of a run have one property and all its steps another exactly when the steps meet a
condition, if a step of the second kind that breaks the condition breaks the first property. -/
theorem always_and_eachStep_iff {step : σ → ι → Option σ} {ok Q : σ → ι → Prop} (I P : σ → Prop)
    (hIP : ∀ s, I s → P s) (hQ : ∀ s i, I s → ok s i → Q s i)
    (hkeep : ∀ s i s', I s → ok s i → step s i = some s' → I s')
    (hok : ∀ s i, I s → Q s i → (∀ s', step s i = some s' → P s') → ok s i) {s : σ} (hs : I s)
    (is : List ι) : Always step P s is ∧ EachStep step Q s is ↔ EachStep step ok s is := by
  induction is generalizing s with
  | nil => exact ⟨fun _ => trivial, fun _ => ⟨hIP s hs, trivial⟩⟩
  | cons i is ih =>
    constructor
    · rintro ⟨⟨-, halways⟩, hQs, heach⟩
      have hoks : ok s i := by
        refine hok s i hs hQs fun s' hstep => ?_
        have h := halways s' hstep
        cases is with
        | nil => exact h
        | cons j js => exact h.1
      refine ⟨hoks, fun s' hstep => ?_⟩
      exact (ih (hkeep s i s' hs hoks hstep)).mp ⟨halways s' hstep, heach s' hstep⟩
    · rintro ⟨hoks, heach⟩
      have hrest (s' : σ) (hstep : step s i = some s') :=
        (ih (hkeep s i s' hs hoks hstep)).mpr (heach s' hstep)
      exact ⟨⟨hIP s hs, fun s' hstep => (hrest s' hstep).1⟩, hQ s i hs hoks,
        fun s' hstep => (hrest s' hstep).2⟩

end XinuRpi4.Foundation
