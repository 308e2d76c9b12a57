import XinuRpi4.Basic.Keywords

/-!
# Slots of variables

What `var_slot`, `varidx` and `svaridx` do: they find the slot of a name, make one, or
refuse it because there is no name of that kind or no room.
-/

namespace XinuRpi4.Basic

variable {ν : Type} (N : NumOps ν) {s : Interp ν}

theorem varSlot_run (name : Text) (s : Interp ν) :
    (varSlot N name).run s = (match findVar s name with
      | some i => return some i
      | none =>
        if nvarMax ≤ s.nvar then do
          berr "too many vars"
          return none
        else do
          modify fun s => s.addVar N name
          return some s.nvar : BasicM ν (Option ℕ)).run s := rfl

/-- A slot is found, made behind the others, or refused as one too many. -/
theorem varSlot_cases (name : Text) (s : Interp ν) :
    (∃ i < s.nvar, s.vname i = name ∧ (varSlot N name).run s = some (some i, s)) ∨
    ((∀ i < s.nvar, s.vname i ≠ name) ∧
      (s.nvar < nvarMax ∧ (varSlot N name).run s = some (some s.nvar, s.addVar N name) ∨
        nvarMax ≤ s.nvar ∧ (varSlot N name).run s =
          some (none, { s with err := s.err <|> some "too many vars" }))) := by
  rw [varSlot_run]
  cases hfind : findVar s name with
  | some i =>
    left
    have hmem := List.mem_range.mp (List.mem_of_find?_eq_some hfind)
    have hname := List.find?_some hfind
    exact ⟨i, hmem, by simpa using hname, rfl⟩
  | none =>
    right
    refine ⟨fun i hi => ?_, ?_⟩
    · have hno := List.find?_eq_none.mp hfind i (List.mem_range.mpr hi)
      simpa using hno
    · by_cases hfull : nvarMax ≤ s.nvar
      · right
        refine ⟨hfull, ?_⟩
        simp only [if_pos hfull]
        rfl
      · left
        refine ⟨not_le.mp hfull, ?_⟩
        simp only [if_neg hfull]
        rfl

/-- The name of a variable is read and looked up, or the cursor stays. -/
theorem svaridx_run (hblank : skipped s = s) :
    (svaridx N).run s =
      if isStringName (scanName s.ip.rest).1 then
        (varSlot N (scanName s.ip.rest).1).run
          { s with ip := { s.ip with rest := (scanName s.ip.rest).2 } }
      else some (none, s) := by
  have hrun : (svaridx N).run s =
      (if (scanName (skipped s).ip.rest).1 = [] ∨ !isStringName (scanName (skipped s).ip.rest).1 then
        (do setIp s.ip; return none : BasicM ν (Option ℕ))
      else varSlot N (scanName (skipped s).ip.rest).1).run
        { skipped s with ip := { (skipped s).ip with rest := (scanName (skipped s).ip.rest).2 } } := rfl
  rw [hrun, hblank]
  cases hname : isStringName (scanName s.ip.rest).1 with
  | false =>
    have hno : (scanName s.ip.rest).1 = [] ∨ (!false) = true := Or.inr rfl
    rw [if_pos hno, if_neg (by decide)]
    rfl
  | true =>
    have hne : ¬ ((scanName s.ip.rest).1 = [] ∨ (!true) = true) := by
      rintro (h | h)
      · rw [h] at hname
        exact absurd hname (by decide)
      · exact absurd h (by decide)
    rw [if_neg hne, if_pos rfl]

end XinuRpi4.Basic
