import Mathlib.Tactic

/-!
# Maximal munch

Lexemes have spellings, and a text begins with several of them. The longest one is taken,
and the next ones from the rest. Every text is taken apart so up to its end or to a place
where no lexeme begins.
-/

namespace XinuRpi4.Foundation

/-- Lexemes of type `ι`, spelled in the letters `α`. -/
structure Lexicon (α ι : Type*) where
  Valid : ι → Prop
  spelling : ι → List α
  spelling_ne_nil : ∀ l, Valid l → spelling l ≠ []

namespace Lexicon

variable {α ι : Type*} (L : Lexicon α ι)

/-- The text begins with the lexeme. -/
def Begins (l : ι) (text : List α) : Prop := L.Valid l ∧ L.spelling l <+: text

/-- No lexeme at the beginning of the text is longer. -/
def Longest (l : ι) (text : List α) : Prop :=
  L.Begins l text ∧ ∀ l', L.Begins l' text → (L.spelling l').length ≤ (L.spelling l).length

/-- The text is some lexemes, each the longest one, and a rest. -/
inductive Munch : List α → List ι → List α → Prop
  | nil (text : List α) : Munch text [] text
  | cons {l : ι} {text rest tail : List α} {ls : List ι} (h : L.Longest l text)
      (hrest : text = L.spelling l ++ rest) (hm : Munch rest ls tail) : Munch text (l :: ls) tail

variable {L} {l : ι} {text rest tail : List α} {ls : List ι}

theorem exists_longest (h : L.Begins l text) : ∃ l', L.Longest l' text := by
  by_contra hno
  -- otherwise there are lexemes of any length at the beginning of the text
  have hlong : ∀ n, ∃ l', L.Begins l' text ∧ n ≤ (L.spelling l').length := by
    intro n
    induction n with
    | zero => exact ⟨l, h, Nat.zero_le _⟩
    | succ n ih =>
      obtain ⟨l', hl', hn⟩ := ih
      have hmax : ¬ ∀ m, L.Begins m text → (L.spelling m).length ≤ (L.spelling l').length :=
        fun hmax => hno ⟨l', hl', hmax⟩
      simp only [not_forall, not_le, exists_prop] at hmax
      obtain ⟨m, hm, hlt⟩ := hmax
      exact ⟨m, hm, by omega⟩
  obtain ⟨l', hl', hn⟩ := hlong (text.length + 1)
  have hle := hl'.2.length_le
  omega

/-- The spellings of the lexemes give back the text. -/
theorem Munch.flatten (h : L.Munch text ls tail) :
    text = (ls.map L.spelling).flatten ++ tail := by
  induction h with
  | nil text => rfl
  | cons _ hrest _ ih =>
    rw [hrest, ih]
    simp

theorem Munch.length_le (h : L.Munch text ls tail) : ls.length + tail.length ≤ text.length := by
  induction h with
  | nil text => simp
  | @cons l text rest tail ls h hrest _ ih =>
    have hpos := List.length_pos_iff.mpr (L.spelling_ne_nil l h.1.1)
    rw [hrest, List.length_append, List.length_cons]
    omega

theorem exists_munch (text : List α) :
    ∃ ls tail, L.Munch text ls tail ∧ ∀ l, ¬ L.Begins l tail := by
  induction hn : text.length using Nat.strong_induction_on generalizing text with
  | _ n ih =>
    by_cases h : ∃ l, L.Begins l text
    · obtain ⟨l₀, hl₀⟩ := h
      obtain ⟨l, hl⟩ := exists_longest hl₀
      obtain ⟨rest, hrest⟩ := hl.1.2
      have hpos := List.length_pos_iff.mpr (L.spelling_ne_nil l hl.1.1)
      have hlen := congrArg List.length hrest
      rw [List.length_append] at hlen
      obtain ⟨ls, tail, hm, hstuck⟩ := ih rest.length (by omega) rest rfl
      exact ⟨l :: ls, tail, .cons hl hrest.symm hm, hstuck⟩
    · exact ⟨[], text, .nil text, fun l hl => h ⟨l, hl⟩⟩

end Lexicon

end XinuRpi4.Foundation
