import Mathlib.Tactic

/-!
# Scans of lists

A list is read from its front, for the first match of a test or for the elements that satisfy a
predicate.

A test is tried on the rest of a list from one position after the other, until it has a
result. What it finds is the result at the first position where there is one.

A scan that takes the elements that satisfy a predicate, but at most so many. What it
leaves is what the predicate stops at when it stops early enough, and an element that
satisfies the predicate otherwise.
-/

namespace XinuRpi4.Foundation

section

variable {α β : Type*} {f : List α → Option β} {xs ys : List α} {y : β} {i : ℕ}

/-- The scan stops at the end of the list, where the test is not tried any more. -/
def scan (f : List α → Option β) : List α → Option β
  | [] => none
  | x :: xs =>
    match f (x :: xs) with
    | some y => some y
    | none => scan f xs

theorem scan_cons (f : List α → Option β) (x : α) (xs : List α) : scan f (x :: xs) =
    match f (x :: xs) with
    | some y => some y
    | none => scan f xs := rfl

/-- The test has this result at position `i`, and none before. -/
def FirstAt (f : List α → Option β) (xs : List α) (i : ℕ) (y : β) : Prop :=
  f (xs.drop i) = some y ∧ ∀ j < i, f (xs.drop j) = none

theorem FirstAt.unique {j : ℕ} {z : β} (h : FirstAt f xs i y) (h' : FirstAt f xs j z) :
    i = j ∧ y = z := by
  have hij : i = j := by
    by_contra hne
    rcases lt_or_gt_of_ne hne with hlt | hlt
    · simpa [h.1] using h'.2 i hlt
    · simpa [h'.1] using h.2 j hlt
  subst hij
  exact ⟨rfl, Option.some.inj (h.1.symm.trans h'.1)⟩

/-- Where the test has a result at all there is a first position of one. -/
theorem exists_firstAt (h : f (xs.drop i) = some y) : ∃ j z, j ≤ i ∧ FirstAt f xs j z := by
  classical
  have hex : ∃ j, f (xs.drop j) ≠ none := ⟨i, by simp [h]⟩
  obtain ⟨z, hz⟩ := Option.ne_none_iff_exists'.mp (Nat.find_spec hex)
  have hle : Nat.find hex ≤ i := Nat.find_min' hex (by simp [h])
  exact ⟨Nat.find hex, z, hle, hz, fun j hj => not_not.mp (Nat.find_min hex hj)⟩

theorem FirstAt.cons {x : α} (hx : f (x :: xs) = none) (h : FirstAt f xs i y) :
    FirstAt f (x :: xs) (i + 1) y := by
  constructor
  · simpa using h.1
  · intro j hj
    cases j with
    | zero => simpa using hx
    | succ j => simpa using h.2 j (by omega)

theorem FirstAt.of_cons {x : α} (hx : f (x :: xs) = none) (h : FirstAt f (x :: xs) i y) :
    ∃ j, i = j + 1 ∧ FirstAt f xs j y := by
  cases i with
  | zero => simp [FirstAt, hx] at h
  | succ j =>
    have hbefore : ∀ k < j, f (xs.drop k) = none := by
      intro k hk
      simpa using h.2 (k + 1) (by omega)
    exact ⟨j, rfl, by simpa using h.1, hbefore⟩

theorem scan_eq_some (hnil : f [] = none) : scan f xs = some y ↔ ∃ i, FirstAt f xs i y := by
  induction xs with
  | nil => simp [scan, FirstAt, hnil]
  | cons x xs ih =>
    unfold scan
    cases hx : f (x :: xs) with
    | none =>
      simp only [ih]
      constructor
      · rintro ⟨i, hi⟩
        exact ⟨i + 1, hi.cons hx⟩
      · rintro ⟨i, hi⟩
        obtain ⟨j, -, hj⟩ := hi.of_cons hx
        exact ⟨j, hj⟩
    | some z =>
      have hfirst : FirstAt f (x :: xs) 0 z := ⟨by simpa using hx, by simp⟩
      constructor
      · intro h
        exact ⟨0, Option.some.inj h ▸ hfirst⟩
      · rintro ⟨i, hi⟩
        exact congrArg some (hfirst.unique hi).2

theorem scan_eq_none (hnil : f [] = none) : scan f xs = none ↔ ∀ i, f (xs.drop i) = none := by
  induction xs with
  | nil => simp [scan, hnil]
  | cons x xs ih =>
    unfold scan
    cases hx : f (x :: xs) with
    | none =>
      simp only [ih]
      constructor
      · intro h i
        cases i with
        | zero => simpa using hx
        | succ i => simpa using h i
      · intro h i
        simpa using h (i + 1)
    | some z =>
      constructor
      · intro h
        simp at h
      · intro h
        simpa [hx] using h 0

theorem scan_of_firstAt (hnil : f [] = none) (h : FirstAt f xs i y) : scan f xs = some y :=
  (scan_eq_some hnil).mpr ⟨i, h⟩

end

section

variable {α : Type} (p : α → Bool)

theorem drop_length_takeWhile (l : List α) : l.drop (l.takeWhile p).length = l.dropWhile p := by
  induction l with
  | nil => rfl
  | cons x l ih =>
    cases hx : p x
    · simp [hx]
    · simp [hx, ih]

/-- The scan has not reached its bound. -/
theorem drop_scan_of_le {n : ℕ} {l : List α} (h : (l.takeWhile p).length ≤ n) :
    l.drop ((l.take n).takeWhile p).length = l.dropWhile p := by
  rw [← List.take_takeWhile, List.take_of_length_le h, drop_length_takeWhile]

/-- The scan has stopped at its bound, in front of another element. -/
theorem drop_scan_of_lt {n : ℕ} {l : List α} (h : n < (l.takeWhile p).length) :
    l.drop ((l.take n).takeWhile p).length =
      (l.takeWhile p).drop n ++ l.dropWhile p := by
  rw [← List.take_takeWhile, List.length_take, min_eq_left h.le]
  conv_lhs => rw [← List.takeWhile_append_dropWhile (p := p) (l := l)]
  rw [List.drop_append_of_le_length h.le]

end

end XinuRpi4.Foundation
