import Mathlib.Tactic

/-!
# Ring buffers

A ring of `n` cells with a head and a tail index holds up to `n - 1` elements,
read from head to tail with indices modulo `n`. Appending writes the cell at the
tail. Taking an element out of the middle shifts the elements in front of it by
one cell and moves the head, so that the order of the others stays.
-/

namespace XinuRpi4.Foundation

/-- Cells `0 .. n - 1` of a ring, with the indices of its first element and of
the cell behind its last one. -/
structure Ring (α : Type*) (n : ℕ) where
  cell : ℕ → α
  head : ℕ
  tail : ℕ
  head_lt : head < n
  tail_lt : tail < n

namespace Ring

variable {α : Type*} {n : ℕ}

/-- Number of elements. -/
def length (r : Ring α n) : ℕ := (r.tail + n - r.head) % n

/-- The elements from head to tail. -/
def contents (r : Ring α n) : List α :=
  (List.range r.length).map fun k => r.cell ((r.head + k) % n)

def Full (r : Ring α n) : Prop := (r.tail + 1) % n = r.head

def Empty (r : Ring α n) : Prop := r.head = r.tail

/-- Write the cell at the tail. -/
def push (r : Ring α n) (x : α) : Ring α n where
  cell := Function.update r.cell r.tail x
  head := r.head
  tail := (r.tail + 1) % n
  head_lt := r.head_lt
  tail_lt := Nat.mod_lt _ (by have := r.head_lt; omega)

/-- Move the head over the first cell. -/
def advance (r : Ring α n) : Ring α n where
  cell := r.cell
  head := (r.head + 1) % n
  tail := r.tail
  head_lt := Nat.mod_lt _ (by have := r.head_lt; omega)
  tail_lt := r.tail_lt

/-- Both indices at the first cell. -/
def clear (r : Ring α n) : Ring α n where
  cell := r.cell
  head := 0
  tail := 0
  head_lt := Nat.zero_lt_of_lt r.head_lt
  tail_lt := Nat.zero_lt_of_lt r.head_lt

/-- Shift cells toward the tail, from index `j` down to the head. -/
def shiftLoop (n head : ℕ) : ℕ → ℕ → (ℕ → α) → ℕ → α
  | 0, _, cell => cell
  | fuel + 1, j, cell =>
    if j = head then cell
    else
      let p := (j + n - 1) % n
      shiftLoop n head fuel p (Function.update cell j (cell p))

/-- Take out the element at index `idx`, compacting toward the head. -/
def removeAt (r : Ring α n) (idx : ℕ) : Ring α n :=
  { r with cell := shiftLoop n r.head n idx r.cell }.advance

/-- Reduction of an index that wraps at most once. -/
theorem mod_eq_ite {i : ℕ} (h : i < 2 * n) : i % n = if i < n then i else i - n := by
  split_ifs with hi
  · exact Nat.mod_eq_of_lt hi
  · rw [Nat.mod_eq_sub_mod (by omega), Nat.mod_eq_of_lt (by omega)]

theorem length_lt (r : Ring α n) : r.length < n :=
  Nat.mod_lt _ (by have := r.head_lt; omega)

theorem length_eq (r : Ring α n) :
    r.length = if r.head ≤ r.tail then r.tail - r.head else r.tail + n - r.head := by
  have hh := r.head_lt
  have ht := r.tail_lt
  unfold length
  rw [mod_eq_ite (by omega)]
  split_ifs <;> omega

@[simp] theorem length_contents (r : Ring α n) : r.contents.length = r.length := by
  simp [contents]

theorem getElem?_contents (r : Ring α n) (k : ℕ) :
    r.contents[k]? = if k < r.length then some (r.cell ((r.head + k) % n)) else none := by
  unfold contents
  rw [List.getElem?_map]
  split_ifs with h
  · rw [List.getElem?_range h, Option.map_some]
  · rw [List.getElem?_eq_none (by simpa using h), Option.map_none]

theorem empty_iff (r : Ring α n) : r.Empty ↔ r.contents = [] := by
  have hh := r.head_lt
  have ht := r.tail_lt
  rw [← List.length_eq_zero_iff, length_contents, length_eq, Empty]
  split_ifs <;> omega

@[simp] theorem contents_clear (r : Ring α n) : r.clear.contents = [] :=
  (empty_iff _).mp rfl

theorem full_iff (r : Ring α n) : r.Full ↔ r.contents.length = n - 1 := by
  have hh := r.head_lt
  have ht := r.tail_lt
  rw [length_contents, length_eq, Full, mod_eq_ite (by omega)]
  split_ifs <;> omega

/-- Cells at different offsets from the head are different. -/
theorem offset_inj {h j k : ℕ} (hh : h < n) (hj : j < n) (hk : k < n) :
    (h + j) % n = (h + k) % n ↔ j = k := by
  rw [mod_eq_ite (by omega), mod_eq_ite (by omega)]
  split_ifs <;> omega

theorem tail_eq (r : Ring α n) : r.tail = (r.head + r.length) % n := by
  have hh := r.head_lt
  have ht := r.tail_lt
  rw [length_eq]
  split_ifs with h
  · rw [mod_eq_ite (by omega)]
    split_ifs <;> omega
  · rw [mod_eq_ite (by omega)]
    split_ifs <;> omega

theorem contents_push (r : Ring α n) (x : α) (h : ¬ r.Full) :
    (r.push x).contents = r.contents ++ [x] := by
  have hh := r.head_lt
  have ht := r.tail_lt
  have hlen : (r.push x).length = r.length + 1 := by
    rw [length_eq, length_eq, push]
    simp only [Full] at h ⊢
    rw [mod_eq_ite (by omega)] at h ⊢
    split_ifs at h ⊢ <;> omega
  have hlt := (r.push x).length_lt
  apply List.ext_getElem
  · simp [hlen]
  · intro k hk _
    rw [length_contents, hlen] at hk
    rw [List.getElem_append]
    split_ifs with hkl
    · rw [length_contents] at hkl
      have hne : (r.head + k) % n ≠ r.tail := by
        rw [tail_eq, Ne, offset_inj hh (by omega) (by omega)]
        omega
      simp [contents, push, hne]
    · rw [length_contents] at hkl
      have hk' : k = r.length := by omega
      have htail : (r.head + r.length) % n = r.tail := r.tail_eq.symm
      simp [contents, push, hk', htail]

theorem contents_advance (r : Ring α n) (h : ¬ r.Empty) :
    r.contents = r.cell r.head :: r.advance.contents := by
  have hh := r.head_lt
  have ht := r.tail_lt
  have hlen : r.length = r.advance.length + 1 := by
    rw [length_eq, length_eq, advance]
    simp only [Empty] at h ⊢
    rw [mod_eq_ite (by omega)]
    split_ifs <;> omega
  have hlt := r.length_lt
  apply List.ext_getElem
  · simp [hlen]
  · intro k hk _
    rw [length_contents] at hk
    cases k with
    | zero => simp [contents, Nat.mod_eq_of_lt hh]
    | succ k =>
      have hidx : (r.head + (k + 1)) % n = ((r.head + 1) % n + k) % n := by
        rw [Nat.mod_add_mod]
        congr 1
        omega
      simp [contents, advance, hidx]

/-- The cell before the one at offset `o + 1` is the one at offset `o`. -/
theorem pred_offset {h o : ℕ} (hh : h < n) (ho : o + 1 < n) :
    ((h + (o + 1)) % n + n - 1) % n = (h + o) % n := by
  have hidx : (h + (o + 1)) % n = if h + (o + 1) < n then h + (o + 1) else h + (o + 1) - n :=
    mod_eq_ite (by omega)
  rw [hidx, mod_eq_ite (i := h + o) (by omega), mod_eq_ite (by split_ifs <;> omega)]
  split_ifs <;> omega

/-- After the shift from offset `o`, offsets `1 .. o` hold what was one before them. -/
theorem shiftLoop_offset {h o k : ℕ} (hh : h < n) (ho : o < n) (hk : k < n) (fuel : ℕ)
    (hfuel : o < fuel) (cell : ℕ → α) :
    shiftLoop n h fuel ((h + o) % n) cell ((h + k) % n) =
      if 1 ≤ k ∧ k ≤ o then cell ((h + (k - 1)) % n) else cell ((h + k) % n) := by
  induction o generalizing fuel cell with
  | zero =>
    obtain ⟨fuel, rfl⟩ : ∃ f, fuel = f + 1 := ⟨fuel - 1, by omega⟩
    have hk' : ¬ (1 ≤ k ∧ k ≤ 0) := by omega
    rw [if_neg hk', shiftLoop, if_pos (by rw [Nat.add_zero, Nat.mod_eq_of_lt hh])]
  | succ o ih =>
    obtain ⟨fuel, rfl⟩ : ∃ f, fuel = f + 1 := ⟨fuel - 1, by omega⟩
    have hne : (h + (o + 1)) % n ≠ h := by
      intro heq
      have hinj := (offset_inj (k := 0) hh ho (by omega)).mp
        (heq.trans (Nat.mod_eq_of_lt hh).symm)
      omega
    rw [shiftLoop, if_neg hne, pred_offset hh ho, ih (by omega) fuel (by omega)]
    have hupd : ∀ j, j < n → Function.update cell ((h + (o + 1)) % n) (cell ((h + o) % n))
        ((h + j) % n) = if j = o + 1 then cell ((h + o) % n) else cell ((h + j) % n) := by
      intro j hj
      rw [Function.update_apply]
      simp only [offset_inj hh hj ho]
    rw [hupd k hk, hupd (k - 1) (by omega)]
    by_cases hko : k = o + 1
    · simp [hko]
    · have hiff : 1 ≤ k ∧ k ≤ o + 1 ↔ 1 ≤ k ∧ k ≤ o := by omega
      simp only [hiff, if_neg hko]
      split_ifs with hin hout
      · omega
      · rfl
      · rfl

/-- Taking out one element leaves the others in their order. -/
theorem contents_removeAt (r : Ring α n) {o : ℕ} (ho : o < r.length) :
    (r.removeAt ((r.head + o) % n)).contents = r.contents.eraseIdx o := by
  have hh := r.head_lt
  have hlt := r.length_lt
  have hne : ¬ r.Empty := by
    rw [empty_iff, ← List.length_eq_zero_iff, length_contents]
    omega
  have hlen : (r.removeAt ((r.head + o) % n)).length + 1 = r.length := by
    have h := congrArg List.length (contents_advance r hne)
    simp only [length_contents, List.length_cons] at h
    exact h.symm
  apply List.ext_getElem?
  intro k
  rw [List.getElem?_eraseIdx, getElem?_contents, getElem?_contents, getElem?_contents]
  have hidx : ((r.removeAt ((r.head + o) % n)).head + k) % n = (r.head + (k + 1)) % n := by
    change ((r.head + 1) % n + k) % n = _
    rw [Nat.mod_add_mod]
    congr 1
    omega
  rw [hidx]
  by_cases hk : k < (r.removeAt ((r.head + o) % n)).length
  · have hcell : (r.removeAt ((r.head + o) % n)).cell ((r.head + (k + 1)) % n) =
        if 1 ≤ k + 1 ∧ k + 1 ≤ o then r.cell ((r.head + (k + 1 - 1)) % n)
        else r.cell ((r.head + (k + 1)) % n) :=
      shiftLoop_offset hh (by omega) (by omega) n (by omega) r.cell
    have h₁ : k < r.length := by omega
    have h₂ : k + 1 < r.length := by omega
    rw [hcell, if_pos hk, if_pos h₁, if_pos h₂, Nat.add_sub_cancel]
    split_ifs <;> first | rfl | omega
  · have h₂ : ¬ k + 1 < r.length := by omega
    have h₁ : ¬ k < o := by omega
    rw [if_neg hk, if_neg h₁, if_neg h₂]

end Ring

end XinuRpi4.Foundation
