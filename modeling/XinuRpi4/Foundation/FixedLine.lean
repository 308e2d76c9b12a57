import Mathlib.Data.List.DropRight
import XinuRpi4.Foundation.SortedCells
import XinuRpi4.Foundation.TextBuffer

/-!
# Lines of a fixed width

A line keeps its width: what is inserted pushes the last element out, and behind what is
deleted a blank comes in. The cells of an array hold a line, and the loops over them are
insertion, deletion and the removal of trailing blanks.
-/

namespace XinuRpi4.Foundation.FixedLine

variable {α : Type*}

def insertAt (l : List α) (i : ℕ) (a : α) : List α := (l.insertIdx i a).take l.length

def deleteAt (blank : α) (l : List α) (i : ℕ) : List α := l.eraseIdx i ++ [blank]

variable {l : List α} {i j n : ℕ} {a blank : α}

theorem length_insertAt (l : List α) (i : ℕ) (a : α) : (insertAt l i a).length = l.length := by
  rw [insertAt, List.length_take, List.length_insertIdx]
  split_ifs <;> omega

theorem length_deleteAt (blank : α) (h : i < l.length) : (deleteAt blank l i).length = l.length := by
  rw [deleteAt, List.length_append, List.length_eraseIdx_of_lt h, List.length_singleton]
  omega

theorem insertIdx_concat {s : List α} (h : i ≤ s.length) (a b : α) :
    (s ++ [b]).insertIdx i a = s.insertIdx i a ++ [b] := by
  induction s generalizing i with
  | nil =>
    obtain rfl := Nat.le_zero.mp h
    rfl
  | cons c s ih =>
    cases i with
    | zero => rfl
    | succ i =>
      rw [List.cons_append, List.insertIdx_succ_cons, List.insertIdx_succ_cons, List.cons_append,
        ih (Nat.le_of_succ_le_succ h)]

/-- An insertion that pushes a blank out is undone by the deletion. -/
theorem deleteAt_insertAt (h : i < l.length) (hblank : l.getLast? = some blank) (a : α) :
    deleteAt blank (insertAt l i a) i = l := by
  obtain ⟨s, rfl⟩ := List.getLast?_eq_some_iff.mp hblank
  rw [List.length_append, List.length_singleton] at h
  have hins : insertAt (s ++ [blank]) i a = s.insertIdx i a := by
    rw [insertAt, insertIdx_concat (by omega)]
    apply List.take_left'
    rw [List.length_insertIdx_of_le_length (by omega), List.length_append, List.length_singleton]
  rw [deleteAt, hins, List.eraseIdx_insertIdx_self]

variable {row : ℕ → α}

/-- The cells in which `a` has been inserted before position `i`. -/
def inserted (row : ℕ → α) (n i : ℕ) (a : α) (k : ℕ) : α :=
  if k = i then a else if i < k ∧ k < n then row (k - 1) else row k

/-- The cells from which position `i` has been deleted. -/
def deleted (blank : α) (row : ℕ → α) (n i k : ℕ) : α :=
  if k + 1 = n then blank else if i ≤ k ∧ k < n then row (k + 1) else row k

theorem slice_inserted (row : ℕ → α) (n i : ℕ) (a : α) :
    slice (inserted row n i a) 0 n = insertAt (slice row 0 n) i a := by
  apply List.ext_getElem
  · rw [length_insertAt, length_slice, length_slice]
  · intro k hk _
    rw [length_slice] at hk
    simp only [insertAt, List.getElem_take, List.getElem_insertIdx, getElem_slice, Nat.zero_add,
      inserted]
    split_ifs <;> first | rfl | omega

theorem slice_deleted (h : i < n) (blank : α) (row : ℕ → α) :
    slice (deleted blank row n i) 0 n = deleteAt blank (slice row 0 n) i := by
  apply List.ext_getElem
  · rw [length_deleteAt blank (by rwa [length_slice]), length_slice, length_slice]
  · intro k hk _
    rw [length_slice] at hk
    simp only [deleteAt, List.getElem_append, List.getElem_eraseIdx, getElem_slice, Nat.zero_add,
      deleted, List.getElem_singleton, List.length_eraseIdx, length_slice]
    split_ifs <;> first | rfl | omega

theorem slice_succ (row : ℕ → α) (n : ℕ) : slice row 0 (n + 1) = slice row 0 n ++ [row n] := by
  rw [slice_add, Nat.zero_add]
  rfl

theorem getLast?_slice (row : ℕ → α) (n : ℕ) : (slice row 0 (n + 1)).getLast? = some (row n) := by
  rw [slice_succ, List.getLast?_concat]

/-- `while (n > 0 && p(row[n-1])) n--;` -/
def trimLength (p : α → Bool) (row : ℕ → α) : ℕ → ℕ
  | 0 => 0
  | n + 1 => if p (row n) then trimLength p row n else n + 1

theorem trimLength_le (p : α → Bool) (row : ℕ → α) (n : ℕ) : trimLength p row n ≤ n := by
  induction n with
  | zero => exact le_rfl
  | succ n ih =>
    rw [trimLength]
    split_ifs <;> omega

/-- What is left of a line without its trailing blanks. -/
theorem slice_trimLength (p : α → Bool) (row : ℕ → α) (n : ℕ) :
    slice row 0 (trimLength p row n) = (slice row 0 n).rdropWhile p := by
  induction n with
  | zero => rfl
  | succ n ih =>
    rw [trimLength, slice_succ, List.rdropWhile_concat]
    split_ifs
    · exact ih
    · exact slice_succ row n

end XinuRpi4.Foundation.FixedLine
