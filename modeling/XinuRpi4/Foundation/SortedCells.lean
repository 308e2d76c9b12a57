import Mathlib.Tactic

/-!
# Sorted tables in an array

An array of `cap` cells is a function with guarded accesses; an access outside
the array has no result. The loops that open a gap in the first `n` cells and
close one up again are given by what they leave in each cell. On top of them
stands the table of the first `n` cells, strictly increasing in a key: insertion
into a gap, removal and replacement, each with what the table holds afterwards.
-/

namespace XinuRpi4.Foundation

variable {α : Type*}

namespace Cells

variable {cap : ℕ} {a : ℕ → α} {n pos i j k : ℕ} {x y : α}

def load (cap : ℕ) (a : ℕ → α) (j : ℕ) : Option α :=
  if j < cap then some (a j) else none

def store (cap : ℕ) (a : ℕ → α) (j : ℕ) (x : α) : Option (ℕ → α) :=
  if j < cap then some (Function.update a j x) else none

/-- `for (j = n; j > pos; j--) a[j] = a[j-1];` -/
def openGap (cap pos : ℕ) : ℕ → (ℕ → α) → Option (ℕ → α)
  | 0, a => some a
  | j + 1, a =>
    if pos < j + 1 then do
      let x ← load cap a j
      let a ← store cap a (j + 1) x
      openGap cap pos j a
    else some a

/-- `for (j = i; j < n; j++) a[j] = a[j+1];`, the first argument being the number
of rounds. -/
def closeGap (cap : ℕ) : ℕ → ℕ → (ℕ → α) → Option (ℕ → α)
  | 0, _, a => some a
  | k + 1, j, a => do
    let x ← load cap a (j + 1)
    let a ← store cap a j x
    closeGap cap k (j + 1) a

@[simp] theorem load_of_lt (h : j < cap) : load cap a j = some (a j) := by
  simp [load, h]

@[simp] theorem store_of_lt (h : j < cap) :
    store cap a j x = some (Function.update a j x) := by
  simp [store, h]

theorem openGap_eq (h : n < cap) (pos : ℕ) (a : ℕ → α) :
    openGap cap pos n a = some fun k => if pos < k ∧ k ≤ n then a (k - 1) else a k := by
  induction n generalizing a with
  | zero =>
    simp only [openGap]
    congr 1
    funext k
    rw [if_neg (by omega)]
  | succ n ih =>
    by_cases hpos : pos < n + 1
    · simp only [openGap, hpos, if_true, load_of_lt (show n < cap by omega), store_of_lt h,
        Option.bind_eq_bind, Option.bind_some]
      rw [ih (by omega)]
      congr 1
      funext k
      by_cases hk : k = n + 1
      · subst hk
        simp [hpos]
      · have hk' : pos < k ∧ k ≤ n ↔ pos < k ∧ k ≤ n + 1 := by omega
        simp only [hk', Function.update_apply, hk, if_false]
        split_ifs with hin hlast
        · omega
        · rfl
        · rfl
    · simp only [openGap, hpos, if_false]
      congr 1
      funext k
      rw [if_neg (by omega)]

theorem closeGap_eq (h : i + k < cap) (a : ℕ → α) :
    closeGap cap k i a = some fun j => if i ≤ j ∧ j < i + k then a (j + 1) else a j := by
  induction k generalizing i a with
  | zero =>
    simp only [closeGap]
    congr 1
    funext j
    rw [if_neg (by omega)]
  | succ k ih =>
    simp only [closeGap, load_of_lt (show i + 1 < cap by omega),
      store_of_lt (show i < cap by omega), Option.bind_eq_bind, Option.bind_some]
    rw [ih (by omega)]
    congr 1
    funext j
    by_cases hj : j = i
    · subst hj
      simp
    · have hj' : i + 1 ≤ j ∧ j < i + 1 + k ↔ i ≤ j ∧ j < i + (k + 1) := by omega
      simp only [hj', Function.update_apply, hj, if_false]
      split_ifs with hin hlast
      · omega
      · rfl
      · rfl

end Cells

/-- The first `n` cells increase strictly in the key. -/
def SortedBy (key : α → ℕ) (a : ℕ → α) (n : ℕ) : Prop :=
  ∀ i j, i < j → j < n → key (a i) < key (a j)

/-- The table of the first `n` cells has the entry `x`. -/
def InTable (a : ℕ → α) (n : ℕ) (x : α) : Prop := ∃ i < n, a i = x

namespace SortedBy

variable {key : α → ℕ} {a : ℕ → α} {n pos i j k : ℕ} {x y : α}

theorem empty (key : α → ℕ) (a : ℕ → α) : SortedBy key a 0 := by
  intro i j _ hj
  omega

theorem index_unique (h : SortedBy key a n) (hi : i < n) (hj : j < n)
    (hk : key (a i) = key (a j)) : i = j := by
  obtain hlt | heq | hgt := Nat.lt_trichotomy i j
  · have := h i j hlt hj
    omega
  · exact heq
  · have := h j i hgt hi
    omega

/-- A new entry in a gap between the smaller and the larger keys. -/
theorem insert (h : SortedBy key a n) (a' : ℕ → α) (hpos : pos ≤ n)
    (hbelow : ∀ i < pos, key (a i) < key x) (habove : ∀ i, pos ≤ i → i < n → key x < key (a i))
    (ha' : ∀ k ≤ n, a' k = if k < pos then a k else if k = pos then x else a (k - 1)) :
    SortedBy key a' (n + 1) ∧ ∀ y, InTable a' (n + 1) y ↔ y = x ∨ InTable a n y := by
  constructor
  · intro i j hij hj
    rw [ha' i (by omega), ha' j (by omega)]
    split_ifs
    · exact h i j hij (by omega)
    · exact hbelow i (by omega)
    · exact (hbelow i (by omega)).trans (habove (j - 1) (by omega) (by omega))
    · omega
    · omega
    · exact habove (j - 1) (by omega) (by omega)
    · omega
    · omega
    · exact h (i - 1) (j - 1) (by omega) (by omega)
  · intro y
    constructor
    · rintro ⟨i, hi, rfl⟩
      rw [ha' i (by omega)]
      split_ifs
      · exact Or.inr ⟨i, by omega, rfl⟩
      · exact Or.inl rfl
      · exact Or.inr ⟨i - 1, by omega, rfl⟩
    · rintro (rfl | ⟨i, hi, rfl⟩)
      · exact ⟨pos, by omega, by simp [ha' pos hpos]⟩
      · by_cases hip : i < pos
        · exact ⟨i, by omega, by simp [ha' i (by omega), hip]⟩
        · refine ⟨i + 1, by omega, ?_⟩
          rw [ha' (i + 1) (by omega), if_neg (by omega), if_neg (by omega), Nat.add_sub_cancel]

/-- The entry at `i` is taken out and the cells behind it move up. -/
theorem remove (h : SortedBy key a n) (a' : ℕ → α) (hi : i < n)
    (ha' : ∀ k < n - 1, a' k = if k < i then a k else a (k + 1)) :
    SortedBy key a' (n - 1) ∧
      ∀ y, InTable a' (n - 1) y ↔ InTable a n y ∧ key y ≠ key (a i) := by
  constructor
  · intro j k hjk hk
    rw [ha' j (by omega), ha' k hk]
    split_ifs
    · exact h j k hjk (by omega)
    · exact h j (k + 1) (by omega) (by omega)
    · omega
    · exact h (j + 1) (k + 1) (by omega) (by omega)
  · intro y
    constructor
    · rintro ⟨j, hj, rfl⟩
      rw [ha' j hj]
      split_ifs
      · exact ⟨⟨j, by omega, rfl⟩, (h j i (by omega) hi).ne⟩
      · exact ⟨⟨j + 1, by omega, rfl⟩, (h i (j + 1) (by omega) (by omega)).ne'⟩
    · rintro ⟨⟨j, hj, rfl⟩, hne⟩
      obtain hlt | heq | hgt := Nat.lt_trichotomy j i
      · exact ⟨j, by omega, by rw [ha' j (by omega), if_pos hlt]⟩
      · exact absurd (by rw [heq]) hne
      · refine ⟨j - 1, by omega, ?_⟩
        rw [ha' (j - 1) (by omega), if_neg (by omega), Nat.sub_add_cancel (by omega)]

/-- The entry at `i` gives way to one with the same key. -/
theorem replace (h : SortedBy key a n) (hi : i < n) (hx : key x = key (a i)) :
    SortedBy key (Function.update a i x) n ∧
      ∀ y, InTable (Function.update a i x) n y ↔ y = x ∨ InTable a n y ∧ key y ≠ key x := by
  have hkey : ∀ k, key (Function.update a i x k) = key (a k) := by
    intro k
    by_cases hk : k = i
    · subst hk
      simp [hx]
    · simp [hk]
  constructor
  · intro j k hjk hk
    rw [hkey, hkey]
    exact h j k hjk hk
  · intro y
    constructor
    · rintro ⟨j, hj, rfl⟩
      by_cases hji : j = i
      · subst hji
        simp
      · right
        rw [Function.update_of_ne hji]
        refine ⟨⟨j, hj, rfl⟩, ?_⟩
        intro hk
        exact hji (h.index_unique hj hi (hk.trans hx))
    · rintro (rfl | ⟨⟨j, hj, rfl⟩, hne⟩)
      · exact ⟨i, hi, by simp⟩
      · refine ⟨j, hj, ?_⟩
        rw [Function.update_of_ne]
        rintro rfl
        exact hne hx.symm

/-- Below the first larger key lie the smaller ones, when the key is not in the
table. -/
theorem below_first (h : SortedBy key a n) {no : ℕ} (hnew : ∀ i < n, key (a i) ≠ no)
    (hpos : pos ≤ n) (hfirst : ∀ i < pos, key (a i) ≤ no)
    (hat : pos < n → no < key (a pos)) :
    (∀ i < pos, key (a i) < no) ∧ ∀ i, pos ≤ i → i < n → no < key (a i) := by
  constructor
  · intro i hi
    exact lt_of_le_of_ne (hfirst i hi) (hnew i (by omega))
  · intro i hpi hi
    obtain rfl | hlt := eq_or_lt_of_le hpi
    · exact hat hi
    · exact (hat (by omega)).trans (h pos i hlt hi)

end SortedBy

end XinuRpi4.Foundation
