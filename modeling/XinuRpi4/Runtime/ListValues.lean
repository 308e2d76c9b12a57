import XinuRpi4.Runtime.ListHeap

/-!
# Lists are immutable values

The operations write above `g_lheaplen` only, so a block below it keeps the list it
holds. As long as there is room, each operation answers with a new block that holds
the list it should; `v_list_new` and `v_list_zeros` answer with an integer when there
is none.
-/

namespace XinuRpi4.Runtime

open Foundation

theorem int32_of_small {x : ℤ} (h₀ : 0 ≤ x) (h₁ : x < 2 ^ 31) : int32 x = x := by
  unfold int32
  rw [Int.bmod_def]
  split_ifs <;> omega

theorem toInt_ofNat_of_small {n : ℕ} (h : n < 2 ^ 63) : (BitVec.ofNat 64 n).toInt = n := by
  rw [BitVec.toInt_eq_toNat_bmod, BitVec.toNat_ofNat, Nat.mod_eq_of_lt (by omega), Int.bmod_def]
  push_cast
  split_ifs <;> omega

theorem ofNat_add_ofNat (a b : ℕ) :
    BitVec.ofNat 64 a + BitVec.ofNat 64 b = BitVec.ofNat 64 (a + b) :=
  (BitVec.ofNat_add a b).symm

theorem toInt_ofNat_add_one {n : ℕ} (h : n + 1 < 2 ^ 63) : (BitVec.ofNat 64 n + 1).toInt = n + 1 := by
  have hsum := ofNat_add_ofNat n 1
  rw [show (1 : Word) = BitVec.ofNat 64 1 from rfl, hsum, toInt_ofNat_of_small h]
  push_cast
  ring

theorem toInt_ofNat_add_two {n : ℕ} (h : n + 2 < 2 ^ 63) : (BitVec.ofNat 64 n + 2).toInt = n + 2 := by
  have hsum := ofNat_add_ofNat n 2
  rw [show (2 : Word) = BitVec.ofNat 64 2 from rfl, hsum, toInt_ofNat_of_small h]
  push_cast
  ring

namespace ListHeap

variable {A : ListArea} {h h' h'' : ListHeap}

/-- `&g_lheap[k]`. -/
def ptr (A : ListArea) (k : ℕ) : Word := BitVec.ofNat 64 (A.base + 8 * k)

/-- The value that points to the block at cell `k`. -/
def listWord (A : ListArea) (k : ℕ) : Word := ptr A k ||| vListTag

/-- The block at cell `k` holds the list, in the used part of the array. -/
structure BlockAt (h : ListHeap) (k : ℕ) (l : List Word) : Prop where
  inside : (k : ℤ) + 1 + l.length ≤ h.len
  length : h.cells k = BitVec.ofNat 64 l.length
  items : ∀ i v, l[i]? = some v → h.cells (k + 1 + i) = v

/-- The list that a value stands for; what is no list stands for the empty one. -/
def Denotes (A : ListArea) (h : ListHeap) (w : Word) (l : List Word) : Prop :=
  if vIsList w then ∃ k, w = listWord A k ∧ h.BlockAt k l else l = []

/-- The used part is a part of the array. -/
def Good (h : ListHeap) : Prop := 0 ≤ h.len ∧ h.len ≤ lheapCells

/-- The used part grows, and keeps its contents. -/
structure Extends (h h' : ListHeap) : Prop where
  len_le : h.len ≤ h'.len
  cells_eq : ∀ j : ℕ, (j : ℤ) < h.len → h'.cells j = h.cells j

theorem Extends.refl (h : ListHeap) : h.Extends h := ⟨le_rfl, fun _ _ => rfl⟩

theorem Extends.trans (h₁ : h.Extends h') (h₂ : h'.Extends h'') : h.Extends h'' where
  len_le := h₁.len_le.trans h₂.len_le
  cells_eq j hj := (h₂.cells_eq j (by have := h₁.len_le; omega)).trans (h₁.cells_eq j hj)

theorem BlockAt.mono {k : ℕ} {l : List Word} (hb : h.BlockAt k l) (he : h.Extends h') :
    h'.BlockAt k l where
  inside := hb.inside.trans he.len_le
  length := by
    rw [he.cells_eq k (by have := hb.inside; omega)]
    exact hb.length
  items i v hv := by
    have hi := (List.getElem?_eq_some_iff.mp hv).1
    rw [he.cells_eq _ (by have := hb.inside; push_cast; omega)]
    exact hb.items i v hv

/-- No operation changes the list that a value stands for. -/
theorem Denotes.mono {w : Word} {l : List Word} (hd : h.Denotes A w l) (he : h.Extends h') :
    h'.Denotes A w l := by
  unfold Denotes at *
  split_ifs at hd ⊢
  · obtain ⟨k, hw, hb⟩ := hd
    exact ⟨k, hw, hb.mono he⟩
  · exact hd

theorem denotes_of_not_list {w : Word} (hw : vIsList w = false) : h.Denotes A w [] := by
  simp [Denotes, hw]

section Access

variable {k : ℕ} {i : ℕ}

theorem base_lt (A : ListArea) (hk : k ≤ lheapCells) : A.base + 8 * k < 2 ^ 48 := by
  have := A.low
  omega

theorem ptr_toNat (hk : k ≤ lheapCells) : (ptr A k).toNat = A.base + 8 * k := by
  have := base_lt A hk
  rw [ptr, BitVec.toNat_ofNat]
  exact Nat.mod_eq_of_lt (by omega)

theorem ptr_ne_zero (hk : k ≤ lheapCells) : ptr A k ≠ 0 := by
  intro heq
  have hnat := ptr_toNat (A := A) hk
  have hpos := A.base_pos
  rw [heq] at hnat
  simp at hnat
  omega

theorem vIsList_listWord (hk : k ≤ lheapCells) : vIsList (listWord A k) = true := by
  have h8 := A.aligned
  exact vIsList_tagged (base_lt A hk) (by omega)

theorem vListPtr_listWord (hk : k ≤ lheapCells) : vListPtr (listWord A k) = ptr A k :=
  vListPtr_tagged (base_lt A hk)

theorem cellOf_ptr (hki : k + i < lheapCells) : cellOf A (ptr A k) i = some (k + i) := by
  have hoff : ((ptr A k).toNat : ℤ) + 8 * i - A.base = 8 * (k + i : ℕ) := by
    rw [ptr_toNat (by omega)]
    push_cast
    ring
  have hin : 0 ≤ (8 : ℤ) * (k + i : ℕ) ∧ (8 : ℤ) * (k + i : ℕ) < 8 * lheapCells ∧
      (8 : ℤ) ∣ 8 * (k + i : ℕ) := by
    refine ⟨by omega, by omega, Dvd.intro _ rfl⟩
  unfold cellOf
  simp only [hoff]
  rw [if_pos hin]
  congr 1
  omega

theorem load_ptr (hki : k + i < lheapCells) : h.load A (ptr A k) i = some (h.cells (k + i)) := by
  rw [load, cellOf_ptr hki, Option.map_some]

theorem store_ptr (hki : k + i < lheapCells) (v : Word) :
    h.store A (ptr A k) i v = some { h with cells := Function.update h.cells (k + i) v } := by
  rw [store, cellOf_ptr hki, Option.map_some]

end Access

/-- The value points to its block. -/
theorem listWord_injective {j k : ℕ} (hj : j ≤ lheapCells) (hk : k ≤ lheapCells)
    (heq : listWord A j = listWord A k) : j = k := by
  have hptr := congrArg (fun w => (vListPtr w).toNat) heq
  simp only [vListPtr_listWord hj, vListPtr_listWord hk, ptr_toNat hj, ptr_toNat hk] at hptr
  omega

theorem BlockAt.le_cells {k : ℕ} {l : List Word} (hb : h.BlockAt k l) (hg : h.Good) :
    k + 1 + l.length ≤ lheapCells := by
  have := hb.inside
  have := hg.2
  omega

/-- A value stands for one list. -/
theorem Denotes.unique {w : Word} {l l' : List Word} (hg : h.Good) (hd : h.Denotes A w l)
    (hd' : h.Denotes A w l') : l = l' := by
  unfold Denotes at hd hd'
  split_ifs at hd hd' with hw
  · obtain ⟨k, rfl, hb⟩ := hd
    obtain ⟨k', heq, hb'⟩ := hd'
    have hk := hb.le_cells hg
    have hk' := hb'.le_cells hg
    obtain rfl := listWord_injective (by omega) (by omega) heq
    have hlen : l.length = l'.length := by
      have hN : lheapCells = 32768 := rfl
      have h₁ := congrArg BitVec.toNat (hb.length.symm.trans hb'.length)
      simp only [BitVec.toNat_ofNat] at h₁
      omega
    refine List.ext_getElem hlen fun i hi hi' => ?_
    have h₁ := hb.items i _ (List.getElem?_eq_getElem hi)
    have h₂ := hb'.items i _ (List.getElem?_eq_getElem hi')
    exact h₁.symm.trans h₂
  · rw [hd, hd']

/-- Room is found at the end of the used part. -/
theorem lheapAlloc_of_room (hg : h.Good) {c : ℤ} (hc : 0 ≤ c) (hroom : h.len + c ≤ lheapCells) :
    h.lheapAlloc A c = (ptr A h.len.toNat, { h with len := h.len + c }) := by
  have hN : lheapCells = 32768 := rfl
  have h32 : int32 (h.len + c) = h.len + c := int32_of_small (by have := hg.1; omega) (by omega)
  have hlen : ((h.len.toNat : ℕ) : ℤ) = h.len := Int.toNat_of_nonneg hg.1
  have hnot : ¬ h.Fails c := by
    unfold Fails
    rw [h32]
    omega
  unfold lheapAlloc
  rw [if_neg hnot, h32]
  congr 1
  rw [ptr, ← hlen]
  exact BitVec.ofInt_natCast ..

/-- A new block at the end of the used part holds the list. -/
structure Takes (A : ListArea) (h : ListHeap) (l : List Word) (r : Word) (h' : ListHeap) : Prop where
  value : r = listWord A h.len.toNat
  len_eq : h'.len = h.len + 1 + l.length
  length : h'.cells h.len.toNat = BitVec.ofNat 64 l.length
  items : ∀ i v, l[i]? = some v → h'.cells (h.len.toNat + 1 + i) = v
  kept : ∀ j < h.len.toNat, h'.cells j = h.cells j

namespace Takes

variable {l : List Word} {r : Word}

theorem good (ht : Takes A h l r h') (hg : h.Good) (hroom : h.len + 1 + l.length ≤ lheapCells) :
    h'.Good := by
  have h₁ := hg.1
  have h₂ := ht.len_eq
  constructor <;> omega

theorem extends_ (ht : Takes A h l r h') (hg : h.Good) : h.Extends h' where
  len_le := by
    have := ht.len_eq
    omega
  cells_eq j hj := ht.kept j (by have := hg.1; omega)

theorem denotes (ht : Takes A h l r h') (hg : h.Good) : vIsList r = true ∧ h'.Denotes A r l := by
  have hlist : vIsList r = true := by
    rw [ht.value]
    apply vIsList_listWord
    have := hg.2
    omega
  refine ⟨hlist, ?_⟩
  unfold Denotes
  rw [if_pos hlist]
  refine ⟨h.len.toNat, ht.value, ?_, ht.length, ht.items⟩
  have h₁ := hg.1
  have h₂ := ht.len_eq
  omega

end Takes

theorem vListNew_takes (hg : h.Good) (hroom : h.len + 1 ≤ lheapCells) :
    ∃ r h', h.vListNew A = some (r, h') ∧ Takes A h [] r h' := by
  have hN : lheapCells = 32768 := rfl
  have hlen := Int.toNat_of_nonneg hg.1
  have halloc := lheapAlloc_of_room (A := A) hg (c := 1) (by omega) hroom
  have hptr : ptr A h.len.toNat ≠ 0 := ptr_ne_zero (by omega)
  have hstore := store_ptr (A := A) (h := { h with len := h.len + 1 }) (k := h.len.toNat) (i := 0)
    (by omega) 0
  refine ⟨listWord A h.len.toNat, { h with
    cells := Function.update h.cells (h.len.toNat + 0) 0, len := h.len + 1 }, ?_, rfl, ?_, ?_, ?_, ?_⟩
  · simp only [vListNew, halloc, if_neg hptr]
    rw [Nat.cast_zero] at hstore
    rw [hstore]
    rfl
  · simp
  · simp
  · simp
  · intro j hj
    exact Function.update_of_ne (by omega) ..

/-- The cells after the copying loop. -/
theorem copyLoop_eq {k m n i : ℕ} (hk : k + 1 + i + n ≤ m) (hm : m + 1 + i + n ≤ lheapCells) :
    copyLoop A (ptr A k) (ptr A m) h n i = some { h with
      cells := fun j => if m + 1 + i ≤ j ∧ j < m + 1 + i + n then h.cells (j - m + k)
        else h.cells j } := by
  induction n generalizing h i with
  | zero =>
    have hcells : (fun j => if m + 1 + i ≤ j ∧ j < m + 1 + i + 0 then h.cells (j - m + k)
        else h.cells j) = h.cells := by
      funext j
      rw [if_neg (by omega)]
    rw [hcells]
    rfl
  | succ n ih =>
    have hi : (1 : ℤ) + i = ((1 + i : ℕ) : ℤ) := by push_cast; ring
    have hi' : (i : ℤ) + 1 = ((i + 1 : ℕ) : ℤ) := by push_cast; ring
    simp only [copyLoop, hi]
    rw [load_ptr (by omega), Option.bind_eq_bind, Option.bind_some, store_ptr (by omega),
      Option.bind_eq_bind, Option.bind_some, hi', ih (by omega) (by omega)]
    congr 2
    funext j
    dsimp only
    by_cases hj : j = m + (1 + i)
    · subst hj
      rw [if_neg (by omega), Function.update_self, if_pos (by omega)]
      congr 1
      omega
    · by_cases hin : m + 1 + i ≤ j ∧ j < m + 1 + i + (n + 1)
      · rw [if_pos (by omega), if_pos hin]
        exact Function.update_of_ne (by omega) ..
      · rw [if_neg (by omega), if_neg hin]
        exact Function.update_of_ne hj ..

theorem zeroLoop_eq {m n i : ℕ} (hm : m + 1 + i + n ≤ lheapCells) :
    zeroLoop A (ptr A m) h n i = some { h with
      cells := fun j => if m + 1 + i ≤ j ∧ j < m + 1 + i + n then vInt 0 else h.cells j } := by
  induction n generalizing h i with
  | zero =>
    have hcells : (fun j => if m + 1 + i ≤ j ∧ j < m + 1 + i + 0 then vInt 0
        else h.cells j) = h.cells := by
      funext j
      rw [if_neg (by omega)]
    rw [hcells]
    rfl
  | succ n ih =>
    have hi : (1 : ℤ) + i = ((1 + i : ℕ) : ℤ) := by push_cast; ring
    have hi' : (i : ℤ) + 1 = ((i + 1 : ℕ) : ℤ) := by push_cast; ring
    simp only [zeroLoop, hi]
    rw [store_ptr (by omega), Option.bind_eq_bind, Option.bind_some, hi', ih (by omega)]
    congr 2
    funext j
    dsimp only
    by_cases hj : j = m + (1 + i)
    · subst hj
      rw [if_neg (by omega), Function.update_self, if_pos (by omega)]
    · by_cases hin : m + 1 + i ≤ j ∧ j < m + 1 + i + (n + 1)
      · rw [if_pos (by omega), if_pos hin]
      · rw [if_neg (by omega), if_neg hin]
        exact Function.update_of_ne hj ..

/-- The items of the source are copied behind the new length. -/
theorem copyLoop_spec {src : Word} {l : List Word} {m : ℕ} {h₁ : ListHeap}
    (hsrc : l = [] ∨ ∃ k, src = ptr A k ∧ h.BlockAt k l) (hlen : h.len = m)
    (hroom : m + 1 + l.length ≤ lheapCells) (hsame : ∀ j < m, h₁.cells j = h.cells j) :
    ∃ h₂, copyLoop A src (ptr A m) h₁ l.length 0 = some h₂ ∧ h₂.len = h₁.len ∧
      (∀ i v, l[i]? = some v → h₂.cells (m + 1 + i) = v) ∧
      ∀ j, j < m + 1 ∨ m + 1 + l.length ≤ j → h₂.cells j = h₁.cells j := by
  rcases hsrc with rfl | ⟨k, rfl, hb⟩
  · exact ⟨h₁, rfl, rfl, by simp, fun _ _ => rfl⟩
  · have hin := hb.inside
    have hcopy := copyLoop_eq (A := A) (h := h₁) (k := k) (m := m) (n := l.length) (i := 0)
      (by omega) (by omega)
    refine ⟨_, hcopy, rfl, fun i v hv => ?_, fun j hj => ?_⟩
    · have hi := (List.getElem?_eq_some_iff.mp hv).1
      dsimp only
      rw [if_pos (by omega), hsame _ (by omega), ← hb.items i v hv]
      congr 1
      omega
    · dsimp only
      rw [if_neg (by omega)]

/-- The store of the new length leaves the used part as it is. -/
theorem sameBelow_stored (h : ListHeap) (v : Word) (c : ℤ) : ∀ j < h.len.toNat,
    ({ h with cells := Function.update h.cells h.len.toNat v, len := h.len + c } : ListHeap).cells j =
      h.cells j :=
  fun _ hj => Function.update_of_ne (by omega) ..

/-- What `v_list_push` and `v_list_set` read of their list. -/
theorem Denotes.block {w : Word} {l : List Word} (hd : h.Denotes A w l) (hw : vIsList w = true)
    (hg : h.Good) : ∃ k, vListPtr w = ptr A k ∧ h.BlockAt k l ∧ ptr A k ≠ 0 ∧
      h.load A (ptr A k) 0 = some (BitVec.ofNat 64 l.length) := by
  unfold Denotes at hd
  rw [if_pos hw] at hd
  obtain ⟨k, rfl, hb⟩ := hd
  have hk := hb.le_cells hg
  refine ⟨k, vListPtr_listWord (by omega), hb, ptr_ne_zero (by omega), ?_⟩
  have hload := load_ptr (A := A) (h := h) (k := k) (i := 0) (by omega)
  rw [Nat.cast_zero] at hload
  rw [hload, ← hb.length, Nat.add_zero]

theorem Denotes.length_le {w : Word} {l : List Word} (hd : h.Denotes A w l) (hg : h.Good) :
    (l.length : ℤ) ≤ h.len := by
  unfold Denotes at hd
  split_ifs at hd with hw
  · obtain ⟨k, -, hb⟩ := hd
    have := hb.inside
    omega
  · rw [hd]
    simpa using hg.1

/-- Where `v_list_push` takes the items from. -/
theorem Denotes.source {w : Word} {l : List Word} (hd : h.Denotes A w l) (hg : h.Good) :
    ∃ src, (if vIsList w then vListPtr w else 0) = src ∧
      h.srcLength A src = some (BitVec.ofNat 64 l.length) ∧
      (l = [] ∨ ∃ k, src = ptr A k ∧ h.BlockAt k l) := by
  by_cases hw : vIsList w
  · obtain ⟨k, hk, hb, hne, hload⟩ := hd.block hw hg
    refine ⟨ptr A k, by rw [if_pos hw, hk], ?_, Or.inr ⟨k, rfl, hb⟩⟩
    rw [srcLength, if_pos hne, hload]
  · unfold Denotes at hd
    rw [if_neg hw] at hd
    subst hd
    exact ⟨0, if_neg hw, rfl, Or.inl rfl⟩

theorem vListPush_takes (hg : h.Good) {w : Word} (x : Word) {l : List Word}
    (hd : h.Denotes A w l) (hroom : h.len + 1 + (l.length + 1) ≤ lheapCells) :
    ∃ r h', h.vListPush A w x = some (r, h') ∧ Takes A h (l ++ [x]) r h' := by
  have hN : lheapCells = 32768 := rfl
  have hm := Int.toNat_of_nonneg hg.1
  have hadd : (BitVec.ofNat 64 l.length + 2).toInt = l.length + 2 :=
    toInt_ofNat_add_two (by omega)
  have hn1 : BitVec.ofNat 64 l.length + 1 = BitVec.ofNat 64 (l ++ [x]).length := by
    have hsum := ofNat_add_ofNat l.length 1
    rw [show (1 : Word) = BitVec.ofNat 64 1 from rfl, hsum]
    simp
  have halloc := lheapAlloc_of_room (A := A) hg (c := l.length + 2) (by omega) (by omega)
  have hptr : ptr A h.len.toNat ≠ 0 := ptr_ne_zero (by omega)
  have hint : (BitVec.ofNat 64 l.length).toInt = l.length := toInt_ofNat_of_small (by omega)
  obtain ⟨src, hsrcEq, hload, hfrom⟩ := hd.source hg
  have hlen := store_ptr (A := A) (h := { h with len := h.len + (l.length + 2) })
    (k := h.len.toNat) (i := 0) (by omega) (BitVec.ofNat 64 (l ++ [x]).length)
  rw [Nat.cast_zero, Nat.add_zero] at hlen
  obtain ⟨h₂, hcopy, hlen₂, hitems, hkept⟩ := copyLoop_spec hfrom hm.symm (by omega)
    (h.sameBelow_stored (BitVec.ofNat 64 (l ++ [x]).length) (l.length + 2))
  have hlast := store_ptr (A := A) (h := h₂) (k := h.len.toNat) (i := 1 + l.length) (by omega) x
  refine ⟨listWord A h.len.toNat, { h₂ with
    cells := Function.update h₂.cells (h.len.toNat + (1 + l.length)) x }, ?_, rfl, ?_, ?_, ?_, ?_⟩
  · have hcast : (1 : ℤ) + l.length = ((1 + l.length : ℕ) : ℤ) := by push_cast; ring
    unfold vListPush
    simp only [hsrcEq, hload, Option.bind_eq_bind, Option.bind_some, hadd, halloc, hn1, if_neg hptr,
      hlen, hint, Int.toNat_natCast, hcopy, hcast, hlast,
      int32_of_small (show (0 : ℤ) ≤ l.length + 2 by omega) (by omega)]
    rfl
  · simp only [hlen₂, List.length_append, List.length_singleton]
    push_cast
    ring
  · dsimp only
    rw [Function.update_of_ne (by omega), hkept _ (by omega)]
    exact Function.update_self ..
  · intro i v hv
    dsimp only
    by_cases hi : i < l.length
    · rw [List.getElem?_append_left hi] at hv
      rw [Function.update_of_ne (by omega)]
      exact hitems i v hv
    · have hlt := (List.getElem?_eq_some_iff.mp hv).1
      have heq : i = l.length := by
        simp only [List.length_append, List.length_singleton] at hlt
        omega
      subst heq
      rw [List.getElem?_concat_length, Option.some.injEq] at hv
      rw [← hv, show h.len.toNat + 1 + l.length = h.len.toNat + (1 + l.length) by omega,
        Function.update_self]
  · intro j hj
    dsimp only
    rw [Function.update_of_ne (by omega), hkept _ (by omega)]
    exact Function.update_of_ne (by omega) ..

theorem vListSet_of_outside (hg : h.Good) {w iv x : Word} {l : List Word} (hd : h.Denotes A w l)
    (hout : ¬ (0 ≤ (vIntOf iv).toInt ∧ (vIntOf iv).toInt < l.length)) :
    h.vListSet A w iv x = some (w, h) := by
  have hN : lheapCells = 32768 := rfl
  by_cases hw : vIsList w
  · obtain ⟨k, hk, -, -, hload⟩ := hd.block hw hg
    have hle := hd.length_le hg
    have hlen := hg.2
    have hint : (BitVec.ofNat 64 l.length).toInt = l.length := toInt_ofNat_of_small (by omega)
    unfold vListSet
    simp only [hw, not_true_eq_false, if_false, hk, hload, Option.bind_eq_bind, Option.bind_some,
      hint]
    rw [if_pos (by omega)]
    rfl
  · unfold vListSet
    rw [if_pos hw]

theorem vListSet_takes (hg : h.Good) {w iv : Word} (x : Word) {l : List Word}
    (hd : h.Denotes A w l) (hw : vIsList w = true)
    (hin : 0 ≤ (vIntOf iv).toInt ∧ (vIntOf iv).toInt < l.length)
    (hroom : h.len + 1 + l.length ≤ lheapCells) :
    ∃ r h', h.vListSet A w iv x = some (r, h') ∧
      Takes A h (l.set (vIntOf iv).toInt.toNat x) r h' := by
  have hN : lheapCells = 32768 := rfl
  have hm := Int.toNat_of_nonneg hg.1
  obtain ⟨i, hi⟩ : ∃ i : ℕ, (vIntOf iv).toInt = i := ⟨_, (Int.toNat_of_nonneg hin.1).symm⟩
  rw [hi] at hin ⊢
  rw [Int.toNat_natCast]
  have hadd : (BitVec.ofNat 64 l.length + 1).toInt = l.length + 1 :=
    toInt_ofNat_add_one (by omega)
  have halloc := lheapAlloc_of_room (A := A) hg (c := l.length + 1) (by omega) (by omega)
  have hptr : ptr A h.len.toNat ≠ 0 := ptr_ne_zero (by omega)
  have hint : (BitVec.ofNat 64 l.length).toInt = l.length := toInt_ofNat_of_small (by omega)
  obtain ⟨k, hk, hb, -, hload⟩ := hd.block hw hg
  have hlen := store_ptr (A := A) (h := { h with len := h.len + (l.length + 1) })
    (k := h.len.toNat) (i := 0) (by omega) (BitVec.ofNat 64 l.length)
  rw [Nat.cast_zero, Nat.add_zero] at hlen
  have hsrc : l = [] ∨ ∃ j, ptr A k = ptr A j ∧ h.BlockAt j l := Or.inr ⟨k, rfl, hb⟩
  obtain ⟨h₂, hcopy, hlen₂, hitems, hkept⟩ := copyLoop_spec hsrc hm.symm (by omega)
    (h.sameBelow_stored (BitVec.ofNat 64 l.length) (l.length + 1))
  have hlast := store_ptr (A := A) (h := h₂) (k := h.len.toNat) (i := 1 + i) (by omega) x
  refine ⟨listWord A h.len.toNat, { h₂ with
    cells := Function.update h₂.cells (h.len.toNat + (1 + i)) x }, ?_, rfl, ?_, ?_, ?_, ?_⟩
  · have hcast : (1 : ℤ) + i = ((1 + i : ℕ) : ℤ) := by push_cast; ring
    have hrange : ¬ ((i : ℤ) < 0 ∨ (l.length : ℤ) ≤ i) := by omega
    unfold vListSet
    simp only [hw, not_true_eq_false, if_false, hk, hload, Option.bind_eq_bind, Option.bind_some,
      hint, hi, if_neg hrange, hadd, halloc, if_neg hptr, hlen, Int.toNat_natCast, hcopy, hcast,
      hlast, int32_of_small (show (0 : ℤ) ≤ l.length + 1 by omega) (by omega)]
    rfl
  · simp only [hlen₂, List.length_set]
    ring
  · dsimp only
    rw [Function.update_of_ne (by omega), hkept _ (by omega), List.length_set]
    exact Function.update_self ..
  · intro j v hv
    dsimp only
    rw [List.getElem?_set] at hv
    by_cases hij : i = j
    · subst hij
      rw [if_pos rfl] at hv
      split_ifs at hv with hlt
      cases hv
      rw [show h.len.toNat + 1 + i = h.len.toNat + (1 + i) by omega, Function.update_self]
    · rw [if_neg hij] at hv
      rw [Function.update_of_ne (by omega)]
      exact hitems j v hv
  · intro j hj
    dsimp only
    rw [Function.update_of_ne (by omega), hkept _ (by omega)]
    exact Function.update_of_ne (by omega) ..

theorem zerosLength_toInt (nv : Word) :
    ∃ n : ℕ, (zerosLength nv).toInt = n ∧ zerosLength nv = BitVec.ofNat 64 n ∧ n < 2 ^ 63 := by
  have hnn : 0 ≤ (zerosLength nv).toInt := by
    unfold zerosLength
    split_ifs with hneg
    · decide
    · omega
  have hlt := BitVec.toInt_lt (x := zerosLength nv)
  obtain ⟨n, hn⟩ : ∃ n : ℕ, (zerosLength nv).toInt = n := ⟨_, (Int.toNat_of_nonneg hnn).symm⟩
  refine ⟨n, hn, ?_, by omega⟩
  apply BitVec.eq_of_toInt_eq
  rw [hn, toInt_ofNat_of_small (by omega)]

theorem vListZeros_takes (hg : h.Good) {nv : Word} {n : ℕ} (hn : zerosLength nv = BitVec.ofNat 64 n)
    (hroom : h.len + 1 + n ≤ lheapCells) :
    ∃ r h', h.vListZeros A nv = some (r, h') ∧ Takes A h (List.replicate n (vInt 0)) r h' := by
  have hN : lheapCells = 32768 := rfl
  have hm := Int.toNat_of_nonneg hg.1
  have hadd : (BitVec.ofNat 64 n + 1).toInt = n + 1 := toInt_ofNat_add_one (by omega)
  have halloc := lheapAlloc_of_room (A := A) hg (c := n + 1) (by omega) (by omega)
  have hptr : ptr A h.len.toNat ≠ 0 := ptr_ne_zero (by omega)
  have hint : (BitVec.ofNat 64 n).toInt = n := toInt_ofNat_of_small (by omega)
  have hlen := store_ptr (A := A) (h := { h with len := h.len + (n + 1) })
    (k := h.len.toNat) (i := 0) (by omega) (BitVec.ofNat 64 n)
  rw [Nat.cast_zero, Nat.add_zero] at hlen
  have hzero := zeroLoop_eq (A := A) (m := h.len.toNat) (n := n) (i := 0) (by omega)
    (h := { h with
      cells := Function.update h.cells h.len.toNat (BitVec.ofNat 64 n)
      len := h.len + (n + 1) })
  rw [Nat.cast_zero] at hzero
  refine ⟨listWord A h.len.toNat, { h with
    cells := fun j => if h.len.toNat + 1 + 0 ≤ j ∧ j < h.len.toNat + 1 + 0 + n then vInt 0
      else Function.update h.cells h.len.toNat (BitVec.ofNat 64 n) j
    len := h.len + (n + 1) }, ?_, rfl, ?_, ?_, ?_, ?_⟩
  · unfold vListZeros
    simp only [hn, hadd, halloc, if_neg hptr, hlen, hint, Int.toNat_natCast, hzero,
      Option.bind_eq_bind, Option.bind_some,
      int32_of_small (show (0 : ℤ) ≤ n + 1 by omega) (by omega)]
    rfl
  · simp only [List.length_replicate]
    ring
  · dsimp only
    rw [if_neg (by omega), Function.update_self, List.length_replicate]
  · intro i v hv
    have hi := (List.getElem?_eq_some_iff.mp hv).1
    rw [List.length_replicate] at hi
    rw [List.getElem?_replicate, if_pos hi, Option.some.injEq] at hv
    dsimp only
    rw [if_pos (by omega), hv]
  · intro j hj
    dsimp only
    rw [if_neg (by omega)]
    exact Function.update_of_ne (by omega) ..

/-- A request that does not fit is refused without touching the cells. -/
theorem lheapAlloc_of_fails {c : ℤ} (hf : h.Fails c) :
    h.lheapAlloc A c = (0, { h with overflows := int32 (h.overflows + 1) }) := if_pos hf

end ListHeap

end XinuRpi4.Runtime
