import XinuRpi4.Foundation.Runs
import XinuRpi4.Runtime.ImmutableLists

/-!
# Which cells a call on the list heap writes

A ledger keeps the blocks that `lheap_alloc` has reserved. A call is inside its bounds
when it stores into the block that it has reserved itself. `v_list_zeros` counts its
cells in an `int` and fills the list up to a `long`, so it alone can leave its block.
-/

namespace XinuRpi4.Runtime

open Foundation

namespace ListHeap

variable (A : ListArea) (h : ListHeap)

/-- The number of cells a call asks `lheap_alloc` for; `none` if it returns before. -/
def request : ListOp → Option ℤ
  | .new => some 1
  | .push w _ =>
    (h.srcLength A (if vIsList w then vListPtr w else 0)).map fun n => int32 (n + 2).toInt
  | .set w iv _ =>
    if ¬ vIsList w then none
    else do
      let n ← h.load A (vListPtr w) 0
      let i := vIntOf iv
      if i.toInt < 0 ∨ n.toInt ≤ i.toInt then none else some (int32 (n + 1).toInt)
  | .zeros nv => some (int32 (zerosLength nv + 1).toInt)
  | .cell _ _ => none

/-- The indexes of a loop `for (i = …; i < n; i++) b[1 + i] = …`, with `k` rounds to go. -/
def loopIndexes : ℕ → ℤ → List ℤ
  | 0, _ => []
  | k + 1, i => (1 + i) :: loopIndexes k (i + 1)

/-- The indexes of a loop over the `n` items of a block. -/
abbrev itemIndexes (n : Word) : List ℤ := loopIndexes n.toInt.toNat 0

/-- The indexes `i` of the stores `b[i] = …` of a call, in their order. -/
def storeIndexes : ListOp → List ℤ
  | .new => [0]
  | .push w _ =>
    match h.srcLength A (if vIsList w then vListPtr w else 0) with
    | some n => 0 :: (itemIndexes n ++ [1 + n.toInt])
    | none => []
  | .set w iv _ =>
    match h.load A (vListPtr w) 0 with
    | some n => 0 :: (itemIndexes n ++ [1 + (vIntOf iv).toInt])
    | none => []
  | .zeros nv => 0 :: itemIndexes (zerosLength nv)
  | .cell _ _ => []

/-- The cells a call stores to; `none` is a store outside the array. -/
def written (op : ListOp) : List (Option ℕ) :=
  match h.request A op with
  | none => []
  | some c =>
    let b := (h.lheapAlloc A c).1
    if b = 0 then [] else (h.storeIndexes A op).map (cellOf A b)

/-- A list argument lies in the array: it is a list of this run, or a stale one whose length
word still stands for cells of the array. -/
def ListIn (w : Word) : Prop := vIsList w = true →
  ∃ k n : ℕ, vListPtr w = ptr A k ∧ h.cells k = BitVec.ofNat 64 n ∧ k + 1 + n ≤ lheapCells

/-- What a call reads lies in the array. -/
def ReadsIn : ListOp → Prop
  | .push w _ => h.ListIn A w
  | .set w _ _ => h.ListIn A w
  | .cell w i => (cellOf A (vListPtr w) i).isSome
  | _ => True

/-- The call stores into the cells that its own `lheap_alloc` has reserved. -/
def InReserved (op : ListOp) : Prop :=
  ∀ x ∈ h.written A op, ∃ (j : ℕ) (c : ℤ), x = some j ∧ h.request A op = some c ∧
    h.len ≤ j ∧ (j : ℤ) < h.len + c

end ListHeap

/-- The list heap, with the first cell and the number of cells of each block that
`lheap_alloc` has reserved. -/
structure Ledger where
  heap : ListHeap
  blocks : List (ℤ × ℤ)

inductive LedgerStep
  | call (op : ListOp)
  | reset

namespace Ledger

variable (A : ListArea)

/-- The blocks after a call. -/
def reserved (s : Ledger) (op : ListOp) : List (ℤ × ℤ) :=
  match s.heap.request A op with
  | none => s.blocks
  | some c => if s.heap.Fails c then s.blocks else (s.heap.len, c) :: s.blocks

def step (s : Ledger) : LedgerStep → Option Ledger
  | .call op => (s.heap.exec A op).map fun r => ⟨r.2, s.reserved A op⟩
  | .reset => some ⟨s.heap.reset, []⟩

/-- The used part is a part of the array, and the length word of each list is one less
than the number of cells reserved for it. -/
def Sound (s : Ledger) : Prop :=
  s.heap.Good ∧ ∀ b ∈ s.blocks, (s.heap.cells b.1.toNat).toInt = b.2 - 1

/-- The step ends, stores into its own block only, and leaves the ledger sound. -/
def Inside (s : Ledger) (i : LedgerStep) : Prop :=
  (∀ op, i = .call op → s.heap.InReserved A op) ∧ ∃ s', s.step A i = some s' ∧ s'.Sound

/-- The arguments that are lists lie in the array. -/
def ReadsIn (s : Ledger) : LedgerStep → Prop
  | .call op => s.heap.ReadsIn A op
  | .reset => True

/-- The check of `lheap_alloc` stops a list of zeros that does not fit into the array. -/
def ZerosChecked (s : Ledger) : LedgerStep → Prop
  | .call (.zeros nv) => s.heap.Fails (int32 (ListHeap.zerosLength nv + 1).toInt) ∨
    s.heap.len + 1 + (ListHeap.zerosLength nv).toInt ≤ lheapCells
  | _ => True

end Ledger

namespace ListHeap

variable {A : ListArea} {h h' : ListHeap} {op : ListOp}

section Frame

theorem store_eq_some {p v : Word} {i : ℤ} (hs : h.store A p i v = some h') :
    (cellOf A p i).isSome ∧ ∀ j, cellOf A p i ≠ some j → h'.cells j = h.cells j := by
  obtain ⟨c, hc, rfl⟩ := Option.map_eq_some_iff.mp hs
  refine ⟨by rw [hc]; rfl, fun j hj => Function.update_of_ne ?_ _ _⟩
  rintro rfl
  exact hj hc

/-- The stores of a list of indexes are inside the array and leave all other cells as
they are. -/
def Stores (A : ListArea) (b : Word) (is : List ℤ) (h h' : ListHeap) : Prop :=
  (∀ i ∈ is, (cellOf A b i).isSome) ∧
    ∀ j, (∀ i ∈ is, cellOf A b i ≠ some j) → h'.cells j = h.cells j

theorem stores_nil (b : Word) (h : ListHeap) : Stores A b [] h h := ⟨by simp, fun _ _ => rfl⟩

theorem Stores.cons {h₁ : ListHeap} {b v : Word} {i : ℤ} {is : List ℤ}
    (hs : h.store A b i v = some h₁) (hrest : Stores A b is h₁ h') :
    Stores A b (i :: is) h h' := by
  obtain ⟨hin, hframe⟩ := store_eq_some hs
  constructor
  · intro j hj
    rcases List.mem_cons.mp hj with rfl | hj
    · exact hin
    · exact hrest.1 j hj
  · intro j hj
    rw [hrest.2 j fun i hi => hj i (List.mem_cons_of_mem _ hi)]
    exact hframe j (hj i List.mem_cons_self)

theorem Stores.append {h₁ : ListHeap} {b : Word} {is js : List ℤ} (hs : Stores A b is h h₁)
    (hrest : Stores A b js h₁ h') : Stores A b (is ++ js) h h' := by
  constructor
  · intro i hi
    rcases List.mem_append.mp hi with hi | hi
    · exact hs.1 i hi
    · exact hrest.1 i hi
  · intro j hj
    rw [hrest.2 j fun i hi => hj i (List.mem_append_right _ hi)]
    exact hs.2 j fun i hi => hj i (List.mem_append_left _ hi)

theorem copyLoop_stores {src b : Word} {k : ℕ} {i : ℤ} (hloop : copyLoop A src b h k i = some h') :
    Stores A b (loopIndexes k i) h h' := by
  induction k generalizing h i with
  | zero =>
    cases hloop
    exact stores_nil b _
  | succ k ih =>
    obtain ⟨v, -, hloop⟩ := Option.bind_eq_some_iff.mp hloop
    obtain ⟨h₁, hstore, hrest⟩ := Option.bind_eq_some_iff.mp hloop
    exact Stores.cons hstore (ih hrest)

theorem zeroLoop_stores {b : Word} {k : ℕ} {i : ℤ} (hloop : zeroLoop A b h k i = some h') :
    Stores A b (loopIndexes k i) h h' := by
  induction k generalizing h i with
  | zero =>
    cases hloop
    exact stores_nil b _
  | succ k ih =>
    obtain ⟨h₁, hstore, hrest⟩ := Option.bind_eq_some_iff.mp hloop
    exact Stores.cons hstore (ih hrest)

theorem mem_loopIndexes {k : ℕ} {i x : ℤ} : x ∈ loopIndexes k i ↔ 1 + i ≤ x ∧ x < 1 + i + k := by
  induction k generalizing i with
  | zero => simp [loopIndexes]
  | succ k ih =>
    rw [loopIndexes, List.mem_cons, ih]
    push_cast
    omega

theorem lheapAlloc_cells (h : ListHeap) (c : ℤ) : (h.lheapAlloc A c).2.cells = h.cells := by
  unfold lheapAlloc
  split_ifs <;> rfl

/-- The stores of a call are inside the array, and all changes of cells are theirs. -/
def Accounted (A : ListArea) (h : ListHeap) (op : ListOp) (h' : ListHeap) : Prop :=
  (∀ x ∈ h.written A op, x.isSome) ∧ ∀ j, some j ∉ h.written A op → h'.cells j = h.cells j

theorem accounted_of_stores {c : ℤ} (hreq : h.request A op = some c)
    (hb : (h.lheapAlloc A c).1 ≠ 0)
    (hs : Stores A (h.lheapAlloc A c).1 (h.storeIndexes A op) (h.lheapAlloc A c).2 h') :
    Accounted A h op h' := by
  have hw : h.written A op = (h.storeIndexes A op).map (cellOf A (h.lheapAlloc A c).1) := by
    simp only [written, hreq, if_neg hb]
  constructor
  · intro x hx
    rw [hw] at hx
    obtain ⟨i, hi, rfl⟩ := List.mem_map.mp hx
    exact hs.1 i hi
  · intro j hj
    rw [hs.2 j, lheapAlloc_cells]
    intro i hi heq
    rw [hw] at hj
    exact hj (heq ▸ List.mem_map_of_mem hi)

theorem accounted_of_refused (hw : h.written A op = []) (hcells : h'.cells = h.cells) :
    Accounted A h op h' := by
  refine ⟨by simp [hw], fun j _ => ?_⟩
  rw [hcells]

theorem written_of_null {c : ℤ} (hreq : h.request A op = some c) (hb : (h.lheapAlloc A c).1 = 0) :
    h.written A op = [] := by
  simp only [written, hreq, if_pos hb]

theorem exec_accounted {r : Word} (hexec : h.exec A op = some (r, h')) : Accounted A h op h' := by
  cases op with
  | new =>
    have hreq : h.request A .new = some 1 := rfl
    simp only [exec, vListNew] at hexec
    split_ifs at hexec with hb
    · cases hexec
      exact accounted_of_refused (written_of_null hreq hb) (lheapAlloc_cells ..)
    · obtain ⟨h₁, hstore, hret⟩ := Option.bind_eq_some_iff.mp hexec
      cases hret
      exact accounted_of_stores hreq hb (Stores.cons hstore (stores_nil ..))
  | push w x =>
    simp only [exec, vListPush] at hexec
    obtain ⟨n, hn, hexec⟩ := Option.bind_eq_some_iff.mp hexec
    have hreq : h.request A (.push w x) = some (int32 (n + 2).toInt) := by
      simp only [request, hn, Option.map_some]
    have hidx : h.storeIndexes A (.push w x) = 0 :: (itemIndexes n ++ [1 + n.toInt]) := by
      simp only [storeIndexes, hn]
    generalize (if vIsList w then vListPtr w else 0) = src at hexec
    split_ifs at hexec with hb
    · cases hexec
      exact accounted_of_refused (written_of_null hreq hb) (lheapAlloc_cells ..)
    · obtain ⟨h₁, hlen, hexec⟩ := Option.bind_eq_some_iff.mp hexec
      obtain ⟨h₂, hloop, hexec⟩ := Option.bind_eq_some_iff.mp hexec
      obtain ⟨h₃, hlast, hret⟩ := Option.bind_eq_some_iff.mp hexec
      cases hret
      refine accounted_of_stores hreq hb ?_
      rw [hidx]
      exact Stores.cons hlen ((copyLoop_stores hloop).append (Stores.cons hlast (stores_nil ..)))
  | set w iv x =>
    by_cases hw : ¬ vIsList w
    · rw [exec, vListSet, if_pos hw] at hexec
      cases hexec
      exact accounted_of_refused (by simp only [written, request, if_pos hw]) rfl
    · rw [exec, vListSet, if_neg hw] at hexec
      obtain ⟨n, hn, hexec⟩ := Option.bind_eq_some_iff.mp hexec
      have hidx : h.storeIndexes A (.set w iv x) =
          0 :: (itemIndexes n ++ [1 + (vIntOf iv).toInt]) := by
        simp only [storeIndexes, hn]
      dsimp only at hexec
      split_ifs at hexec with hrange hb
      · cases hexec
        refine accounted_of_refused ?_ rfl
        simp only [written, request, if_neg hw, hn, Option.bind_eq_bind, Option.bind_some,
          if_pos hrange]
      · have hreq : h.request A (.set w iv x) = some (int32 (n + 1).toInt) := by
          simp only [request, if_neg hw, hn, Option.bind_eq_bind, Option.bind_some, if_neg hrange]
        cases hexec
        exact accounted_of_refused (written_of_null hreq hb) (lheapAlloc_cells ..)
      · have hreq : h.request A (.set w iv x) = some (int32 (n + 1).toInt) := by
          simp only [request, if_neg hw, hn, Option.bind_eq_bind, Option.bind_some, if_neg hrange]
        obtain ⟨h₁, hlen, hexec⟩ := Option.bind_eq_some_iff.mp hexec
        obtain ⟨h₂, hloop, hexec⟩ := Option.bind_eq_some_iff.mp hexec
        obtain ⟨h₃, hlast, hret⟩ := Option.bind_eq_some_iff.mp hexec
        cases hret
        refine accounted_of_stores hreq hb ?_
        rw [hidx]
        exact Stores.cons hlen ((copyLoop_stores hloop).append (Stores.cons hlast (stores_nil ..)))
  | zeros nv =>
    have hreq : h.request A (.zeros nv) = some (int32 (zerosLength nv + 1).toInt) := rfl
    simp only [exec, vListZeros] at hexec
    split_ifs at hexec with hb
    · cases hexec
      exact accounted_of_refused (written_of_null hreq hb) (lheapAlloc_cells ..)
    · obtain ⟨h₁, hlen, hexec⟩ := Option.bind_eq_some_iff.mp hexec
      obtain ⟨h₂, hloop, hret⟩ := Option.bind_eq_some_iff.mp hexec
      cases hret
      exact accounted_of_stores hreq hb (Stores.cons hlen (zeroLoop_stores hloop))
  | cell w i =>
    obtain ⟨v, -, hret⟩ := Option.map_eq_some_iff.mp hexec
    cases hret
    exact accounted_of_refused rfl rfl

end Frame

section Outcome

variable {r : Word}

/-- A call without a new block leaves the cells as they are. -/
structure Refused (A : ListArea) (h : ListHeap) (op : ListOp) (h' : ListHeap) : Prop where
  written_eq : h.written A op = []
  len_eq : h'.len = h.len
  cells_eq : h'.cells = h.cells
  fails : ∀ c, h.request A op = some c → h.Fails c

/-- A call with a new block, of the size that it has asked for, stores into it. -/
structure Fills (A : ListArea) (h : ListHeap) (op : ListOp) (l : List Word) (r : Word)
    (h' : ListHeap) : Prop where
  takes : Takes A h l r h'
  request_eq : h.request A op = some ((l.length : ℤ) + 1)
  fits : h.len + (l.length + 1) ≤ lheapCells
  indexes : ∀ i ∈ h.storeIndexes A op, 0 ≤ i ∧ i ≤ l.length

/-- The check of `lheap_alloc` is exact for small requests. -/
theorem fails_iff (hg : h.Good) {c : ℤ} (h0 : 0 ≤ c) (h1 : c < 2 ^ 30) :
    h.Fails c ↔ lheapCells < h.len + c := by
  have hN : lheapCells = 32768 := rfl
  have hlo := hg.1
  have hhi := hg.2
  unfold Fails
  rw [int32_of_small (by omega) (by omega)]
  omega

theorem refused_of_fails {c : ℤ} (hreq : h.request A op = some c) (hf : h.Fails c)
    (hlen : h'.len = h.len) (hcells : h'.cells = h.cells) : Refused A h op h' where
  written_eq := written_of_null hreq (by rw [lheapAlloc_of_fails hf])
  len_eq := hlen
  cells_eq := hcells
  fails := by
    intro c' hc'
    rw [hreq, Option.some.injEq] at hc'
    exact hc' ▸ hf

theorem new_outcome (hg : h.Good) : ∃ r h', h.exec A .new = some (r, h') ∧
    (Refused A h .new h' ∨ ∃ l, Fills A h .new l r h') := by
  by_cases hf : h.Fails 1
  · refine ⟨vInt 0, { h with overflows := int32 (h.overflows + 1) }, ?_,
      Or.inl (refused_of_fails rfl hf rfl rfl)⟩
    simp only [exec, vListNew, lheapAlloc_of_fails hf, if_true]
  · have hroom : h.len + 1 ≤ lheapCells := by
      rw [fails_iff hg (by omega) (by omega)] at hf
      omega
    obtain ⟨r, h', hexec, ht⟩ := vListNew_takes (A := A) hg hroom
    refine ⟨r, h', hexec, Or.inr ⟨[], ht, rfl, by simpa using hroom, ?_⟩⟩
    simp [storeIndexes]

/-- The indexes of the stores of a copy with `n` items, and of one store more. -/
theorem copyIndexes_le {n m : ℕ} {i : ℤ} (hn : n < 2 ^ 62) (hm : n ≤ m) (hi : 0 ≤ i)
    (him : 1 + i ≤ m) :
    ∀ x ∈ 0 :: (itemIndexes (BitVec.ofNat 64 n) ++ [1 + i]), 0 ≤ x ∧ x ≤ m := by
  intro x hx
  rcases List.mem_cons.mp hx with rfl | hx
  · omega
  rcases List.mem_append.mp hx with hx | hx
  · rw [itemIndexes, toInt_ofNat_of_small (by omega), Int.toNat_natCast, mem_loopIndexes] at hx
    omega
  · obtain rfl := List.mem_singleton.mp hx
    omega

/-- The copying loop ends, wherever its source lies in the array. -/
theorem copyLoop_frame {src : Word} {n : ℕ} (hsrc : n = 0 ∨ ∃ k, src = ptr A k ∧ k + 1 + n ≤ lheapCells)
    {m : ℕ} (hm : m + 1 + n ≤ lheapCells) (h₁ : ListHeap) :
    ∃ h₂, copyLoop A src (ptr A m) h₁ n 0 = some h₂ ∧ h₂.len = h₁.len ∧
      ∀ j, j < m + 1 → h₂.cells j = h₁.cells j := by
  rcases hsrc with rfl | ⟨k, rfl, hk⟩
  · exact ⟨h₁, rfl, rfl, fun _ _ => rfl⟩
  suffices hloop : ∀ i r : ℕ, i + r = n → ∀ h₁ : ListHeap,
      ∃ h₂, copyLoop A (ptr A k) (ptr A m) h₁ r i = some h₂ ∧ h₂.len = h₁.len ∧
        ∀ j, j < m + 1 → h₂.cells j = h₁.cells j from hloop 0 n (Nat.zero_add n) h₁
  intro i r hir h₁
  induction r generalizing i h₁ with
  | zero => exact ⟨h₁, rfl, rfl, fun _ _ => rfl⟩
  | succ r ih =>
    have hi : (1 : ℤ) + i = ((1 + i : ℕ) : ℤ) := by push_cast; ring
    have hi' : (i : ℤ) + 1 = ((i + 1 : ℕ) : ℤ) := by push_cast; ring
    have hload := load_ptr (A := A) (h := h₁) (k := k) (i := 1 + i) (by omega)
    have hstore := store_ptr (A := A) (h := h₁) (k := m) (i := 1 + i) (by omega)
      (h₁.cells (k + (1 + i)))
    obtain ⟨h₂, hrest, hlen, hkept⟩ := ih (i + 1) (by omega)
      { h₁ with cells := Function.update h₁.cells (m + (1 + i)) (h₁.cells (k + (1 + i))) }
    refine ⟨h₂, ?_, hlen, fun j hj => ?_⟩
    · simp only [copyLoop, hi, hi', hload, hstore, Option.bind_eq_bind, Option.bind_some]
      exact hrest
    · rw [hkept j hj]
      exact Function.update_of_ne (by omega) ..

/-- What `v_list_push` and `v_list_set` do with their new block of `m + 1` cells. -/
theorem copied (hg : h.Good) {src : Word} {n m i : ℕ} (x : Word)
    (hsrc : n = 0 ∨ ∃ k, src = ptr A k ∧ k + 1 + n ≤ lheapCells) (hnm : n ≤ m) (him : i < m)
    (hroom : h.len + 1 + m ≤ lheapCells) :
    ∃ h₁ h₂ h₃ l, ({ h with len := h.len + (m + 1) } : ListHeap).store A (ptr A h.len.toNat) 0
        (BitVec.ofNat 64 m) = some h₁ ∧
      copyLoop A src (ptr A h.len.toNat) h₁ n 0 = some h₂ ∧
      h₂.store A (ptr A h.len.toNat) (1 + i) x = some h₃ ∧
      l.length = m ∧ Takes A h l (listWord A h.len.toNat) h₃ := by
  have hm := Int.toNat_of_nonneg hg.1
  have hstore := store_ptr (A := A) (h := { h with len := h.len + (m + 1) }) (k := h.len.toNat)
    (i := 0) (by omega) (BitVec.ofNat 64 m)
  rw [Nat.cast_zero, Nat.add_zero] at hstore
  obtain ⟨h₂, hcopy, hlen₂, hkept⟩ := copyLoop_frame (A := A) hsrc
    (show h.len.toNat + 1 + n ≤ lheapCells by omega)
    { h with cells := Function.update h.cells h.len.toNat (BitVec.ofNat 64 m), len := h.len + (m + 1) }
  have hlast := store_ptr (A := A) (h := h₂) (k := h.len.toNat) (i := 1 + i) (by omega) x
  rw [Nat.cast_add, Nat.cast_one] at hlast
  refine ⟨_, h₂, _, (List.range m).map fun q =>
    Function.update h₂.cells (h.len.toNat + (1 + i)) x (h.len.toNat + 1 + q), hstore, hcopy, hlast,
    by simp, rfl, ?_, ?_, ?_, ?_⟩
  · simp only [hlen₂, List.length_map, List.length_range]
    ring
  · rw [List.length_map, List.length_range]
    dsimp only
    rw [Function.update_of_ne (by omega), hkept _ (by omega)]
    exact Function.update_self ..
  · intro q v hv
    obtain ⟨hq, heq⟩ := List.getElem?_eq_some_iff.mp hv
    simpa using heq
  · intro j hj
    dsimp only
    rw [Function.update_of_ne (by omega), hkept _ (by omega)]
    exact Function.update_of_ne (by omega) ..

/-- Where `v_list_push` takes the items from. -/
theorem ListIn.source {w : Word} (hd : h.ListIn A w) : ∃ (src : Word) (n : ℕ),
    (if vIsList w then vListPtr w else 0) = src ∧ h.srcLength A src = some (BitVec.ofNat 64 n) ∧
      n < lheapCells ∧ (n = 0 ∨ ∃ k, src = ptr A k ∧ k + 1 + n ≤ lheapCells) := by
  by_cases hw : vIsList w
  · obtain ⟨k, n, hptr, hlen, hin⟩ := hd hw
    have hload := load_ptr (A := A) (h := h) (k := k) (i := 0) (by omega)
    rw [Nat.cast_zero, Nat.add_zero, hlen] at hload
    refine ⟨ptr A k, n, by rw [if_pos hw, hptr], ?_, by omega, Or.inr ⟨k, rfl, hin⟩⟩
    rw [srcLength, if_pos (ptr_ne_zero (by omega)), hload]
  · exact ⟨0, 0, if_neg hw, rfl, by decide, Or.inl rfl⟩

theorem push_outcome (hg : h.Good) {w x : Word} (hd : h.ListIn A w) :
    ∃ r h', h.exec A (.push w x) = some (r, h') ∧
      (Refused A h (.push w x) h' ∨ ∃ l', Fills A h (.push w x) l' r h') := by
  have hN : lheapCells = 32768 := rfl
  have hhi := hg.2
  obtain ⟨src, n, hsrc, hload, hn, hfrom⟩ := hd.source
  have hadd : int32 (BitVec.ofNat 64 n + 2).toInt = n + 2 := by
    rw [toInt_ofNat_add_two (by omega)]
    exact int32_of_small (by omega) (by omega)
  have hreq : h.request A (.push w x) = some ((n : ℤ) + 2) := by
    simp only [request, hsrc, hload, Option.map_some, hadd]
  by_cases hf : h.Fails ((n : ℤ) + 2)
  · refine ⟨w, { h with overflows := int32 (h.overflows + 1) }, ?_,
      Or.inl (refused_of_fails hreq hf rfl rfl)⟩
    simp only [exec, vListPush, hsrc, hload, Option.bind_eq_bind, Option.bind_some, hadd,
      lheapAlloc_of_fails hf]
    rfl
  · have hroom : h.len + (n + 2) ≤ lheapCells := by
      rw [fails_iff hg (by omega) (by omega)] at hf
      omega
    have hint : (BitVec.ofNat 64 n).toInt = n := toInt_ofNat_of_small (by omega)
    have hn1 : BitVec.ofNat 64 n + 1 = BitVec.ofNat 64 (n + 1) := ofNat_add_ofNat n 1
    have hptr : ptr A h.len.toNat ≠ 0 := ptr_ne_zero (by have := Int.toNat_of_nonneg hg.1; omega)
    obtain ⟨h₁, h₂, h₃, l, hstore, hcopy, hlast, hl, ht⟩ := copied (A := A) (i := n) (m := n + 1) hg x
      hfrom (Nat.le_succ n) (Nat.lt_succ_self n) (by push_cast; omega)
    have halloc := lheapAlloc_of_room (A := A) hg (c := n + 2) (by omega) hroom
    rw [show h.len + (n + 2) = h.len + (((n + 1 : ℕ) : ℤ) + 1) by push_cast; ring] at halloc
    refine ⟨_, h₃, ?_, Or.inr ⟨l, ht, ?_, ?_, ?_⟩⟩
    · simp only [exec, vListPush, hsrc, hload, Option.bind_eq_bind, Option.bind_some, hadd, halloc,
        if_neg hptr, hn1, hstore, hint, Int.toNat_natCast, hcopy, hlast]
      rfl
    · rw [hreq, hl]
      push_cast
      ring_nf
    · rw [hl]
      push_cast
      omega
    · simp only [storeIndexes, hsrc, hload]
      rw [hint, hl]
      exact copyIndexes_le (by omega) (by omega) (by omega) (by omega)

theorem set_outcome (hg : h.Good) {w iv x : Word} (hd : h.ListIn A w) :
    ∃ r h', h.exec A (.set w iv x) = some (r, h') ∧
      (Refused A h (.set w iv x) h' ∨ ∃ l', Fills A h (.set w iv x) l' r h') := by
  have hN : lheapCells = 32768 := rfl
  have hhi := hg.2
  by_cases hw : vIsList w = true
  · obtain ⟨k, n, hk, hlen, hin⟩ := hd hw
    have hload := load_ptr (A := A) (h := h) (k := k) (i := 0) (by omega)
    rw [Nat.cast_zero, Nat.add_zero, hlen] at hload
    have hint : (BitVec.ofNat 64 n).toInt = n := toInt_ofNat_of_small (by omega)
    by_cases hrange : (vIntOf iv).toInt < 0 ∨ (n : ℤ) ≤ (vIntOf iv).toInt
    · have hreq : h.request A (.set w iv x) = none := by
        simp only [request, hw, not_true_eq_false, if_false, hk, hload, Option.bind_eq_bind,
          Option.bind_some, hint, if_pos hrange]
      refine ⟨w, h, ?_, Or.inl ⟨?_, rfl, rfl, ?_⟩⟩
      · simp only [exec, vListSet, hw, not_true_eq_false, if_false, hk, hload, Option.bind_eq_bind,
          Option.bind_some, hint, if_pos hrange]
        rfl
      · simp only [written, hreq]
      · simp [hreq]
    obtain ⟨i, hi⟩ : ∃ i : ℕ, (vIntOf iv).toInt = i := ⟨_, (Int.toNat_of_nonneg (by omega)).symm⟩
    have hadd : int32 (BitVec.ofNat 64 n + 1).toInt = n + 1 := by
      rw [toInt_ofNat_add_one (by omega)]
      exact int32_of_small (by omega) (by omega)
    have hreq : h.request A (.set w iv x) = some ((n : ℤ) + 1) := by
      simp only [request, hw, not_true_eq_false, if_false, hk, hload, Option.bind_eq_bind,
        Option.bind_some, hint, if_neg hrange, hadd]
    by_cases hf : h.Fails ((n : ℤ) + 1)
    · refine ⟨w, { h with overflows := int32 (h.overflows + 1) }, ?_,
        Or.inl (refused_of_fails hreq hf rfl rfl)⟩
      simp only [exec, vListSet, hw, not_true_eq_false, if_false, hk, hload, Option.bind_eq_bind,
        Option.bind_some, hint, if_neg hrange, hadd, lheapAlloc_of_fails hf]
      rfl
    · have hroom : h.len + (n + 1) ≤ lheapCells := by
        rw [fails_iff hg (by omega) (by omega)] at hf
        omega
      rw [hi] at hrange
      have hptr : ptr A h.len.toNat ≠ 0 := ptr_ne_zero (by have := Int.toNat_of_nonneg hg.1; omega)
      obtain ⟨h₁, h₂, h₃, l, hstore, hcopy, hlast, hl, ht⟩ := copied (A := A) (i := i) (m := n) hg x
        (Or.inr ⟨k, rfl, hin⟩) le_rfl (by omega) (by omega)
      have halloc := lheapAlloc_of_room (A := A) hg (c := n + 1) (by omega) hroom
      refine ⟨_, h₃, ?_, Or.inr ⟨l, ht, ?_, ?_, ?_⟩⟩
      · simp only [exec, vListSet, hw, not_true_eq_false, if_false, hk, hload, Option.bind_eq_bind,
          Option.bind_some, hint, hi, if_neg hrange, hadd, halloc, if_neg hptr, hstore,
          Int.toNat_natCast, hcopy, hlast]
        rfl
      · rw [hreq, hl]
      · rw [hl]
        omega
      · simp only [storeIndexes, hk, hload, hi]
        rw [hl]
        exact copyIndexes_le (by omega) le_rfl (by omega) (by omega)
  · have hreq : h.request A (.set w iv x) = none := by simp only [request, if_pos hw]
    refine ⟨w, h, ?_, Or.inl ⟨?_, rfl, rfl, ?_⟩⟩
    · simp only [exec, vListSet, if_pos hw]
    · simp only [written, hreq]
    · simp [hreq]

theorem zeros_outcome (hg : h.Good) {nv : Word}
    (hz : h.Fails (int32 (zerosLength nv + 1).toInt) ∨
      h.len + 1 + (zerosLength nv).toInt ≤ lheapCells) :
    ∃ r h', h.exec A (.zeros nv) = some (r, h') ∧
      (Refused A h (.zeros nv) h' ∨ ∃ l, Fills A h (.zeros nv) l r h') := by
  have hN : lheapCells = 32768 := rfl
  have hlo := hg.1
  have hreq : h.request A (.zeros nv) = some (int32 (zerosLength nv + 1).toInt) := rfl
  rcases hz with hf | hroom
  · refine ⟨vInt 0, { h with overflows := int32 (h.overflows + 1) }, ?_,
      Or.inl (refused_of_fails hreq hf rfl rfl)⟩
    simp only [exec, vListZeros, lheapAlloc_of_fails hf, if_true]
  · obtain ⟨n, hint, hn, -⟩ := zerosLength_toInt nv
    rw [hint] at hroom
    obtain ⟨r, h', hexec, ht⟩ := vListZeros_takes (A := A) hg hn hroom
    refine ⟨r, h', hexec, Or.inr ⟨_, ht, ?_, ?_, ?_⟩⟩
    · rw [hreq, hn, toInt_ofNat_add_one (by omega), List.length_replicate,
        int32_of_small (by omega) (by omega)]
    · rw [List.length_replicate]
      omega
    · intro i hi
      rw [List.length_replicate]
      simp only [storeIndexes, itemIndexes, hint, Int.toNat_natCast, List.mem_cons,
        mem_loopIndexes] at hi
      omega

theorem inReserved_of_refused (hr : Refused A h op h') : h.InReserved A op := by
  intro x hx
  rw [hr.written_eq] at hx
  cases hx

theorem written_of_room (hg : h.Good) {c : ℤ} (hreq : h.request A op = some c) (h0 : 0 ≤ c)
    (hroom : h.len + c ≤ lheapCells) :
    h.written A op = (h.storeIndexes A op).map (cellOf A (ptr A h.len.toNat)) := by
  have hN : lheapCells = 32768 := rfl
  have hlo := hg.1
  have hb : (h.lheapAlloc A c).1 = ptr A h.len.toNat := by rw [lheapAlloc_of_room hg h0 hroom]
  have hne : ptr A h.len.toNat ≠ 0 := ptr_ne_zero (by omega)
  simp only [written, hreq, hb, if_neg hne]

theorem inReserved_of_fills {l : List Word} (hg : h.Good) (hf : Fills A h op l r h') :
    h.InReserved A op := by
  intro x hx
  have hlo := Int.toNat_of_nonneg hg.1
  have hfits := hf.fits
  rw [written_of_room hg hf.request_eq (by omega) hfits] at hx
  obtain ⟨i, hi, rfl⟩ := List.mem_map.mp hx
  obtain ⟨h0, h1⟩ := hf.indexes i hi
  obtain ⟨k, rfl⟩ := Int.eq_ofNat_of_zero_le h0
  refine ⟨h.len.toNat + k, _, cellOf_ptr (by omega), hf.request_eq, ?_, ?_⟩
  · push_cast
    omega
  · push_cast
    omega

/-- A list of zeros that fits in no block, but passes the check, is stored past the
end of the array. -/
theorem zeros_overrun (hg : h.Good) {nv : Word}
    (hnot : ¬ h.Fails (int32 (zerosLength nv + 1).toInt))
    (hlong : lheapCells < h.len + 1 + (zerosLength nv).toInt) :
    none ∈ h.written A (.zeros nv) := by
  have hN : lheapCells = 32768 := rfl
  have hlo := Int.toNat_of_nonneg hg.1
  have hhi := hg.2
  obtain ⟨n, hint, -, -⟩ := zerosLength_toInt nv
  have hb : (h.lheapAlloc A (int32 (zerosLength nv + 1).toInt)).1 = ptr A h.len.toNat := by
    unfold lheapAlloc
    rw [if_neg hnot, ptr, ← hlo]
    exact BitVec.ofInt_natCast ..
  have hne : ptr A h.len.toNat ≠ 0 := ptr_ne_zero (by omega)
  have hmem : (lheapCells : ℤ) - h.len ∈ h.storeIndexes A (.zeros nv) := by
    simp only [storeIndexes, itemIndexes, hint, Int.toNat_natCast, List.mem_cons,
      mem_loopIndexes]
    omega
  have hnone : cellOf A (ptr A h.len.toNat) (lheapCells - h.len) = none := by
    unfold cellOf
    rw [ptr_toNat (by omega)]
    refine if_neg fun hin => ?_
    have hlt := hin.2.1
    push_cast at hlt
    omega
  have hw : h.written A (.zeros nv) =
      (h.storeIndexes A (.zeros nv)).map (cellOf A (ptr A h.len.toNat)) := by
    simp only [written, request, hb, if_neg hne]
  rw [hw, ← hnone]
  exact List.mem_map_of_mem hmem

end Outcome

end ListHeap

namespace Ledger

open ListHeap

variable {A : ListArea} {s s' : Ledger} {i : LedgerStep}

/-- Each block of the ledger holds a list that fills it. -/
def Inv (s : Ledger) : Prop :=
  s.heap.Good ∧ ∀ b ∈ s.blocks, ∃ (k : ℕ) (l : List Word),
    b = ((k : ℤ), (l.length : ℤ) + 1) ∧ s.heap.BlockAt k l

theorem Inv.sound (hI : s.Inv) : s.Sound := by
  refine ⟨hI.1, fun b hb => ?_⟩
  obtain ⟨k, l, rfl, hblock⟩ := hI.2 b hb
  have hN : lheapCells = 32768 := rfl
  have hle := hblock.le_cells hI.1
  simp only [Int.toNat_natCast]
  rw [hblock.length, toInt_ofNat_of_small (by omega)]
  ring

/-- Lists of the heap stay what they are when it grows. -/
theorem Inv.extends_ {h' : ListHeap} (hI : s.Inv) (hg : h'.Good) (he : s.heap.Extends h') :
    (Ledger.mk h' s.blocks).Inv := by
  refine ⟨hg, fun b hb => ?_⟩
  obtain ⟨k, l, hbk, hblock⟩ := hI.2 b hb
  exact ⟨k, l, hbk, hblock.mono he⟩

theorem Inv.refused {op : ListOp} {h' : ListHeap} (hI : s.Inv)
    (hr : Refused A s.heap op h') : (Ledger.mk h' (s.reserved A op)).Inv := by
  have hblocks : s.reserved A op = s.blocks := by
    unfold reserved
    cases hreq : s.heap.request A op with
    | none => rfl
    | some c => exact if_pos (hr.fails c hreq)
  rw [hblocks]
  refine hI.extends_ ?_ ⟨hr.len_eq.ge, fun j _ => by rw [hr.cells_eq]⟩
  unfold Good
  rw [hr.len_eq]
  exact hI.1

theorem Inv.fills {op : ListOp} {l : List Word} {r : Word} {h' : ListHeap} (hI : s.Inv)
    (hf : Fills A s.heap op l r h') : (Ledger.mk h' (s.reserved A op)).Inv := by
  have hN : lheapCells = 32768 := rfl
  have hg := hI.1
  have hlo := Int.toNat_of_nonneg hg.1
  have hfits := hf.fits
  have hnot : ¬ s.heap.Fails ((l.length : ℤ) + 1) := by
    rw [fails_iff hg (by omega) (by omega)]
    omega
  have hblocks : s.reserved A op = (s.heap.len, (l.length : ℤ) + 1) :: s.blocks := by
    simp only [reserved, hf.request_eq, if_neg hnot]
  have hg' := hf.takes.good hg (by omega)
  have hkept := hI.extends_ hg' (hf.takes.extends_ hg)
  rw [hblocks]
  refine ⟨hg', fun b hb => ?_⟩
  rcases List.mem_cons.mp hb with rfl | hb
  · refine ⟨s.heap.len.toNat, l, by rw [hlo], ?_, hf.takes.length, hf.takes.items⟩
    have hlen := hf.takes.len_eq
    dsimp only
    omega
  · exact hkept.2 b hb

theorem call_outcome (hI : s.Inv) {op : ListOp} (hreads : s.heap.ReadsIn A op)
    (hz : s.ZerosChecked (.call op)) : ∃ r h', s.heap.exec A op = some (r, h') ∧
      (Refused A s.heap op h' ∨ ∃ l, Fills A s.heap op l r h') := by
  cases op with
  | new => exact new_outcome hI.1
  | push w x => exact push_outcome hI.1 hreads
  | set w iv x => exact set_outcome hI.1 hreads
  | zeros nv => exact zeros_outcome hI.1 hz
  | cell w i =>
    obtain ⟨c, hc⟩ := Option.isSome_iff_exists.mp hreads
    refine ⟨s.heap.cells c, s.heap, ?_, Or.inl ⟨rfl, rfl, rfl, by simp [request]⟩⟩
    rw [ListHeap.exec, load, hc]
    rfl

/-- A step under the condition. -/
theorem step_inside (hI : s.Inv) (hreads : s.ReadsIn A i) (hz : s.ZerosChecked i) :
    (∀ op, i = .call op → s.heap.InReserved A op) ∧ ∃ s', s.step A i = some s' ∧ s'.Inv := by
  cases i with
  | reset =>
    refine ⟨by simp, ⟨s.heap.reset, []⟩, rfl, ⟨le_rfl, ?_⟩, by simp⟩
    exact Int.natCast_nonneg lheapCells
  | call op =>
    obtain ⟨r, h', hexec, hout⟩ := call_outcome hI hreads hz
    have hstep : s.step A (.call op) = some ⟨h', s.reserved A op⟩ := by
      rw [step, hexec]
      rfl
    rcases hout with hr | ⟨l, hf⟩
    · refine ⟨?_, _, hstep, hI.refused hr⟩
      rintro _ ⟨⟩
      exact inReserved_of_refused hr
    · refine ⟨?_, _, hstep, hI.fills hf⟩
      rintro _ ⟨⟩
      exact inReserved_of_fills hI.1 hf

/-- Without the condition the call stores outside the array. -/
theorem step_outside (hI : s.Inv) (hz : ¬ s.ZerosChecked i) :
    ∃ op, i = .call op ∧ none ∈ s.heap.written A op := by
  cases i with
  | reset => exact absurd trivial hz
  | call op =>
    cases op with
    | zeros nv =>
      obtain ⟨hnot, hlong⟩ := not_or.mp hz
      exact ⟨_, rfl, zeros_overrun hI.1 hnot (by omega)⟩
    | _ => exact absurd trivial hz

theorem inside_iff (hI : s.Inv) (hreads : s.ReadsIn A i) : s.Inside A i ↔ s.ZerosChecked i := by
  constructor
  · rintro ⟨hin, -⟩
    by_contra hz
    obtain ⟨op, hop, hnone⟩ := step_outside (A := A) hI hz
    obtain ⟨j, c, hj, -⟩ := hin op hop none hnone
    cases hj
  · intro hz
    obtain ⟨hin, s', hstep, hI'⟩ := step_inside hI hreads hz
    exact ⟨hin, s', hstep, hI'.sound⟩

theorem Inv.step (hI : s.Inv) (hreads : s.ReadsIn A i) (hstep : s.step A i = some s') : s'.Inv := by
  by_cases hz : s.ZerosChecked i
  · obtain ⟨-, s'', hstep', hI'⟩ := step_inside hI hreads hz
    cases hstep.symm.trans hstep'
    exact hI'
  · obtain ⟨op, rfl, hnone⟩ := step_outside (A := A) hI hz
    obtain ⟨⟨r, h'⟩, hexec, -⟩ := Option.map_eq_some_iff.mp hstep
    simpa using (exec_accounted hexec).1 none hnone

end Ledger

/-- In every run from an empty heap, if what the calls read lies in the array and every list of
zeros that does not fit is stopped by the check of `lheap_alloc`, each call stays inside the
block that it has reserved, and leaves the used part in the array and the length words right.
As long as the reads lie in the array, the second condition is needed as well. -/
theorem insideReserved (A : ListArea) (h : ListHeap) (hempty : h.len = 0) (is : List LedgerStep) :
    (EachStep (Ledger.step A) (fun s i => s.ReadsIn A i ∧ s.ZerosChecked i) ⟨h, []⟩ is →
        EachStep (Ledger.step A) (Ledger.Inside A) ⟨h, []⟩ is) ∧
      (EachStep (Ledger.step A) (Ledger.ReadsIn A) ⟨h, []⟩ is →
        EachStep (Ledger.step A) (Ledger.Inside A) ⟨h, []⟩ is →
          EachStep (Ledger.step A) Ledger.ZerosChecked ⟨h, []⟩ is) := by
  have hstart : (Ledger.mk h []).Inv := by
    refine ⟨?_, by simp⟩
    unfold ListHeap.Good
    rw [hempty]
    decide
  have hiff (hreads : EachStep (Ledger.step A) (Ledger.ReadsIn A) ⟨h, []⟩ is) :
      EachStep (Ledger.step A) (Ledger.Inside A) ⟨h, []⟩ is ↔
        EachStep (Ledger.step A) Ledger.ZerosChecked ⟨h, []⟩ is :=
    eachStep_congr_of Ledger.Inv (fun s i s' => Ledger.Inv.step) (fun s i => Ledger.inside_iff)
      hstart hreads
  constructor
  · intro hok
    exact (hiff (hok.imp fun _ _ h => h.1)).mpr (hok.imp fun _ _ h => h.2)
  · exact fun hreads => (hiff hreads).mp

theorem insideReserved_fresh : EachStep (Ledger.step area) (Ledger.Inside area)
    ⟨cleared.reset, []⟩ [.call (.zeros (vInt 3)), .call (.push (vInt 5) 7), .reset] := by
  refine (insideReserved area cleared.reset rfl _).1 ⟨⟨trivial, Or.inr (by decide)⟩, fun s _ => ?_⟩
  have hvalue : s.ReadsIn area (.call (.push (vInt 5) 7)) := fun hlist => absurd hlist (by decide)
  exact ⟨⟨hvalue, trivial⟩, fun _ _ => ⟨⟨trivial, trivial⟩, fun _ _ => trivial⟩⟩

/-- No cell is reserved for a list of `2 ^ 32 - 1` zeros. -/
theorem zeros_of_wrapped_length :
    ¬ ∀ (A : ListArea) (h : ListHeap), h.len = 0 → ∀ is : List LedgerStep,
      EachStep (Ledger.step A) (Ledger.ReadsIn A) ⟨h, []⟩ is →
        EachStep (Ledger.step A) (Ledger.Inside A) ⟨h, []⟩ is := by
  intro hall
  have hinside := hall area cleared.reset rfl
    [.call (.zeros (vInt (2 ^ 32 - 1)))] ⟨trivial, fun _ _ => trivial⟩
  have hlen : ListHeap.zerosLength (vInt (2 ^ 32 - 1)) = 2 ^ 32 - 1 := by decide
  have hsum : ((2 ^ 32 - 1 : Word) + 1).toInt = 2 ^ 32 := by decide
  have hwrap : int32 (2 ^ 32) = 0 := by decide
  have hreq : cleared.reset.request area (.zeros (vInt (2 ^ 32 - 1))) =
      some 0 := by
    simp only [ListHeap.request, hlen, hsum, hwrap]
  have hw := ListHeap.written_of_room (A := area) (good_reset cleared)
    hreq le_rfl (by decide)
  -- the length word is stored to the first cell behind the used part
  have hfirst : some 0 ∈
      cleared.reset.written area (.zeros (vInt (2 ^ 32 - 1))) := by
    rw [hw]
    exact List.mem_cons_self
  obtain ⟨j, c, hj, hc, hlo, hhi⟩ := hinside.1.1 _ rfl (some 0) hfirst
  cases hj
  rw [hreq] at hc
  cases hc
  exact absurd hhi (by decide)

/-- A heap of an earlier run: cell 5 has been a length word and holds the integer -1 now. -/
def reused : ListHeap := { cells := Function.update (fun _ => 0) 5 (vInt (-1)), len := 0, overflows := 0 }

/-- `v_list_push` on a stale list of length -1 reserves one cell, and stores the item over the
length word in it. -/
theorem push_onto_stale :
    ¬ ∀ (A : ListArea) (h : ListHeap), h.len = 0 → ∀ is : List LedgerStep,
      EachStep (Ledger.step A) Ledger.ZerosChecked ⟨h, []⟩ is →
        EachStep (Ledger.step A) (Ledger.Inside A) ⟨h, []⟩ is := by
  intro hall
  obtain ⟨⟨-, s', hstep, -, hlength⟩, -⟩ := hall area reused rfl
    [.call (.push (ListHeap.listWord area 5) (vInt 3))] ⟨trivial, fun _ _ => trivial⟩
  have hafter : (Ledger.step area ⟨reused, []⟩
      (.call (.push (ListHeap.listWord area 5) (vInt 3)))).map
        (fun s => (s.blocks, s.heap.cells 0)) = some ([(0, 1)], vInt 3) := by decide
  rw [hstep, Option.map_some, Option.some.injEq, Prod.mk.injEq] at hafter
  have hword := hlength (0, 1) (by simp [hafter.1])
  rw [Int.toNat_zero, hafter.2] at hword
  exact absurd hword (by decide)

end XinuRpi4.Runtime
