import Mathlib.Data.List.GetD
import XinuRpi4.Runtime.ListValues

/-!
# Programs over immutable lists

Every program whose calls find room keeps the list of every value, and each call
answers with the list it should: so do `v_list_map` and `v_list_filter`, which are
programs themselves.
-/

namespace XinuRpi4.Runtime

open Foundation CallProgram

namespace ListHeap

variable {A : ListArea} {h h' : ListHeap}

/-- The arguments are values: integers and other words that are no lists, or lists that
some call has returned. -/
def WellFormed (A : ListArea) (h : ListHeap) : ListOp → Prop
  | .push w _ => ∃ l, h.Denotes A w l
  | .set w _ _ => ∃ l, h.Denotes A w l
  | .cell w i => vIsList w = true ∧ ∃ l, h.Denotes A w l ∧ 0 ≤ i ∧ i ≤ l.length
  | _ => True

/-- The new block fits into the array. `v_list_new` and `v_list_zeros` may find no room,
but then the check of `lheap_alloc` has to notice. -/
def HasRoom (A : ListArea) (h : ListHeap) : ListOp → Prop
  | .push w _ => ∀ l, h.Denotes A w l → h.len + 1 + (l.length + 1) ≤ lheapCells
  | .set w iv _ => ∀ l, h.Denotes A w l →
    0 ≤ (vIntOf iv).toInt ∧ (vIntOf iv).toInt < l.length → h.len + 1 + l.length ≤ lheapCells
  | .zeros nv => ¬ h.Fails (int32 (zerosLength nv + 1).toInt) →
    h.len + 1 + (zerosLength nv).toInt ≤ lheapCells
  | _ => True

def Admitted (A : ListArea) (h : ListHeap) (op : ListOp) : Prop := h.WellFormed A op ∧ h.HasRoom A op

/-- The answer is the list, or else no list, and the list does not fit into the array. -/
def Answers (A : ListArea) (h h' : ListHeap) (r : Word) (l : List Word) : Prop :=
  vIsList r = true ∧ h'.Denotes A r l ∨ vIsList r = false ∧ lheapCells < h.len + 1 + l.length

theorem exec_push (hg : h.Good) {w x : Word} {l : List Word} (hd : h.Denotes A w l)
    (hroom : h.HasRoom A (.push w x)) :
    ∃ r h', h.exec A (.push w x) = some (r, h') ∧ h'.Good ∧ h.Extends h' ∧
      vIsList r = true ∧ h'.Denotes A r (l ++ [x]) := by
  have hfit := hroom l hd
  obtain ⟨r, h', hexec, ht⟩ := vListPush_takes hg x hd hfit
  have hlen : ((l ++ [x]).length : ℤ) = l.length + 1 := by simp
  exact ⟨r, h', hexec, ht.good hg (by omega), ht.extends_ hg, ht.denotes hg⟩

theorem exec_new (hg : h.Good) :
    ∃ r h', h.exec A .new = some (r, h') ∧ h'.Good ∧ h.Extends h' ∧ h'.Denotes A r [] ∧
      (vIsList r = true ∨ vIsList r = false ∧ lheapCells < h.len + 1) := by
  by_cases hroom : h.len + 1 ≤ lheapCells
  · obtain ⟨r, h', hexec, ht⟩ := vListNew_takes (A := A) hg hroom
    obtain ⟨hlist, hd⟩ := ht.denotes hg
    refine ⟨r, h', hexec, ht.good hg ?_, ht.extends_ hg, hd, Or.inl hlist⟩
    simpa using hroom
  · have hN : lheapCells = 32768 := rfl
    have hfail : h.Fails 1 := by
      right
      rw [int32_of_small (by have := hg.1; omega) (by have := hg.2; omega)]
      omega
    refine ⟨vInt 0, { h with overflows := int32 (h.overflows + 1) }, ?_, hg,
      ⟨le_rfl, fun _ _ => rfl⟩, denotes_of_not_list not_vIsList_vInt_zero,
      Or.inr ⟨not_vIsList_vInt_zero, by omega⟩⟩
    simp only [exec, vListNew, lheapAlloc_of_fails hfail, if_true]

theorem exec_set (hg : h.Good) {w iv x : Word} {l : List Word} (hd : h.Denotes A w l)
    (hroom : h.HasRoom A (.set w iv x)) :
    ∃ r h', h.exec A (.set w iv x) = some (r, h') ∧ h'.Good ∧ h.Extends h' ∧
      h'.Denotes A r (if 0 ≤ (vIntOf iv).toInt ∧ (vIntOf iv).toInt < l.length then
        l.set (vIntOf iv).toInt.toNat x else l) := by
  by_cases hin : 0 ≤ (vIntOf iv).toInt ∧ (vIntOf iv).toInt < l.length
  · have hw : vIsList w = true := by
      by_contra hw
      unfold Denotes at hd
      rw [if_neg hw] at hd
      subst hd
      simp at hin
      omega
    have hfit := hroom l hd hin
    obtain ⟨r, h', hexec, ht⟩ := vListSet_takes hg x hd hw hin hfit
    rw [if_pos hin]
    refine ⟨r, h', hexec, ht.good hg ?_, ht.extends_ hg, (ht.denotes hg).2⟩
    rw [List.length_set]
    omega
  · rw [if_neg hin]
    exact ⟨w, h, vListSet_of_outside hg hd hin, hg, Extends.refl h, hd⟩

/-- `lheap_alloc` refuses no request that fits. -/
theorem full_of_fails (hg : h.Good) {nv : Word} {n : ℕ} (hn : zerosLength nv = BitVec.ofNat 64 n)
    (hfail : h.Fails (int32 (zerosLength nv + 1).toInt)) : lheapCells < h.len + 1 + n := by
  have hN : lheapCells = 32768 := rfl
  have h0 := hg.1
  by_contra hfit
  have hadd : (zerosLength nv + 1).toInt = n + 1 := by
    rw [hn]
    exact toInt_ofNat_add_one (by omega)
  have h32 : int32 ((n : ℤ) + 1) = n + 1 := int32_of_small (by omega) (by omega)
  unfold Fails at hfail
  rw [hadd, h32, int32_of_small (by omega) (by omega)] at hfail
  omega

theorem exec_zeros (hg : h.Good) {nv : Word} (hroom : h.HasRoom A (.zeros nv)) :
    ∃ r h', h.exec A (.zeros nv) = some (r, h') ∧ h'.Good ∧ h.Extends h' ∧
      Answers A h h' r (List.replicate (zerosLength nv).toInt.toNat (vInt 0)) := by
  obtain ⟨n, hint, hn, -⟩ := zerosLength_toInt nv
  by_cases hfail : h.Fails (int32 (zerosLength nv + 1).toInt)
  · have hfull := full_of_fails hg hn hfail
    rw [hint, Int.toNat_natCast]
    refine ⟨vInt 0, { h with overflows := int32 (h.overflows + 1) }, ?_, hg,
      ⟨le_rfl, fun _ _ => rfl⟩, Or.inr ⟨not_vIsList_vInt_zero, ?_⟩⟩
    · simp only [exec, vListZeros, lheapAlloc_of_fails hfail, if_true]
    · rw [List.length_replicate]
      exact hfull
  · have hfit := hroom hfail
    rw [hint] at hfit ⊢
    obtain ⟨r, h', hexec, ht⟩ := vListZeros_takes (A := A) hg hn hfit
    refine ⟨r, h', hexec, ht.good hg ?_, ht.extends_ hg, Or.inl (ht.denotes hg)⟩
    rw [List.length_replicate]
    exact hfit

/-- The items of a list, behind its length. -/
theorem exec_cell (hg : h.Good) {w : Word} {l : List Word} (hw : vIsList w = true)
    (hd : h.Denotes A w l) :
    h.exec A (.cell w 0) = some (BitVec.ofNat 64 l.length, h) ∧
      ∀ (i : ℕ) (hi : i < l.length), h.exec A (.cell w (1 + i)) = some (l[i], h) := by
  obtain ⟨k, hk, hb, -, hload⟩ := hd.block hw hg
  have hle := hb.le_cells hg
  constructor
  · simp only [exec, hk, hload, Option.map_some]
  · intro i hi
    have hitem := load_ptr (A := A) (h := h) (k := k) (i := 1 + i) (by omega)
    rw [show ((1 + i : ℕ) : ℤ) = 1 + i by push_cast; rfl] at hitem
    have hval := hb.items i _ (List.getElem?_eq_getElem hi)
    simp only [exec, hk, hitem, Option.map_some, ← hval]
    rw [show k + 1 + i = k + (1 + i) by omega]

/-- One call under the condition. -/
theorem exec_admitted (hg : h.Good) {op : ListOp} (hop : h.Admitted A op) :
    ∃ r h', h.exec A op = some (r, h') ∧ h'.Good ∧ h.Extends h' := by
  cases op with
  | new =>
    obtain ⟨r, h', hexec, hg', he, -⟩ := exec_new (A := A) hg
    exact ⟨r, h', hexec, hg', he⟩
  | push w x =>
    obtain ⟨⟨l, hd⟩, hroom⟩ := hop
    obtain ⟨r, h', hexec, hg', he, -⟩ := exec_push hg hd hroom
    exact ⟨r, h', hexec, hg', he⟩
  | set w iv x =>
    obtain ⟨⟨l, hd⟩, hroom⟩ := hop
    obtain ⟨r, h', hexec, hg', he, -⟩ := exec_set hg hd hroom
    exact ⟨r, h', hexec, hg', he⟩
  | zeros nv =>
    obtain ⟨r, h', hexec, hg', he, -⟩ := exec_zeros hg hop.2
    exact ⟨r, h', hexec, hg', he⟩
  | cell w i =>
    obtain ⟨⟨hw, l, hd, h0, hi⟩, -⟩ := hop
    obtain ⟨hlen, hitems⟩ := exec_cell hg hw hd
    by_cases hi0 : i = 0
    · rw [hi0]
      exact ⟨_, h, hlen, hg, Extends.refl h⟩
    · obtain ⟨j, rfl⟩ : ∃ j : ℕ, i = 1 + j := ⟨(i - 1).toNat, by omega⟩
      exact ⟨_, h, hitems j (by omega), hg, Extends.refl h⟩

/-- A whole program under the condition. -/
theorem run_admitted {α : Type} (hg : h.Good) (p : ListProg α)
    (hp : p.EachCall (exec A) (Admitted A) h) :
    ∃ a h', p.run (exec A) h = some (a, h') ∧ h'.Good ∧ h.Extends h' :=
  run_of_eachCall Good Extends Extends.refl (fun _ _ _ => Extends.trans)
    (fun _ _ hg hop => exec_admitted hg hop) p hg hp

theorem vListLen_eq (hg : h.Good) {w : Word} {l : List Word} (hd : h.Denotes A w l) :
    h.vListLen A w = some (vInt (BitVec.ofNat 64 l.length)) := by
  unfold vListLen
  split_ifs with hw
  · obtain ⟨k, hk, -, -, hload⟩ := hd.block hw hg
    rw [hk, hload, Option.map_some]
  · unfold Denotes at hd
    rw [if_neg hw] at hd
    rw [hd]
    rfl

theorem vListGet_eq (hg : h.Good) {w iv : Word} {l : List Word} (hd : h.Denotes A w l) :
    h.vListGet A w iv = some (if 0 ≤ (vIntOf iv).toInt then
      l.getD (vIntOf iv).toInt.toNat (vInt 0) else vInt 0) := by
  have hN : lheapCells = 32768 := rfl
  unfold vListGet
  by_cases hw : vIsList w
  · obtain ⟨k, hk, hb, -, hload⟩ := hd.block hw hg
    have hle := hb.le_cells hg
    have hint : (BitVec.ofNat 64 l.length).toInt = l.length := toInt_ofNat_of_small (by omega)
    rw [if_neg (not_not.mpr hw), hk]
    dsimp only
    rw [hload, Option.bind_eq_bind, Option.bind_some, hint]
    by_cases h0 : 0 ≤ (vIntOf iv).toInt
    · obtain ⟨i, hi⟩ : ∃ i : ℕ, (vIntOf iv).toInt = i := ⟨_, (Int.toNat_of_nonneg h0).symm⟩
      rw [hi, Int.toNat_natCast, if_pos (Int.natCast_nonneg i)]
      by_cases hlt : i < l.length
      · have hitem := (exec_cell hg hw hd).2 i hlt
        rw [exec, hk] at hitem
        obtain ⟨v, hv, heq⟩ := Option.map_eq_some_iff.mp hitem
        cases heq
        rw [if_pos ⟨Int.natCast_nonneg i, by omega⟩, hv, List.getD_eq_getElem _ _ hlt]
      · rw [if_neg (by omega), List.getD_eq_default _ _ (by omega)]
    · rw [if_neg (by omega), if_neg h0]
  · unfold Denotes at hd
    rw [if_neg hw] at hd
    rw [if_pos hw, hd]
    simp

end ListHeap

end XinuRpi4.Runtime
