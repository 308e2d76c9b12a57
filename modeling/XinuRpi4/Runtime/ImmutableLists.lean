import XinuRpi4.Runtime.ListPrograms

/-!
# `v_list_map`, `v_list_filter`, and the lists of a whole run

The loops of `v_list_map` and `v_list_filter` build their result by `v_list_push`, and
compiled code runs between two rounds. It can only extend the heap, so the source and
the result built so far stay what they are.
-/

namespace XinuRpi4.Runtime

open Foundation CallProgram ListProg

namespace ListHeap

variable {A : ListArea} {h : ListHeap}

/-- The elements whose mark is set. -/
def marked (l : List Word) (bs : List Bool) : List Word :=
  ((l.zip bs).filter fun p => p.2).map fun p => p.1

section Loops

variable {apply : Apply} {w id : Word} {l : List Word} {full : Prop}

/-- What holds between two rounds: the source still stands for its list, and the result
built so far for its own. -/
structure Between (A : ListArea) (h : ListHeap) (w : Word) (l : List Word) (full : Prop)
    (s : ListHeap) (out : Word) (ys : List Word) : Prop where
  extends_ : h.Extends s
  good : s.Good
  source : s.Denotes A w l
  result : s.Denotes A out ys
  tagged : vIsList out = true ∨ vIsList out = false ∧ full

theorem Between.later {s s' : ListHeap} {out : Word} {ys : List Word}
    (hb : Between A h w l full s out ys) (he : s.Extends s') (hg : s'.Good) :
    Between A h w l full s' out ys where
  extends_ := hb.extends_.trans he
  good := hg
  source := hb.source.mono he
  result := hb.result.mono he
  tagged := hb.tagged

/-- One more element. -/
theorem Between.push {s : ListHeap} {out x : Word} {ys : List Word}
    (hb : Between A h w l full s out ys) (hop : s.Admitted A (.push out x)) :
    ∃ r s', s.exec A (.push out x) = some (r, s') ∧ Between A h w l full s' r (ys ++ [x]) := by
  obtain ⟨r, s', hexec, hg, he, hlist, hd⟩ := exec_push hb.good hb.result hop.2
  exact ⟨r, s', hexec, hb.extends_.trans he, hg, hb.source.mono he, hd, Or.inl hlist⟩

theorem mapLoop_spec {R : Word → Word → Prop} (hw : vIsList w = true)
    (hR : ∀ e ∈ l, ∀ s y s', h.Extends s → (apply id e).run (exec A) s = some (y, s') → R e y)
    {k i : ℕ} {s : ListHeap} {out : Word} {ys : List Word} (hik : i + k = l.length)
    (hb : Between A h w l full s out ys)
    (hok : (mapLoop apply w id k i out).EachCall (exec A) (Admitted A) s) :
    ∃ r s' zs, (mapLoop apply w id k i out).run (exec A) s = some (r, s') ∧
      List.Forall₂ R (l.drop i) zs ∧ Between A h w l full s' r (ys ++ zs) := by
  induction k generalizing i s out ys with
  | zero =>
    refine ⟨out, s, [], rfl, ?_, by rwa [List.append_nil]⟩
    rw [List.drop_eq_nil_of_le (by omega)]
    exact List.Forall₂.nil
  | succ k ih =>
    have hi : i < l.length := by omega
    have hcell := (exec_cell hb.good hw hb.source).2 i hi
    rw [mapLoop] at hok ⊢
    obtain ⟨-, hok⟩ := eachCall_op_bind hcell hok
    rw [run_op_bind hcell]
    -- the callback may only extend the heap
    obtain ⟨hcall, hok⟩ := (eachCall_bind ..).mp hok
    obtain ⟨y, s₁, hrun, hg₁, he₁⟩ := run_admitted hb.good _ hcall
    have hb₁ := hb.later he₁ hg₁
    rw [run_bind_of_run hrun]
    have hok₁ := hok y s₁ hrun
    obtain ⟨hpush, hok⟩ := (eachCall_bind ..).mp hok₁
    obtain ⟨r, s₂, hexec, hb₂⟩ := hb₁.push ((eachCall_op ..).mp hpush)
    rw [run_op_bind hexec]
    have hok₂ := hok r s₂ ((run_op ..).trans hexec)
    rw [show (i : ℤ) + 1 = ((i + 1 : ℕ) : ℤ) by push_cast; ring] at hok₂ ⊢
    obtain ⟨r', s₃, zs, hloop, hall, hb₃⟩ := ih (by omega) hb₂ hok₂
    refine ⟨r', s₃, y :: zs, hloop, ?_, ?_⟩
    · rw [List.drop_eq_getElem_cons hi]
      exact List.Forall₂.cons (hR _ (List.getElem_mem hi) _ _ _ hb.extends_ hrun) hall
    · rw [List.append_cons]
      exact hb₃

theorem filterLoop_spec {other : Word → Bool} {R : Word → Bool → Prop} (hw : vIsList w = true)
    (hR : ∀ e ∈ l, ∀ s b s', h.Extends s →
      (apply id e >>= vTruthy other).run (exec A) s = some (b, s') → R e b)
    {k i : ℕ} {s : ListHeap} {out : Word} {ys : List Word} (hik : i + k = l.length)
    (hb : Between A h w l full s out ys)
    (hok : (filterLoop apply other w id k i out).EachCall (exec A) (Admitted A) s) :
    ∃ r s' bs, (filterLoop apply other w id k i out).run (exec A) s = some (r, s') ∧
      List.Forall₂ R (l.drop i) bs ∧
      Between A h w l full s' r (ys ++ marked (l.drop i) bs) := by
  induction k generalizing i s out ys with
  | zero =>
    refine ⟨out, s, [], rfl, ?_, by simpa [marked] using hb⟩
    rw [List.drop_eq_nil_of_le (by omega)]
    exact List.Forall₂.nil
  | succ k ih =>
    have hi : i < l.length := by omega
    have hcell := (exec_cell hb.good hw hb.source).2 i hi
    rw [filterLoop] at hok ⊢
    obtain ⟨-, hok⟩ := eachCall_op_bind hcell hok
    rw [run_op_bind hcell]
    obtain ⟨hcall, hok⟩ := (eachCall_bind ..).mp hok
    obtain ⟨y, s₁, hrun, hg₁, he₁⟩ := run_admitted hb.good _ hcall
    have hb₁ := hb.later he₁ hg₁
    rw [run_bind_of_run hrun]
    obtain ⟨htest, hok⟩ := (eachCall_bind ..).mp (hok y s₁ hrun)
    obtain ⟨b, s₂, hrun₂, hg₂, he₂⟩ := run_admitted hg₁ _ htest
    have hb₂ := hb₁.later he₂ hg₂
    rw [run_bind_of_run hrun₂]
    have hok₂ := hok b s₂ hrun₂
    have hmark : R l[i] b := by
      apply hR _ (List.getElem_mem hi) s b s₂ hb.extends_
      rw [run_bind_of_run hrun]
      exact hrun₂
    rw [List.drop_eq_getElem_cons hi]
    cases b with
    | true =>
      rw [if_pos rfl] at hok₂ ⊢
      obtain ⟨hpush, hok₃⟩ := (eachCall_bind ..).mp hok₂
      obtain ⟨r, s₃, hexec, hb₃⟩ := hb₂.push ((eachCall_op ..).mp hpush)
      rw [run_op_bind hexec]
      have hok₄ := hok₃ r s₃ ((run_op ..).trans hexec)
      rw [show (i : ℤ) + 1 = ((i + 1 : ℕ) : ℤ) by push_cast; ring] at hok₄ ⊢
      obtain ⟨r', s₄, bs, hloop, hall, hb₄⟩ := ih (by omega) hb₃ hok₄
      refine ⟨r', s₄, true :: bs, hloop, List.Forall₂.cons hmark hall, ?_⟩
      rw [List.append_assoc] at hb₄
      exact hb₄
    | false =>
      rw [if_neg Bool.false_ne_true] at hok₂ ⊢
      rw [show (i : ℤ) + 1 = ((i + 1 : ℕ) : ℤ) by push_cast; ring] at hok₂ ⊢
      obtain ⟨r', s₃, bs, hloop, hall, hb₃⟩ := ih (by omega) hb₂ hok₂
      exact ⟨r', s₃, false :: bs, hloop, List.Forall₂.cons hmark hall, hb₃⟩

end Loops

theorem Between.answers {w r : Word} {l ys : List Word} {s : ListHeap}
    (hb : Between A h w l (lheapCells < h.len + 1) s r ys) : Answers A h s r ys := by
  rcases hb.tagged with hlist | ⟨hnot, hfull⟩
  · exact Or.inl ⟨hlist, hb.result⟩
  · exact Or.inr ⟨hnot, by omega⟩

/-- The result of `v_list_map` and `v_list_filter` before their first round. -/
theorem between_new (hg : h.Good) {w : Word} {l : List Word} (hd : h.Denotes A w l) :
    ∃ r s, h.exec A .new = some (r, s) ∧ Between A h w l (lheapCells < h.len + 1) s r [] := by
  obtain ⟨r, s, hexec, hgs, he, hr, htag⟩ := exec_new (A := A) hg
  exact ⟨r, s, hexec, he, hgs, hd.mono he, hr, htag⟩

theorem vListMap_spec (hg : h.Good) {apply : Apply} {w idv : Word} {l : List Word}
    (hd : h.Denotes A w l) {R : Word → Word → Prop}
    (hR : ∀ e ∈ l, ∀ s y s', h.Extends s →
      (apply (vIntOf idv) e).run (exec A) s = some (y, s') → R e y)
    (hok : (vListMap (some apply) w idv).EachCall (exec A) (Admitted A) h) :
    ∃ r h' ys, (vListMap (some apply) w idv).run (exec A) h = some (r, h') ∧
      List.Forall₂ R l ys ∧ Answers A h h' r ys := by
  obtain ⟨r, s, hnew, hb⟩ := between_new hg hd
  by_cases hw : vIsList w = true
  · have hcell := (exec_cell hg hw hd).1
    have hlen : (BitVec.ofNat 64 l.length).toInt.toNat = l.length := by
      have hle := hd.length_le hg
      have htop := hg.2
      have hN : lheapCells = 32768 := rfl
      rw [toInt_ofNat_of_small (by omega), Int.toNat_natCast]
    simp only [vListMap, hw] at hok ⊢
    rw [run_op_bind hcell, run_op_bind hnew]
    have hloop := (eachCall_op_bind hnew (eachCall_op_bind hcell hok).2).2
    rw [hlen, ← Nat.cast_zero] at hloop ⊢
    obtain ⟨r', s', zs, hrun, hall, hb'⟩ := mapLoop_spec hw hR (by omega) hb hloop
    exact ⟨r', s', zs, hrun, hall, hb'.answers⟩
  · have hnil : l = [] := by
      unfold Denotes at hd
      rwa [if_neg hw] at hd
    subst hnil
    rw [Bool.not_eq_true] at hw
    refine ⟨r, s, [], ?_, List.Forall₂.nil, hb.answers⟩
    simp only [vListMap, hw]
    rw [run_op, hnew]

theorem vListFilter_spec (hg : h.Good) {apply : Apply} {other : Word → Bool} {w idv : Word}
    {l : List Word} (hd : h.Denotes A w l) {R : Word → Bool → Prop}
    (hR : ∀ e ∈ l, ∀ s b s', h.Extends s →
      (apply (vIntOf idv) e >>= vTruthy other).run (exec A) s = some (b, s') → R e b)
    (hok : (vListFilter (some apply) other w idv).EachCall (exec A) (Admitted A) h) :
    ∃ r h' bs, (vListFilter (some apply) other w idv).run (exec A) h = some (r, h') ∧
      List.Forall₂ R l bs ∧ Answers A h h' r (marked l bs) := by
  obtain ⟨r, s, hnew, hb⟩ := between_new hg hd
  by_cases hw : vIsList w = true
  · have hcell := (exec_cell hg hw hd).1
    have hlen : (BitVec.ofNat 64 l.length).toInt.toNat = l.length := by
      have hle := hd.length_le hg
      have htop := hg.2
      have hN : lheapCells = 32768 := rfl
      rw [toInt_ofNat_of_small (by omega), Int.toNat_natCast]
    simp only [vListFilter, hw] at hok ⊢
    rw [run_op_bind hcell, run_op_bind hnew]
    have hloop := (eachCall_op_bind hnew (eachCall_op_bind hcell hok).2).2
    rw [hlen, ← Nat.cast_zero] at hloop ⊢
    obtain ⟨r', s', bs, hrun, hall, hb'⟩ := filterLoop_spec hw hR (by omega) hb hloop
    exact ⟨r', s', bs, hrun, hall, hb'.answers⟩
  · have hnil : l = [] := by
      unfold Denotes at hd
      rwa [if_neg hw] at hd
    subst hnil
    rw [Bool.not_eq_true] at hw
    refine ⟨r, s, [], ?_, List.Forall₂.nil, hb.answers⟩
    simp only [vListFilter, hw]
    rw [run_op, hnew]

/-- What a program may rely on in a heap, as long as its calls meet a condition. -/
structure ListsAreValues (A : ListArea) (ok : ListHeap → ListOp → Prop) (h : ListHeap) : Prop where
  /-- whatever runs next, it returns, and no list changes -/
  persist : ∀ p : ListProg Word, p.EachCall (exec A) ok h →
    ∃ a h', p.run (exec A) h = some (a, h') ∧ ∀ w l, h.Denotes A w l → h'.Denotes A w l
  unique : ∀ w l l', h.Denotes A w l → h.Denotes A w l' → l = l'
  new : ok h .new → ∃ r h', h.vListNew A = some (r, h') ∧ Answers A h h' r []
  push : ∀ w x l, h.Denotes A w l → ok h (.push w x) →
    ∃ r h', h.vListPush A w x = some (r, h') ∧ Answers A h h' r (l ++ [x])
  set : ∀ w iv x l, h.Denotes A w l → ok h (.set w iv x) →
    ∃ r h', h.vListSet A w iv x = some (r, h') ∧ h'.Denotes A r
      (if 0 ≤ (vIntOf iv).toInt ∧ (vIntOf iv).toInt < l.length then
        l.set (vIntOf iv).toInt.toNat x else l)
  zeros : ∀ nv, ok h (.zeros nv) → ∃ r h', h.vListZeros A nv = some (r, h') ∧
    Answers A h h' r (List.replicate (vIntOf nv).toInt.toNat (vInt 0))
  len : ∀ w l, h.Denotes A w l → h.vListLen A w = some (vInt (BitVec.ofNat 64 l.length))
  get : ∀ w iv l, h.Denotes A w l → h.vListGet A w iv =
    some (if 0 ≤ (vIntOf iv).toInt then l.getD (vIntOf iv).toInt.toNat (vInt 0) else vInt 0)
  map : ∀ apply w idv l (R : Word → Word → Prop), h.Denotes A w l →
    (∀ e ∈ l, ∀ s y s', h.Extends s →
      (apply (vIntOf idv) e).run (exec A) s = some (y, s') → R e y) →
    (vListMap (some apply) w idv).EachCall (exec A) ok h →
    ∃ r h' ys, (vListMap (some apply) w idv).run (exec A) h = some (r, h') ∧
      List.Forall₂ R l ys ∧ Answers A h h' r ys
  filter : ∀ apply other w idv l (R : Word → Bool → Prop), h.Denotes A w l →
    (∀ e ∈ l, ∀ s b s', h.Extends s →
      (apply (vIntOf idv) e >>= vTruthy other).run (exec A) s = some (b, s') → R e b) →
    (vListFilter (some apply) other w idv).EachCall (exec A) ok h →
    ∃ r h' bs, (vListFilter (some apply) other w idv).run (exec A) h = some (r, h') ∧
      List.Forall₂ R l bs ∧ Answers A h h' r (marked l bs)

theorem zerosLength_toNat (nv : Word) :
    (zerosLength nv).toInt.toNat = (vIntOf nv).toInt.toNat := by
  unfold zerosLength
  split_ifs with hneg
  · exact (Int.toNat_of_nonpos hneg.le).symm
  · rfl

end ListHeap

open ListHeap

theorem good_reset (h : ListHeap) : h.reset.Good := ⟨le_rfl, by simp [reset]⟩

theorem lists_are_values {A : ListArea} {α : Type} (h₀ : ListHeap) (p : ListProg α)
    (hp : p.EachCall (exec A) (Admitted A) h₀.reset) {a : α} {h : ListHeap}
    (hrun : p.run (exec A) h₀.reset = some (a, h)) : ListsAreValues A (Admitted A) h := by
  have hg : h.Good := by
    obtain ⟨a', h', hrun', hg, -⟩ := run_admitted (good_reset h₀) p hp
    rw [hrun, Option.some.injEq, Prod.mk.injEq] at hrun'
    rw [hrun'.2]
    exact hg
  refine
    { persist := fun p hp => ?_
      unique := fun w l l' => Denotes.unique hg
      new := fun _ => ?_
      push := fun w x l hd hop => ?_
      set := fun w iv x l hd hop => ?_
      zeros := fun nv hop => ?_
      len := fun w l => vListLen_eq hg
      get := fun w iv l => vListGet_eq hg
      map := fun apply w idv l R hd => vListMap_spec hg hd
      filter := fun apply other w idv l R hd => vListFilter_spec hg hd }
  · obtain ⟨a, h', hrun, -, he⟩ := run_admitted hg p hp
    exact ⟨a, h', hrun, fun w l hd => hd.mono he⟩
  · obtain ⟨r, h', hexec, -, -, hd, htag⟩ := exec_new (A := A) hg
    refine ⟨r, h', hexec, ?_⟩
    rcases htag with hlist | ⟨hnot, hfull⟩
    · exact Or.inl ⟨hlist, hd⟩
    · exact Or.inr ⟨hnot, by simpa using hfull⟩
  · obtain ⟨r, h', hexec, -, -, hr⟩ := exec_push hg hd hop.2
    exact ⟨r, h', hexec, Or.inl hr⟩
  · obtain ⟨r, h', hexec, -, -, hr⟩ := exec_set hg hd hop.2
    exact ⟨r, h', hexec, hr⟩
  · obtain ⟨r, h', hexec, -, -, hr⟩ := exec_zeros hg hop.2
    rw [zerosLength_toNat] at hr
    exact ⟨r, h', hexec, hr⟩

/-- Two calls on an array in which everything is unused. -/
def area : ListArea := { base := 4096, base_pos := by decide, aligned := by decide, low := by decide }

def cleared : ListHeap := { cells := fun _ => 0, len := 0, overflows := 0 }

def pushOnto (l : ListProg Word) (x : Word) : ListProg Word := do
  let w ← l
  op (.push w x)

theorem lists_are_values_pushed : ∃ a h,
    (pushOnto (op .new) 7).run (exec area) cleared.reset = some (a, h) ∧
      ListsAreValues area (Admitted area) h := by
  have hg := good_reset cleared
  obtain ⟨r, s, hnew, ht⟩ := vListNew_takes (A := area) hg (by decide)
  have hd := (ht.denotes hg).2
  have hroom : s.Admitted area (.push r 7) := by
    refine ⟨⟨[], hd⟩, fun l hl => ?_⟩
    rw [Denotes.unique (ht.good hg (by decide)) hl hd, ht.len_eq]
    decide
  have hok : (pushOnto (op .new) 7).EachCall (exec area) (Admitted area) cleared.reset := by
    refine ⟨⟨trivial, trivial⟩, ?_⟩
    intro r' s' hexec
    obtain ⟨rfl, rfl⟩ : r = r' ∧ s = s' := by
      have heq := hnew.symm.trans hexec
      rwa [Option.some.injEq, Prod.mk.injEq] at heq
    exact ⟨hroom, fun _ _ _ => trivial⟩
  obtain ⟨a, h, hrun, -⟩ := run_admitted hg _ hok
  exact ⟨a, h, hrun, lists_are_values cleared _ hok hrun⟩

/-- `v_list_push` on a full array answers with the list it was given. -/
theorem vListPush_of_fails {A : ListArea} {h : ListHeap} (hg : h.Good) {w : Word} (x : Word)
    {l : List Word} (hd : h.Denotes A w l) (hw : vIsList w = true)
    (hfull : lheapCells < h.len + 2 + l.length) :
    ∃ h', h.vListPush A w x = some (w, h') ∧ h'.Denotes A w l ∧ h'.Good := by
  have hN : lheapCells = 32768 := rfl
  have hlen := hd.length_le hg
  have h0 := hg.1
  have htop := hg.2
  obtain ⟨k, hk, hb, hne, hload⟩ := hd.block hw hg
  have hadd : (BitVec.ofNat 64 l.length + 2).toInt = l.length + 2 :=
    toInt_ofNat_add_two (by omega)
  have hfail : h.Fails (l.length + 2) := by
    right
    rw [int32_of_small (by omega) (by omega)]
    omega
  refine ⟨{ h with overflows := int32 (h.overflows + 1) }, ?_,
    hd.mono ⟨le_rfl, fun _ _ => rfl⟩, hg⟩
  unfold vListPush
  simp only [hw, if_true, hk, srcLength, ne_eq, hne, not_false_eq_true, hload, Option.bind_eq_bind,
    Option.bind_some, hadd, int32_of_small (show (0 : ℤ) ≤ l.length + 2 by omega) (by omega),
    lheapAlloc_of_fails hfail]
  rfl

/-- Zeros fill the array, and the item that is pushed next is lost. -/
theorem pushed_item_lost_in_full_heap :
    ¬ ∀ (A : ListArea) (h₀ : ListHeap) (p : ListProg Word) (a : Word) (h : ListHeap),
      p.EachCall (exec A) (WellFormed A) h₀.reset → p.run (exec A) h₀.reset = some (a, h) →
        ListsAreValues A (WellFormed A) h := by
  intro hall
  have hg := good_reset cleared
  have hn : zerosLength (vInt 32767) = BitVec.ofNat 64 32767 := by decide
  obtain ⟨w, h, hzeros, ht⟩ := vListZeros_takes (A := area) hg hn (by decide)
  obtain ⟨hw, hd⟩ := ht.denotes hg
  have hlen : h.len = 32768 := by
    rw [ht.len_eq, List.length_replicate]
    rfl
  have hgood : h.Good := ⟨by omega, by rw [hlen]; decide⟩
  let p : ListProg Word := op (.zeros (vInt 32767))
  have hok : p.EachCall (exec area) (WellFormed area) cleared.reset :=
    ⟨trivial, fun _ _ _ => trivial⟩
  have hrun : p.run (exec area) cleared.reset = some (w, h) := (run_op ..).trans hzeros
  have hvals := hall area cleared p w h hok hrun
  -- the push answers with its argument
  obtain ⟨h', hpush, hd', hg'⟩ := vListPush_of_fails hgood 7 hd hw (by
    rw [hlen, List.length_replicate]
    decide)
  obtain ⟨r, h'', hpush', hr⟩ := hvals.push w 7 _ hd ⟨_, hd⟩
  obtain ⟨rfl, rfl⟩ : w = r ∧ h' = h'' := by
    have heq := hpush.symm.trans hpush'
    rwa [Option.some.injEq, Prod.mk.injEq] at heq
  rcases hr with ⟨-, hwrong⟩ | ⟨hnot, -⟩
  · have heq := congrArg List.length (hd'.unique hg' hwrong)
    rw [List.length_append, List.length_singleton] at heq
    omega
  · rw [hw] at hnot
    exact absurd hnot (by decide)

end XinuRpi4.Runtime
