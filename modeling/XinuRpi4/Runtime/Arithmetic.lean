import XinuRpi4.Runtime.Values

/-!
# Arithmetic on tagged integers

A word with its low bit set is an integer of 63 bits. The operations on such words agree
with integer arithmetic as long as the result is one. What they do with floats and strings,
whose contents lie in memory, is left open.
-/

namespace XinuRpi4.Runtime

section Operations

/-- What the operations answer for floats and strings. -/
structure Foreign where
  concat : Word → Word → Word
  floatAdd : Word → Word → Word
  floatSub : Word → Word → Word
  floatMul : Word → Word → Word
  floatDiv : Word → Word → Word
  floatLt : Word → Word → Bool
  floatLe : Word → Word → Bool
  floatEq : Word → Word → Bool
  /-- `v_streq` -/
  streq : Word → Word → Bool

/-- `v_is_str`. -/
def vIsStr (w : Word) : Bool := !vIsInt w && w ≠ 0 && !vIsFloat w && !vIsList w

/-- A truth value as an integer. -/
def vBool (c : Bool) : Word := vInt (if c then 1 else 0)

variable (F : Foreign) (a b : Word)

/-- `v_add`. -/
def vAdd : Word :=
  if vIsStr a || vIsStr b then F.concat a b
  else if vIsFloat a || vIsFloat b then F.floatAdd a b
  else vInt (vIntOf a + vIntOf b)

/-- `v_sub`. -/
def vSub : Word :=
  if vIsFloat a || vIsFloat b then F.floatSub a b else vInt (vIntOf a - vIntOf b)

/-- `v_mul`. -/
def vMul : Word :=
  if vIsFloat a || vIsFloat b then F.floatMul a b else vInt (vIntOf a * vIntOf b)

/-- `v_div`. -/
def vDiv : Word :=
  if vIsFloat a || vIsFloat b then F.floatDiv a b
  else
    let d := vIntOf b
    vInt (if d ≠ 0 then (vIntOf a).sdiv d else 0)

/-- `v_lt`. -/
def vLt : Word :=
  if vIsFloat a || vIsFloat b then vBool (F.floatLt a b) else vBool ((vIntOf a).slt (vIntOf b))

/-- `v_le`. -/
def vLe : Word :=
  if vIsFloat a || vIsFloat b then vBool (F.floatLe a b) else vBool ((vIntOf a).sle (vIntOf b))

/-- `v_eq`. -/
def vEq : Word :=
  if vIsStr a && vIsStr b then vBool (F.streq a b)
  else if vIsStr a || vIsStr b then vInt 0
  else if vIsFloat a || vIsFloat b then vBool (F.floatEq a b)
  else vBool (vIntOf a = vIntOf b)

/-- `v_ne`. -/
def vNe : Word := vBool (vIntOf (vEq F a b) = 0)

end Operations

section Words

/-- The integers that a word holds beside its tag. -/
def InRange (n : ℤ) : Prop := -2 ^ 62 ≤ n ∧ n < 2 ^ 62

/-- The integer of a word. -/
def value (w : Word) : ℤ := (vIntOf w).toInt

/-- The word is `n` behind its tag, with no bit lost. -/
def Tagged (w : Word) (n : ℤ) : Prop := w.toInt = 2 * n + 1

variable {w n : Word} {k : ℤ}

theorem vInt_toNat (n : Word) : (vInt n).toNat = 2 * n.toNat % 2 ^ 64 + 1 := by
  have hor := Nat.two_pow_add_eq_or_of_lt (i := 1) (b := 1) (by decide) (n.toNat % 2 ^ 63)
  have hone : (1 : Word).toNat = 1 := rfl
  rw [vInt, BitVec.toNat_or, BitVec.toNat_shiftLeft, Nat.shiftLeft_eq, hone,
    show n.toNat * 2 ^ 1 % 2 ^ 64 = 2 ^ 1 * (n.toNat % 2 ^ 63) by omega, ← hor]
  omega

theorem vIsInt_vInt (n : Word) : vIsInt (vInt n) = true := by
  rw [vIsInt_iff, vInt_toNat]
  omega

theorem tagged_vInt (h : InRange n.toInt) : Tagged (vInt n) n.toInt := by
  obtain ⟨hlow, hhigh⟩ := h
  have hn := n.isLt
  unfold Tagged
  rw [BitVec.toInt_eq_toNat_cond] at hlow hhigh ⊢
  rw [BitVec.toInt_eq_toNat_cond, vInt_toNat]
  split_ifs at * <;> omega

/-- What `v_int_of` answers for a tagged integer. -/
theorem tagged_value (h : vIsInt w = true) : Tagged w (value w) := by
  have hodd := (vIsInt_iff w).mp h
  have hw := w.isLt
  unfold Tagged value
  rw [vIntOf, if_pos h, BitVec.toInt_sshiftRight, Int.shiftRight_eq_div_pow,
    BitVec.toInt_eq_toNat_cond]
  split_ifs <;> omega

/-- A result that is an integer of 63 bits is tagged as such. -/
theorem tagged_of_toInt (hn : n.toInt = k) (h : InRange k) : Tagged (vInt n) k := by
  subst hn
  exact tagged_vInt h

theorem toInt_ofInt_of_inRange (h : InRange k) : (BitVec.ofInt 64 k).toInt = k := by
  obtain ⟨hlow, hhigh⟩ := h
  rw [BitVec.toInt_ofInt]
  exact Int.bmod_eq_of_le (by omega) (by omega)

/-- `v_int_of` undoes `v_int`. -/
theorem value_vInt (h : InRange k) : value (vInt (BitVec.ofInt 64 k)) = k := by
  have htag := tagged_of_toInt (toInt_ofInt_of_inRange h) h
  have hvalue := tagged_value (vIsInt_vInt (BitVec.ofInt 64 k))
  unfold Tagged at htag hvalue
  omega

end Words

section Agreement

variable {F : Foreign} {a b : Word}

theorem vIsFloat_of_int (h : vIsInt a = true) : vIsFloat a = false := by simp [vIsFloat, h]

theorem vIsStr_of_int (h : vIsInt a = true) : vIsStr a = false := by simp [vIsStr, h]

theorem InRange.bmod {k : ℤ} (h : InRange k) : k.bmod (2 ^ 64) = k := by
  obtain ⟨hlow, hhigh⟩ := h
  exact Int.bmod_eq_of_le (by omega) (by omega)

theorem vAdd_tagged (ha : vIsInt a = true) (hb : vIsInt b = true) (h : InRange (value a + value b)) :
    Tagged (vAdd F a b) (value a + value b) := by
  simp only [vAdd, vIsStr_of_int, vIsFloat_of_int, ha, hb, Bool.or_self, Bool.false_eq_true,
    if_false]
  exact tagged_of_toInt ((BitVec.toInt_add _ _).trans h.bmod) h

theorem vSub_tagged (ha : vIsInt a = true) (hb : vIsInt b = true) (h : InRange (value a - value b)) :
    Tagged (vSub F a b) (value a - value b) := by
  simp only [vSub, vIsFloat_of_int, ha, hb, Bool.or_self, Bool.false_eq_true, if_false]
  exact tagged_of_toInt (BitVec.toInt_sub.trans h.bmod) h

theorem vMul_tagged (ha : vIsInt a = true) (hb : vIsInt b = true) (h : InRange (value a * value b)) :
    Tagged (vMul F a b) (value a * value b) := by
  simp only [vMul, vIsFloat_of_int, ha, hb, Bool.or_self, Bool.false_eq_true, if_false]
  exact tagged_of_toInt ((BitVec.toInt_mul _ _).trans h.bmod) h

/-- The quotient is cut off towards zero, and is 0 for the divisor 0. -/
theorem vDiv_tagged (ha : vIsInt a = true) (hb : vIsInt b = true)
    (h : InRange ((value a).tdiv (value b))) : Tagged (vDiv F a b) ((value a).tdiv (value b)) := by
  simp only [vDiv, vIsFloat_of_int, ha, hb, Bool.or_self, Bool.false_eq_true, if_false]
  by_cases hd : vIntOf b = 0
  · have hzero : value b = 0 := by
      rw [value, hd]
      rfl
    rw [if_neg (not_not.mpr hd)]
    rw [hzero, Int.tdiv_zero] at h ⊢
    exact tagged_of_toInt rfl h
  · rw [if_pos hd]
    exact tagged_of_toInt ((BitVec.toInt_sdiv _ _).trans h.bmod) h

theorem vLt_eq (ha : vIsInt a = true) (hb : vIsInt b = true) :
    vLt F a b = vBool (value a < value b) := by
  simp only [vLt, vIsFloat_of_int, ha, hb, Bool.or_self, Bool.false_eq_true, if_false]
  rfl

theorem vLe_eq (ha : vIsInt a = true) (hb : vIsInt b = true) :
    vLe F a b = vBool (value a ≤ value b) := by
  simp only [vLe, vIsFloat_of_int, ha, hb, Bool.or_self, Bool.false_eq_true, if_false]
  rfl

theorem vEq_eq (ha : vIsInt a = true) (hb : vIsInt b = true) :
    vEq F a b = vBool (value a = value b) := by
  simp only [vEq, vIsStr_of_int, vIsFloat_of_int, ha, hb, Bool.or_self, Bool.and_self,
    Bool.false_eq_true, if_false, value, BitVec.toInt_inj]

theorem vNe_eq (ha : vIsInt a = true) (hb : vIsInt b = true) :
    vNe F a b = vBool (value a ≠ value b) := by
  rw [vNe, vEq_eq ha hb]
  by_cases h : value a = value b
  · rw [decide_eq_true h]
    simp [h]
    rfl
  · rw [decide_eq_false h]
    simp [h]
    rfl

/-- The operations agree with integer arithmetic on two tagged integers. -/
structure Agrees (F : Foreign) (a b : Word) : Prop where
  add : InRange (value a + value b) → Tagged (vAdd F a b) (value a + value b)
  sub : InRange (value a - value b) → Tagged (vSub F a b) (value a - value b)
  mul : InRange (value a * value b) → Tagged (vMul F a b) (value a * value b)
  div : InRange ((value a).tdiv (value b)) → Tagged (vDiv F a b) ((value a).tdiv (value b))
  lt : vLt F a b = vBool (value a < value b)
  le : vLe F a b = vBool (value a ≤ value b)
  eq : vEq F a b = vBool (value a = value b)
  ne : vNe F a b = vBool (value a ≠ value b)

theorem agrees (ha : vIsInt a = true) (hb : vIsInt b = true) : Agrees F a b where
  add := vAdd_tagged ha hb
  sub := vSub_tagged ha hb
  mul := vMul_tagged ha hb
  div := vDiv_tagged ha hb
  lt := vLt_eq ha hb
  le := vLe_eq ha hb
  eq := vEq_eq ha hb
  ne := vNe_eq ha hb

end Agreement

section Classes

/-- `v_is_int`, `v_is_float`, `v_is_list`, `v_is_str` and the test for nil. -/
def classes (w : Word) : List Bool := [vIsInt w, vIsFloat w, vIsList w, vIsStr w, decide (w = 0)]

/-- The word is a value of exactly one class. -/
def OneClass (w : Word) : Prop := (classes w).count true = 1

instance (w : Word) : Decidable (OneClass w) := inferInstanceAs (Decidable (_ = _))

/-- The bits that mark floats and lists are both set. -/
def TwoTags (w : Word) : Prop := (w >>> 60 &&& 1) ≠ 0 ∧ (w >>> 61 &&& 1) ≠ 0

/-- The classes as far as the tests decide them. -/
theorem count_classes : ∀ int float list nil : Bool,
    (nil = true → int = false ∧ float = false) → (int = true → float = false ∧ list = false) →
    (nil = true → list = false) →
    ([int, float, list, !int && !nil && !float && !list, nil].count true = 1 ↔
      ¬ (int = false ∧ float = true ∧ list = true)) := by decide

/-- Every word has one class, unless it is tagged as a float and as a list. -/
theorem oneClass_iff (w : Word) : OneClass w ↔ ¬ (vIsInt w = false ∧ TwoTags w) := by
  have hnil : decide (w = 0) = true → (vIsInt w = false ∧ vIsFloat w = false) ∧ vIsList w = false := by
    rw [decide_eq_true_eq]
    rintro rfl
    decide
  have hint : vIsInt w = true → vIsFloat w = false ∧ vIsList w = false := by
    intro h
    simp [vIsFloat, vIsList, h]
  have htags : (vIsInt w = false ∧ TwoTags w) ↔
      vIsInt w = false ∧ vIsFloat w = true ∧ vIsList w = true := by
    apply and_congr_right
    intro h
    simp [TwoTags, vIsFloat, vIsList, h]
  have hstr : vIsStr w = (!vIsInt w && !decide (w = 0) && !vIsFloat w && !vIsList w) := by
    rw [vIsStr, decide_not]
  rw [OneClass, classes, hstr, htags]
  exact count_classes _ _ _ _ (fun h => (hnil h).1) hint fun h => (hnil h).2

/-- A word that no operation builds is a float and a list. -/
theorem two_classes : ¬ OneClass (3 <<< 60) := by decide

/-- Tagged integers behave like integers, and every word that is not tagged twice has one class. -/
theorem tagged_values (F : Foreign) :
    (∀ k, InRange k → value (vInt (BitVec.ofInt 64 k)) = k) ∧
      (∀ a b, vIsInt a = true → vIsInt b = true → Agrees F a b) ∧
      (∀ w, OneClass w ↔ ¬ (vIsInt w = false ∧ TwoTags w)) ∧
      ∀ j k, InRange j → InRange k →
        ((vInt (BitVec.ofInt 64 j) = vInt (BitVec.ofInt 64 k) ↔ j = k) ∧
          vEq F (vInt (BitVec.ofInt 64 j)) (vInt (BitVec.ofInt 64 k)) = vBool (j = k)) := by
  refine ⟨fun k => value_vInt, fun a b => agrees, oneClass_iff, fun j k hj hk => ⟨⟨?_, ?_⟩, ?_⟩⟩
  · intro h
    rw [← value_vInt hj, h, value_vInt hk]
  · rintro rfl
    rfl
  · rw [vEq_eq (vIsInt_vInt _) (vIsInt_vInt _), value_vInt hj, value_vInt hk]

end Classes

end XinuRpi4.Runtime
