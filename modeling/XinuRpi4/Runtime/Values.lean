import Mathlib.Tactic

/-!
# The tagged words of the value runtime in `cc/cc.c`

A `value_t` is a 64-bit word. The low bit marks an integer; otherwise bit 60 marks a
boxed float and bit 61 a list, and the low 48 bits are the address.
-/

namespace XinuRpi4.Runtime

/-- A `long`. -/
abbrev Word := BitVec 64

/-- Conversion to `int`. -/
def int32 (x : ℤ) : ℤ := x.bmod (2 ^ 32)

/-- `V_LIST_TAG`. -/
def vListTag : Word := 1 <<< 61

/-- `V_PTR_MASK`. -/
def vPtrMask : Word := (1 <<< 48) - 1

/-- `v_int`. -/
def vInt (n : Word) : Word := n <<< 1 ||| 1

/-- `v_is_int`. -/
def vIsInt (w : Word) : Bool := w &&& 1 ≠ 0

/-- `v_is_float`. -/
def vIsFloat (w : Word) : Bool := !vIsInt w && (w >>> 60 &&& 1) ≠ 0

/-- `v_is_list`. -/
def vIsList (w : Word) : Bool := !vIsInt w && (w >>> 61 &&& 1) ≠ 0

/-- `v_int_of`. -/
def vIntOf (w : Word) : Word := if vIsInt w then w.sshiftRight 1 else 0

/-- `v_list_ptr`. -/
def vListPtr (w : Word) : Word := w &&& vPtrMask

theorem vIsInt_iff (w : Word) : vIsInt w = true ↔ w.toNat % 2 = 1 := by
  have hand : (w &&& 1).toNat = w.toNat % 2 := by
    rw [BitVec.toNat_and]
    exact Nat.and_one_is_mod _
  have hne : (w &&& 1 ≠ 0) ↔ w.toNat % 2 ≠ 0 := by
    rw [← hand, ne_eq, ne_eq, ← BitVec.toNat_inj]
    rfl
  simp only [vIsInt, decide_eq_true_eq, hne]
  omega

theorem bit_iff (w : Word) (i : ℕ) : (w >>> i &&& 1 ≠ 0) ↔ w.toNat / 2 ^ i % 2 = 1 := by
  have hand : (w >>> i &&& 1).toNat = w.toNat / 2 ^ i % 2 := by
    rw [BitVec.toNat_and, BitVec.toNat_ushiftRight, Nat.shiftRight_eq_div_pow]
    exact Nat.and_one_is_mod _
  have hne : (w >>> i &&& 1 ≠ 0) ↔ w.toNat / 2 ^ i % 2 ≠ 0 := by
    rw [← hand, ne_eq, ne_eq, ← BitVec.toNat_inj]
    rfl
  rw [hne]
  omega

theorem vIsList_iff (w : Word) :
    vIsList w = true ↔ w.toNat % 2 = 0 ∧ w.toNat / 2 ^ 61 % 2 = 1 := by
  unfold vIsList
  rw [Bool.and_eq_true, Bool.not_eq_true', decide_eq_true_eq, bit_iff, ← Bool.not_eq_true,
    vIsInt_iff]
  omega

/-- An address below `2 ^ 48` with the list tag. -/
theorem tagged_toNat {a : ℕ} (ha : a < 2 ^ 48) :
    (BitVec.ofNat 64 a ||| vListTag).toNat = a + 2 ^ 61 := by
  have htag : vListTag.toNat = 2 ^ 61 := by decide
  have hor := Nat.two_pow_add_eq_or_of_lt (i := 61) (b := a) (by omega) 1
  rw [BitVec.toNat_or, BitVec.toNat_ofNat, htag, Nat.mod_eq_of_lt (by omega), Nat.or_comm]
  rw [Nat.mul_one] at hor
  rw [← hor, Nat.add_comm]

theorem vIsList_tagged {a : ℕ} (ha : a < 2 ^ 48) (h2 : a % 2 = 0) :
    vIsList (BitVec.ofNat 64 a ||| vListTag) = true := by
  rw [vIsList_iff, tagged_toNat ha]
  omega

theorem vListPtr_tagged {a : ℕ} (ha : a < 2 ^ 48) :
    vListPtr (BitVec.ofNat 64 a ||| vListTag) = BitVec.ofNat 64 a := by
  have hmask : vPtrMask.toNat = 2 ^ 48 - 1 := by decide
  apply BitVec.eq_of_toNat_eq
  rw [vListPtr, BitVec.toNat_and, tagged_toNat ha, hmask, Nat.and_two_pow_sub_one_eq_mod,
    BitVec.toNat_ofNat]
  omega

/-- The answer of a call that finds no room is no list. -/
theorem not_vIsList_vInt_zero : vIsList (vInt 0) = false := by decide

end XinuRpi4.Runtime
