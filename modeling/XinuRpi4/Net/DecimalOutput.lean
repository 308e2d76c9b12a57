import XinuRpi4.Runtime.Rendering

/-!
# Decimal numbers in replies

`s_putdec` and `puts_u32_dec` collect the digits, the last one first, in an array on the stack
and put them out from behind. The array of the first holds 16 digits, the one of the second 12.
-/

namespace XinuRpi4.Net

open XinuRpi4.Runtime

/-- A value of `long` after an overflowing operation. -/
def wrapLong (n : ℤ) : ℤ := (BitVec.ofInt 64 n).toInt

/-- `(char)('0' + v % 10)` -/
def digitChar (v : ℤ) : UInt8 := UInt8.ofInt (48 + v.tmod 10)

/-- `while (v) { t[n++] = ...; v /= 10; }`, with room for so many more digits; a write behind
the array has no result. -/
def scratchDigits : ℕ → ℤ → List UInt8 → Option (List UInt8)
  | 0, v, t => if v = 0 then some t else none
  | room + 1, v, t =>
    if v = 0 then some t else scratchDigits room (v.tdiv 10) (t ++ [digitChar v])

/-- The digits of `v` behind what is there. -/
def putScratch (scratch : ℕ) (out : List UInt8) (v : ℤ) : Option (List UInt8) :=
  if v = 0 then some (out ++ [48])
  else do
    let t ← scratchDigits scratch v []
    return out ++ t.reverse

def sPutdec (b : List UInt8) (v : Int64) : Option (List UInt8) :=
  if v.toInt < 0 then putScratch 16 (b ++ [45]) (wrapLong (-v.toInt)) else putScratch 16 b v.toInt

/-- With what has been put out before. -/
def putsU32Dec (out : List UInt8) (v : UInt64) : Option (List UInt8) := putScratch 12 out v.toNat

variable {room scratch u : ℕ} {out t : List UInt8}

theorem digitChar_eq (u : ℕ) : digitChar u = 48 + UInt8.ofNat (u % 10) := by
  have hlt : u % 10 < 10 := Nat.mod_lt _ (by decide)
  have hmod : (u : ℤ).tmod 10 = ((u % 10 : ℕ) : ℤ) := (Int.ofNat_tmod u 10).symm
  rw [digitChar, hmod]
  generalize u % 10 = d at hlt
  interval_cases d <;> rfl

/-- The digits of a number fit if there are no more than the array holds. -/
theorem scratchDigits_eq (room u : ℕ) (t : List UInt8) : scratchDigits room u t =
    if u < 10 ^ room then some (t ++ (Nat.digits 10 u).map fun d => 48 + UInt8.ofNat d) else none := by
  induction room generalizing u t with
  | zero =>
    rw [scratchDigits, pow_zero]
    by_cases hu : u = 0
    · simp [hu]
    · rw [if_neg (by exact_mod_cast hu), if_neg (by omega)]
  | succ room ih =>
    rw [scratchDigits]
    by_cases hu : u = 0
    · simp [hu]
    · have hdiv : (u : ℤ).tdiv 10 = ((u / 10 : ℕ) : ℤ) := (Int.ofNat_tdiv u 10).symm
      have hfits : u / 10 < 10 ^ room ↔ u < 10 ^ (room + 1) := by
        rw [Nat.div_lt_iff_lt_mul (by decide), pow_succ]
      have hdigits : Nat.digits 10 u = u % 10 :: Nat.digits 10 (u / 10) :=
        Nat.digits_def' (by decide) (Nat.pos_of_ne_zero hu)
      rw [if_neg (by exact_mod_cast hu), hdiv, ih, digitChar_eq, hdigits]
      simp only [hfits, List.map_cons, List.append_assoc, List.singleton_append]

/-- A number that is too long, of either sign. -/
theorem scratchDigits_none {v : ℤ} (h : 10 ^ room ≤ v.natAbs) : scratchDigits room v t = none := by
  induction room generalizing v t with
  | zero =>
    have hv : v ≠ 0 := by
      rintro rfl
      simp at h
    rw [scratchDigits, if_neg hv]
  | succ room ih =>
    have hpos : 0 < 10 ^ (room + 1) := Nat.pow_pos (by decide)
    have hv : v ≠ 0 := by
      rintro rfl
      simp at h
    rw [scratchDigits, if_neg hv]
    refine ih ?_
    have hdiv : (v.tdiv 10).natAbs = v.natAbs / 10 := Int.natAbs_tdiv v 10
    rw [hdiv, Nat.le_div_iff_mul_le (by decide), ← pow_succ]
    exact h

theorem putScratch_eq (scratch u : ℕ) (out : List UInt8) : putScratch scratch out u =
    if u < 10 ^ scratch then some (out ++ natText u) else none := by
  rw [putScratch, natText]
  by_cases hu : u = 0
  · simp [hu]
  · rw [if_neg (by exact_mod_cast hu), if_neg hu, scratchDigits_eq]
    by_cases hfits : u < 10 ^ scratch
    · simp [hfits]
    · simp [hfits]

theorem putScratch_none {v : ℤ} (h : 10 ^ scratch ≤ v.natAbs) : putScratch scratch out v = none := by
  have hpos : 0 < 10 ^ scratch := Nat.pow_pos (by decide)
  have hv : v ≠ 0 := by
    rintro rfl
    simp at h
  rw [putScratch, if_neg hv, scratchDigits_none h]
  rfl

theorem putScratch_iff : putScratch scratch out u = some (out ++ natText u) ↔ u < 10 ^ scratch := by
  rw [putScratch_eq]
  split_ifs with hfits <;> simp [hfits]

theorem wrapLong_neg {v : Int64} (h : v.toInt.natAbs < 10 ^ 16) (hneg : v.toInt < 0) :
    wrapLong (-v.toInt) = (v.toInt.natAbs : ℤ) := by
  have habs : -v.toInt = (v.toInt.natAbs : ℤ) := by omega
  rw [wrapLong, BitVec.toInt_ofInt, Int.bmod_eq_of_le (by norm_num; omega) (by norm_num; omega), habs]

/-- The negation of a negative `long` has its digits, also where it overflows. -/
theorem natAbs_wrapLong_neg (v : Int64) (hneg : v.toInt < 0) :
    (wrapLong (-v.toInt)).natAbs = v.toInt.natAbs := by
  have hlow := v.le_toInt
  by_cases hmin : v.toInt = -2 ^ 63
  · rw [hmin]
    decide
  · have habs : -v.toInt = (v.toInt.natAbs : ℤ) := by omega
    have hwrap : wrapLong (-v.toInt) = -v.toInt := by
      rw [wrapLong, BitVec.toInt_ofInt]
      exact Int.bmod_eq_of_le (by norm_num; omega) (by norm_num; omega)
    rw [hwrap, Int.natAbs_neg]

theorem sPutdec_iff (b : List UInt8) (v : Int64) :
    sPutdec b v = some (b ++ decimalText v.toInt) ↔ v.toInt.natAbs < 10 ^ 16 := by
  rw [sPutdec, decimalText]
  by_cases hneg : v.toInt < 0
  · rw [if_pos hneg, if_pos hneg]
    by_cases hfits : v.toInt.natAbs < 10 ^ 16
    · have hsign : b ++ 45 :: natText v.toInt.natAbs = (b ++ [45]) ++ natText v.toInt.natAbs :=
        List.append_cons ..
      rw [wrapLong_neg hfits hneg, hsign]
      exact putScratch_iff
    · have hlong : 10 ^ 16 ≤ (wrapLong (-v.toInt)).natAbs := by
        rw [natAbs_wrapLong_neg v hneg]
        exact not_lt.mp hfits
      rw [putScratch_none hlong]
      exact iff_of_false (fun h => by cases h) hfits
  · have habs : v.toInt = (v.toInt.natAbs : ℤ) := by omega
    rw [if_neg hneg, if_neg hneg]
    conv_lhs => rw [habs, Int.natAbs_natCast]
    exact putScratch_iff

theorem putsU32Dec_iff (out : List UInt8) (v : UInt64) :
    putsU32Dec out v = some (out ++ decimalText v.toNat) ↔ v.toNat < 10 ^ 12 := by
  have hpos : ¬ (v.toNat : ℤ) < 0 := not_lt.mpr (Int.natCast_nonneg _)
  rw [decimalText, if_neg hpos, Int.natAbs_natCast]
  exact putScratch_iff

/-- Both write the decimal number, and only where they may, if and only if its digits fit. -/
theorem decimal_output_iff (b out : List UInt8) (v : Int64) (u : UInt64) :
    (sPutdec b v = some (b ++ decimalText v.toInt) ↔ v.toInt.natAbs < 10 ^ 16) ∧
    (putsU32Dec out u = some (out ++ decimalText u.toNat) ↔ u.toNat < 10 ^ 12) :=
  ⟨sPutdec_iff b v, putsU32Dec_iff out u⟩

/-- The least value of a `long` -/
theorem least_long_unwritten : ¬ ∀ (b : List UInt8) (v : Int64),
    sPutdec b v = some (b ++ decimalText v.toInt) := by
  intro hall
  have hnone : sPutdec [] Int64.minValue = none := by decide
  have hsome := hall [] Int64.minValue
  rw [hnone] at hsome
  cases hsome

end XinuRpi4.Net
