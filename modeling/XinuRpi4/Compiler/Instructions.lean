import XinuRpi4.Foundation.AArch64
import XinuRpi4.Compiler.Codegen

/-!
# What the emitted words are

Each encoder of `cc/codegen.c` gives the word of the instruction that its name says, for
registers and immediates that fit their fields.
-/

namespace XinuRpi4.Compiler

open Foundation.AArch64

section Fields

variable {d n m : ℕ}

theorem reg_toNat (hd : d < 32) : (reg d).toNat = d := by
  rw [reg, BitVec.toNat_ofNat]
  omega

theorem shift_toNat {x : BitVec 32} {k : ℕ} (h : x.toNat * 2 ^ k < 2 ^ 32) :
    (x <<< k).toNat = x.toNat * 2 ^ k := by
  rw [BitVec.toNat_shiftLeft, Nat.shiftLeft_eq, Nat.mod_eq_of_lt h]

/-- An immediate is cut off to its 12 bits. -/
theorem imm12_toNat (imm : ℤ) : (imm12 imm).toNat = (imm % 4096).toNat := by
  have hmask : (0xFFF : BitVec 32).toNat = 2 ^ 12 - 1 := rfl
  rw [imm12, BitVec.toNat_and, hmask, Nat.and_two_pow_sub_one_eq_mod, BitVec.toNat_ofInt]
  omega

theorem half_lt (v : Word) (i : ℕ) : (half v i).toNat < 2 ^ 16 := by
  have hmask : (0xFFFF : BitVec 64).toNat = 2 ^ 16 - 1 := rfl
  rw [half, BitVec.toNat_setWidth, BitVec.toNat_and, hmask, Nat.and_two_pow_sub_one_eq_mod]
  omega

theorem half_toNat (v : Word) (i : ℕ) : (half v i).toNat = v.toNat / 2 ^ (16 * i) % 2 ^ 16 := by
  have hmask : (0xFFFF : BitVec 64).toNat = 2 ^ 16 - 1 := rfl
  rw [half, BitVec.toNat_setWidth, BitVec.toNat_and, hmask, Nat.and_two_pow_sub_one_eq_mod,
    BitVec.toNat_ushiftRight, Nat.shiftRight_eq_div_pow]
  omega

/-- The last two fields of every word. -/
theorem low_toNat {w : BitVec 32} (hw : 2 ^ 10 ∣ w.toNat) (hn : n < 32) (hd : d < 32) :
    (w ||| reg n <<< 5 ||| reg d).toNat = w.toNat + n * 32 + d := by
  have hshift : (reg n <<< 5).toNat = n * 2 ^ 5 := by
    rw [shift_toNat (by rw [reg_toNat hn]; omega), reg_toNat hn]
  have hleft : (w ||| reg n <<< 5).toNat = w.toNat + n * 32 := by
    rw [toNat_or_of_lt hw (by omega), hshift]
    omega
  rw [toNat_or_of_lt (k := 5) (by omega) (by rw [reg_toNat hd]; omega), hleft, reg_toNat hd]

/-- A word with an immediate. -/
theorem imm_toNat {w : BitVec 32} (hw : 2 ^ 22 ∣ w.toNat) (imm : ℤ) (hn : n < 32) (hd : d < 32) :
    (w ||| imm12 imm <<< 10 ||| reg n <<< 5 ||| reg d).toNat =
      w.toNat + (imm % 4096).toNat * 1024 + n * 32 + d := by
  have himm := imm12_toNat imm
  have hshift : (imm12 imm <<< 10).toNat = (imm % 4096).toNat * 2 ^ 10 := by
    rw [shift_toNat (by omega), himm]
  have hleft : (w ||| imm12 imm <<< 10).toNat = w.toNat + (imm % 4096).toNat * 1024 := by
    rw [toNat_or_of_lt hw (by omega), hshift]
    omega
  rw [low_toNat (by omega) hn hd, hleft]

/-- A word with three registers. -/
theorem rrr_toNat {w : BitVec 32} (hw : 2 ^ 21 ∣ w.toNat) (hm : m < 32) (hn : n < 32) (hd : d < 32) :
    (w ||| reg m <<< 16 ||| reg n <<< 5 ||| reg d).toNat =
      w.toNat + m * 65536 + n * 32 + d := by
  have hshift : (reg m <<< 16).toNat = m * 2 ^ 16 := by
    rw [shift_toNat (by rw [reg_toNat hm]; omega), reg_toNat hm]
  have hleft : (w ||| reg m <<< 16).toNat = w.toNat + m * 65536 := by
    rw [toNat_or_of_lt hw (by omega), hshift]
    omega
  rw [low_toNat (by omega) hn hd, hleft]

end Fields

section Decoding

variable {d n m t : ℕ}

theorem decode_addImm (hd : d < 32) (hn : n < 32) (imm : ℤ) :
    decode (addImm d n imm) = some (.addImm d n (imm % 4096).toNat) := by
  have hlt : (imm % 4096).toNat < 4096 := by omega
  rw [decode, addImm, imm_toNat (by decide) imm hn hd]
  generalize (imm % 4096).toNat = i at hlt
  change decodeNat (0x91000000 + i * 1024 + n * 32 + d) = _
  rw [decodeNat, if_pos (by omega)]
  simp only [field, Option.some.injEq, Instr.addImm.injEq]
  omega

theorem decode_subImm (hd : d < 32) (hn : n < 32) (imm : ℤ) :
    decode (subImm d n imm) = some (.subImm d n (imm % 4096).toNat) := by
  have hlt : (imm % 4096).toNat < 4096 := by omega
  rw [decode, subImm, imm_toNat (by decide) imm hn hd]
  generalize (imm % 4096).toNat = i at hlt
  change decodeNat (0xD1000000 + i * 1024 + n * 32 + d) = _
  rw [decodeNat, if_neg (by omega), if_pos (by omega)]
  simp only [field, Option.some.injEq, Instr.subImm.injEq]
  omega

theorem decode_subRrr (hd : d < 32) (hn : n < 32) (hm : m < 32) :
    decode (subRrr d n m) = some (.subReg d n m) := by
  rw [decode, subRrr, rrr_toNat (by decide) hm hn hd]
  change decodeNat (0xCB000000 + m * 65536 + n * 32 + d) = _
  rw [decodeNat, if_neg (by omega), if_neg (by omega), if_neg (by omega),
    if_pos (by simp only [field]; omega)]
  simp only [field, Option.some.injEq, Instr.subReg.injEq]
  omega

/-- The stack pointer is no register of the subtraction that is emitted for large frames. -/
theorem decode_subSp : decode (subRrr SP SP X9) = some (.subReg 31 31 9) :=
  decode_subRrr (by decide) (by decide) (by decide)

theorem decode_movz (hd : d < 32) (v : Word) :
    decode (movz d v) = some (.movz d (v.toNat % 2 ^ 16) 0) := by
  have hlt := half_lt v 0
  have hhalf : (half v 0).toNat = v.toNat % 2 ^ 16 := by
    rw [half_toNat, Nat.mul_zero, pow_zero, Nat.div_one]
  have hshift : (half v 0 <<< 5).toNat = (half v 0).toNat * 2 ^ 5 := shift_toNat (by omega)
  have hbase : (0xD2800000#32 ||| half v 0 <<< 5).toNat =
      0xD2800000 + (half v 0).toNat * 2 ^ 5 := by
    rw [toNat_or_of_lt (k := 21) (by decide) (by omega), hshift]
    rfl
  have hword : (movz d v).toNat = 0xD2800000 + (half v 0).toNat * 32 + d := by
    rw [movz, toNat_or_of_lt (k := 5) (by omega) (by rw [reg_toNat hd]; omega), hbase, reg_toNat hd]
    omega
  rw [decode, hword, ← hhalf]
  generalize (half v 0).toNat = h at hlt
  rw [decodeNat, if_neg (by omega), if_neg (by omega), if_neg (by omega), if_neg (by omega),
    if_pos (by omega)]
  simp only [field, Option.some.injEq, Instr.movz.injEq]
  omega

theorem decode_movk (hd : d < 32) {i : ℕ} (hi : i < 4) (v : Word) :
    decode (movk i d v) = some (.movk d (v.toNat / 2 ^ (16 * i) % 2 ^ 16) i) := by
  have hlt := half_lt v i
  have hi' : (BitVec.ofNat 32 i).toNat = i := by
    rw [BitVec.toNat_ofNat]
    omega
  have hhw : (BitVec.ofNat 32 i <<< 21).toNat = i * 2 ^ 21 := by
    rw [shift_toNat (by omega), hi']
  have hshift : (half v i <<< 5).toNat = (half v i).toNat * 2 ^ 5 := shift_toNat (by omega)
  have hbase : (0xF2800000#32 ||| BitVec.ofNat 32 i <<< 21).toNat =
      0xF2800000 + i * 2 ^ 21 := by
    rw [toNat_or_of_lt (k := 23) (by decide) (by omega), hhw]
    rfl
  have hmid : (0xF2800000#32 ||| BitVec.ofNat 32 i <<< 21 ||| half v i <<< 5).toNat =
      0xF2800000 + i * 2 ^ 21 + (half v i).toNat * 2 ^ 5 := by
    rw [toNat_or_of_lt (k := 21) (by omega) (by omega), hbase, hshift]
  have hword : (movk i d v).toNat = 0xF2800000 + i * 2097152 + (half v i).toNat * 32 + d := by
    rw [movk, toNat_or_of_lt (k := 5) (by omega) (by rw [reg_toNat hd]; omega), hmid, reg_toNat hd]
    omega
  rw [decode, hword, ← half_toNat]
  generalize (half v i).toNat = h at hlt
  rw [decodeNat, if_neg (by omega), if_neg (by omega), if_neg (by omega), if_neg (by omega),
    if_neg (by omega), if_pos (by omega)]
  simp only [field, Option.some.injEq, Instr.movk.injEq]
  omega

theorem decode_ldr (ht : t < 32) (hn : n < 32) : decode (ldrWord t n) = some (.ldr t n 0) := by
  rw [decode, ldrWord, low_toNat (by decide) hn ht]
  change decodeNat (0xF9400000 + n * 32 + t) = _
  rw [decodeNat, if_neg (by omega), if_neg (by omega), if_neg (by omega), if_neg (by omega),
    if_neg (by omega), if_neg (by omega), if_pos (by omega)]
  simp only [field, Option.some.injEq, Instr.ldr.injEq]
  omega

theorem decode_str (ht : t < 32) (hn : n < 32) : decode (strWord t n) = some (.str t n 0) := by
  rw [decode, strWord, low_toNat (by decide) hn ht]
  change decodeNat (0xF9000000 + n * 32 + t) = _
  rw [decodeNat, if_neg (by omega), if_neg (by omega), if_neg (by omega), if_neg (by omega),
    if_neg (by omega), if_neg (by omega), if_neg (by omega), if_pos (by omega)]
  simp only [field, Option.some.injEq, Instr.str.injEq]
  omega

theorem decode_ldrb (ht : t < 32) (hn : n < 32) : decode (ldrbWord t n) = some (.ldrb t n 0) := by
  rw [decode, ldrbWord, low_toNat (by decide) hn ht]
  change decodeNat (0x39400000 + n * 32 + t) = _
  rw [decodeNat, if_neg (by omega), if_neg (by omega), if_neg (by omega), if_neg (by omega),
    if_neg (by omega), if_neg (by omega), if_neg (by omega), if_neg (by omega), if_pos (by omega)]
  simp only [field, Option.some.injEq, Instr.ldrb.injEq]
  omega

theorem decode_strb (ht : t < 32) (hn : n < 32) : decode (strbWord t n) = some (.strb t n 0) := by
  rw [decode, strbWord, low_toNat (by decide) hn ht]
  change decodeNat (0x39000000 + n * 32 + t) = _
  rw [decodeNat, if_neg (by omega), if_neg (by omega), if_neg (by omega), if_neg (by omega),
    if_neg (by omega), if_neg (by omega), if_neg (by omega), if_neg (by omega), if_neg (by omega),
    if_pos (by omega)]
  simp only [field, Option.some.injEq, Instr.strb.injEq]
  omega

theorem decode_prologueStp : decode prologueStp = some (.stpPre 29 30 31 (-16)) := by decide

theorem decode_movFpSp : decode movFpSp = some (.addImm 29 31 0) := by decide

theorem decode_push : decode 0xF81F0FE0 = some (.strPre 0 31 (-16)) := by decide

theorem decode_pop : decode (0xF84107E0#32 ||| reg 1) = some (.ldrPost 1 31 16) := by decide

end Decoding

end XinuRpi4.Compiler
