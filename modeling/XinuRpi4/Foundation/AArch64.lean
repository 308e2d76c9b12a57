import XinuRpi4.Foundation.ByteWords

/-!
# A few instructions of AArch64

Straight-line code over the general registers, the stack pointer and byte memory. Register
31 is the stack pointer in an instruction with an immediate and in an address, and zero
elsewhere. Stores are logged with their length.
-/

namespace XinuRpi4.Foundation.AArch64

/-- An address or the content of a register. -/
abbrev Reg64 : Type := BitVec 64

inductive Instr
  | addImm (d n imm : ℕ)
  | subImm (d n imm : ℕ)
  | addReg (d n m : ℕ)
  | subReg (d n m : ℕ)
  | movz (d imm hw : ℕ)
  | movk (d imm hw : ℕ)
  | ldr (t n imm : ℕ)
  | str (t n imm : ℕ)
  | ldrb (t n imm : ℕ)
  | strb (t n imm : ℕ)
  /-- `str xt, [xn, #imm]!` -/
  | strPre (t n : ℕ) (imm : ℤ)
  /-- `ldr xt, [xn], #imm` -/
  | ldrPost (t n : ℕ) (imm : ℤ)
  /-- `stp xt, xu, [xn, #imm]!` -/
  | stpPre (t u n : ℕ) (imm : ℤ)
deriving DecidableEq

section Decoding

/-- The field of `len` bits from bit `lo` on. -/
def field (w lo len : ℕ) : ℕ := w / 2 ^ lo % 2 ^ len

/-- A field as a signed number. -/
def signed (len v : ℕ) : ℤ := if v < 2 ^ (len - 1) then v else v - 2 ^ len

/-- The instruction of a word. -/
def decodeNat (w : ℕ) : Option Instr :=
  let d := field w 0 5
  let n := field w 5 5
  let imm := field w 10 12
  if w / 2 ^ 22 = 0x244 then some (.addImm d n imm)
  else if w / 2 ^ 22 = 0x344 then some (.subImm d n imm)
  else if w / 2 ^ 21 = 0x458 ∧ field w 10 6 = 0 then some (.addReg d n (field w 16 5))
  else if w / 2 ^ 21 = 0x658 ∧ field w 10 6 = 0 then some (.subReg d n (field w 16 5))
  else if w / 2 ^ 23 = 0x1A5 then some (.movz d (field w 5 16) (field w 21 2))
  else if w / 2 ^ 23 = 0x1E5 then some (.movk d (field w 5 16) (field w 21 2))
  else if w / 2 ^ 22 = 0x3E5 then some (.ldr d n imm)
  else if w / 2 ^ 22 = 0x3E4 then some (.str d n imm)
  else if w / 2 ^ 22 = 0xE5 then some (.ldrb d n imm)
  else if w / 2 ^ 22 = 0xE4 then some (.strb d n imm)
  else if w / 2 ^ 21 = 0x7C0 ∧ field w 10 2 = 3 then
    some (.strPre d n (signed 9 (field w 12 9)))
  else if w / 2 ^ 21 = 0x7C2 ∧ field w 10 2 = 1 then
    some (.ldrPost d n (signed 9 (field w 12 9)))
  else if w / 2 ^ 22 = 0x2A6 then
    some (.stpPre d (field w 10 5) n (8 * signed 7 (field w 15 7)))
  else none

def decode (w : BitVec 32) : Option Instr := decodeNat w.toNat

/-- Words whose bits do not meet are added by `|||`. -/
theorem toNat_or_of_lt {len : ℕ} {a b : BitVec len} {k : ℕ} (ha : 2 ^ k ∣ a.toNat)
    (hb : b.toNat < 2 ^ k) : (a ||| b).toNat = a.toNat + b.toNat := by
  obtain ⟨c, hc⟩ := ha
  rw [BitVec.toNat_or, hc, Nat.two_pow_add_eq_or_of_lt hb]

end Decoding

/-- Registers, stack pointer and memory. -/
structure State where
  x : ℕ → Reg64
  sp : Reg64
  mem : ℕ → UInt8
  /-- ghost: address and length of every store, the last one first -/
  stores : List (ℕ × ℕ)

namespace State

variable (s : State)

/-- Register `n`, where 31 is zero. -/
def regZ (n : ℕ) : Reg64 := if n = 31 then 0 else s.x n

/-- Register `n`, where 31 is the stack pointer. -/
def regSp (n : ℕ) : Reg64 := if n = 31 then s.sp else s.x n

def setZ (n : ℕ) (v : Reg64) : State := if n = 31 then s else { s with x := Function.update s.x n v }

def setSp (n : ℕ) (v : Reg64) : State :=
  if n = 31 then { s with sp := v } else { s with x := Function.update s.x n v }

/-- The `len` bytes at an address, as a register. -/
def load (len : ℕ) (a : Reg64) : Reg64 := BitVec.ofNat 64 (loadWord s.mem len a.toNat)

/-- The `len` low bytes of a register are stored. -/
def store (len : ℕ) (a v : Reg64) : State :=
  { s with mem := storeWord s.mem len a.toNat v.toNat, stores := (a.toNat, len) :: s.stores }

/-- A constant as a register. -/
abbrev imm64 (imm : ℤ) : Reg64 := BitVec.ofInt 64 imm

@[simp] theorem add_imm64_zero (a : Reg64) : a + imm64 0 = a := BitVec.add_zero a

theorem add_imm64_add (a : Reg64) (m n : ℤ) : a + imm64 m + imm64 n = a + imm64 (m + n) := by
  have hadd : imm64 (m + n) = imm64 m + imm64 n := BitVec.ofInt_add m n
  rw [hadd, BitVec.add_assoc]

/-- Halfword `hw` of a register is replaced. -/
def insertHalf (v : Reg64) (imm hw : ℕ) : Reg64 :=
  BitVec.ofNat 64 (v.toNat % 2 ^ (16 * hw) + imm * 2 ^ (16 * hw) +
    v.toNat / 2 ^ (16 * hw + 16) * 2 ^ (16 * hw + 16))

/-- An instruction is executed. -/
def step : Instr → State
  | .addImm d n imm => s.setSp d (s.regSp n + imm64 imm)
  | .subImm d n imm => s.setSp d (s.regSp n - imm64 imm)
  | .addReg d n m => s.setZ d (s.regZ n + s.regZ m)
  | .subReg d n m => s.setZ d (s.regZ n - s.regZ m)
  | .movz d imm hw => s.setZ d (BitVec.ofNat 64 (imm * 2 ^ (16 * hw)))
  | .movk d imm hw => s.setZ d (insertHalf (s.regZ d) imm hw)
  | .ldr t n imm => s.setZ t (s.load 8 (s.regSp n + imm64 (8 * imm)))
  | .str t n imm => s.store 8 (s.regSp n + imm64 (8 * imm)) (s.regZ t)
  | .ldrb t n imm => s.setZ t (s.load 1 (s.regSp n + imm64 imm))
  | .strb t n imm => s.store 1 (s.regSp n + imm64 imm) (s.regZ t)
  | .strPre t n imm =>
    let a := s.regSp n + imm64 imm
    (s.store 8 a (s.regZ t)).setSp n a
  | .ldrPost t n imm =>
    let a := s.regSp n
    (s.setZ t (s.load 8 a)).setSp n (a + imm64 imm)
  | .stpPre t u n imm =>
    let a := s.regSp n + imm64 imm
    ((s.store 8 a (s.regZ t)).store 8 (a + imm64 8) (s.regZ u)).setSp n a

/-- Words are executed one after the other; none of them may be another instruction. -/
def run : State → List (BitVec 32) → Option State
  | s, [] => some s
  | s, w :: ws => (decode w).bind fun i => run (s.step i) ws

variable {s}

theorem run_cons {w : BitVec 32} {i : Instr} (h : decode w = some i) (ws : List (BitVec 32)) :
    s.run (w :: ws) = (s.step i).run ws := by
  rw [run, h, Option.bind_some]

theorem run_append (ws ws' : List (BitVec 32)) :
    s.run (ws ++ ws') = (s.run ws).bind fun t => t.run ws' := by
  induction ws generalizing s with
  | nil => rfl
  | cons w ws ih =>
    rw [List.cons_append, run, run, Option.bind_assoc]
    exact congrArg _ (funext fun i => ih)

theorem run_append_of_eq {ws : List (BitVec 32)} {t : State} (h : s.run ws = some t)
    (ws' : List (BitVec 32)) : s.run (ws ++ ws') = t.run ws' := by
  rw [run_append, h, Option.bind_some]

section Registers

variable {n m : ℕ} {v : Reg64}

theorem regZ_of_ne (h : n ≠ 31) : s.regZ n = s.x n := if_neg h

theorem regSp_of_ne (h : n ≠ 31) : s.regSp n = s.x n := if_neg h

@[simp] theorem regZ_31 : s.regZ 31 = 0 := rfl

@[simp] theorem regSp_31 : s.regSp 31 = s.sp := rfl

@[simp] theorem setZ_31 : s.setZ 31 v = s := rfl

@[simp] theorem setSp_31 : s.setSp 31 v = { s with sp := v } := rfl

theorem setZ_of_ne (h : n ≠ 31) : s.setZ n v = { s with x := Function.update s.x n v } := if_neg h

theorem setSp_of_ne (h : n ≠ 31) : s.setSp n v = { s with x := Function.update s.x n v } := if_neg h

end Registers

section Stores

variable {len len' : ℕ} {a b v : Reg64}

theorem load_store_self (h : v.toNat < 256 ^ len) : (s.store len a v).load len a = v := by
  rw [load, store, loadWord_storeWord_self h, BitVec.ofNat_toNat, BitVec.setWidth_eq]

end Stores

section Constants

/-- A constant is put together from its halfwords. -/
theorem insertHalf_halves (v : Reg64) :
    insertHalf (insertHalf (insertHalf (BitVec.ofNat 64 (v.toNat % 2 ^ 16))
      (v.toNat / 2 ^ 16 % 2 ^ 16) 1) (v.toNat / 2 ^ 32 % 2 ^ 16) 2)
      (v.toNat / 2 ^ 48 % 2 ^ 16) 3 = v := by
  have hv := v.isLt
  apply BitVec.eq_of_toNat_eq
  simp only [insertHalf, BitVec.toNat_ofNat]
  omega

end Constants

end State

end XinuRpi4.Foundation.AArch64
