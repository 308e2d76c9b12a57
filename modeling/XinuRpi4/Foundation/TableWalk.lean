import Mathlib.Tactic

/-!
# Translation by page tables

Stage 1 of the AArch64 translation with 4 KiB granule and 39-bit addresses: three levels
of 512 descriptors. A descriptor is an address with attributes in the bits beside it. The
tables are read from memory, so that what a table says is what was written there.
-/

namespace XinuRpi4.Foundation

/-- The descriptor with an index of the table at an address. -/
abbrev TableMemory := ℕ → ℕ → BitVec 64

/-- A table is written. -/
def writeTable (mem : TableMemory) (base : ℕ) (entries : ℕ → BitVec 64) : TableMemory :=
  Function.update mem base entries

/-- What a translation gives, with the permissions at EL1. -/
structure Mapping where
  pa : ℕ
  writable : Bool
  executable : Bool
  deriving DecidableEq

def addressMask : BitVec 64 := 0x0000FFFFFFFFF000

/-- Bits 47 to 12. -/
def descAddress (d : BitVec 64) : ℕ := (d &&& addressMask).toNat

/-- A block or page: output address, access flag, AP[2] and PXN, with what the tables
above say on top. -/
def leafMapping (d : BitVec 64) (shift va : ℕ) (ro xn : Bool) : Option Mapping :=
  if d.getLsbD 10 then
    some ⟨descAddress d / 2 ^ shift * 2 ^ shift + va % 2 ^ shift, !(d.getLsbD 7 || ro),
      !(d.getLsbD 53 || xn)⟩
  else none

/-- The walk from the table at `ttbr`; `none` is a fault. -/
def tableWalk (mem : TableMemory) (ttbr va : ℕ) : Option Mapping :=
  if 2 ^ 39 ≤ va then none
  else
    let d₁ := mem ttbr (va / 2 ^ 30 % 512)
    if d₁ &&& 3#64 = 1#64 then leafMapping d₁ 30 va false false
    else if d₁ &&& 3#64 = 3#64 then
      let d₂ := mem (descAddress d₁) (va / 2 ^ 21 % 512)
      let ro := d₁.getLsbD 62
      let xn := d₁.getLsbD 59
      if d₂ &&& 3#64 = 1#64 then leafMapping d₂ 21 va ro xn
      else if d₂ &&& 3#64 = 3#64 then
        let d₃ := mem (descAddress d₂) (va / 2 ^ 12 % 512)
        if d₃ &&& 3#64 = 3#64 then leafMapping d₃ 12 va (ro || d₂.getLsbD 62) (xn || d₂.getLsbD 59)
        else none
      else none
    else none

section

variable {pa : ℕ} {c : BitVec 64} (hpage : pa % 2 ^ 12 = 0) (hlt : pa < 2 ^ 48)

include hpage hlt

theorem testBit_page {i : ℕ} (hi : i < 12 ∨ 48 ≤ i) : pa.testBit i = false := by
  rcases hi with hi | hi
  · have hmod : (pa % 2 ^ 12).testBit i = pa.testBit i := by
      rw [Nat.testBit_mod_two_pow, decide_eq_true hi, Bool.true_and]
    rw [← hmod, hpage, Nat.zero_testBit]
  · exact Nat.testBit_lt_two_pow (hlt.trans_le (Nat.pow_le_pow_right (by decide) hi))

theorem getLsbD_desc {i : ℕ} (hi : i < 12 ∨ 48 ≤ i) :
    (BitVec.ofNat 64 pa ||| c).getLsbD i = c.getLsbD i := by
  rw [BitVec.getLsbD_or, BitVec.getLsbD_ofNat, testBit_page hpage hlt hi, Bool.and_false,
    Bool.false_or]

theorem desc_type : (BitVec.ofNat 64 pa ||| c) &&& 3#64 = c &&& 3#64 := by
  apply BitVec.eq_of_getLsbD_eq
  intro i hi
  rw [BitVec.getLsbD_and, BitVec.getLsbD_and]
  by_cases h2 : i < 2
  · rw [getLsbD_desc hpage hlt (Or.inl (by omega))]
  · have h3 : (3#64).getLsbD i = false := by
      rw [BitVec.getLsbD_ofNat, Nat.testBit_lt_two_pow, Bool.and_false]
      exact (by decide : 3 < 2 ^ 2).trans_le (Nat.pow_le_pow_right (by decide) (by omega))
    rw [h3, Bool.and_false, Bool.and_false]

theorem page_and_addressMask : BitVec.ofNat 64 pa &&& addressMask = BitVec.ofNat 64 pa := by
  apply BitVec.eq_of_getLsbD_eq
  intro i hi
  rw [BitVec.getLsbD_and]
  by_cases hin : 12 ≤ i ∧ i < 48
  · have hmask : addressMask.getLsbD i = true := by
      obtain ⟨h12, h48⟩ := hin
      interval_cases i <;> decide
    rw [hmask, Bool.and_true]
  · rw [BitVec.getLsbD_ofNat, testBit_page hpage hlt (by omega), Bool.and_false, Bool.false_and]

theorem desc_address (hc : c &&& addressMask = 0#64) :
    descAddress (BitVec.ofNat 64 pa ||| c) = pa := by
  have hor : (BitVec.ofNat 64 pa ||| c) &&& addressMask = BitVec.ofNat 64 pa := by
    apply BitVec.eq_of_getLsbD_eq
    intro i hi
    have hci : (c &&& addressMask).getLsbD i = false := by rw [hc, BitVec.getLsbD_zero]
    have hpi := congrArg (BitVec.getLsbD · i) (page_and_addressMask hpage hlt)
    simp only [BitVec.getLsbD_and] at hci hpi
    rw [BitVec.getLsbD_and, BitVec.getLsbD_or, Bool.and_or_distrib_right, hci, hpi, Bool.or_false]
  rw [descAddress, hor, BitVec.toNat_ofNat, Nat.mod_eq_of_lt (by omega)]

end

end XinuRpi4.Foundation
