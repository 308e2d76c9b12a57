import Mathlib.Tactic

/-!
# Keyed hashes and keys derived from passwords

The HMAC construction over a hash that works on blocks of `B` bytes, and the
PBKDF2 derivation of a key of any length over a keyed hash.
-/

namespace XinuRpi4.Foundation

/-- The key of a keyed hash: hashed when it is longer than a block, then filled
up with zeros. -/
def hmacKey (H : List UInt8 → List UInt8) (B : ℕ) (key : List UInt8) : List UInt8 :=
  let k := if B < key.length then H key else key
  k ++ List.replicate (B - k.length) 0

/-- `H((K ⊕ opad) ‖ H((K ⊕ ipad) ‖ text))` -/
def hmac (H : List UInt8 → List UInt8) (B : ℕ) (key text : List UInt8) : List UInt8 :=
  let k := hmacKey H B key
  H (k.map (· ^^^ 0x5C) ++ H (k.map (· ^^^ 0x36) ++ text))

def xorBytes (xs ys : List UInt8) : List UInt8 := List.zipWith (· ^^^ ·) xs ys

/-- The four octets of a block number, most significant first. -/
def int4 (i : ℕ) : List UInt8 :=
  [UInt8.ofNat (i / 256 ^ 3), UInt8.ofNat (i / 256 ^ 2), UInt8.ofNat (i / 256), UInt8.ofNat i]

section Pbkdf2

variable (prf : List UInt8 → List UInt8 → List UInt8)

/-- `U_{j+1}`, the iterates of the keyed hash for block `i`. -/
def pbkdf2U (pass salt : List UInt8) (i : ℕ) : ℕ → List UInt8
  | 0 => prf pass (salt ++ int4 i)
  | j + 1 => prf pass (pbkdf2U pass salt i j)

/-- `U_1 ⊕ … ⊕ U_{c+1}` -/
def pbkdf2F (pass salt : List UInt8) (i : ℕ) : ℕ → List UInt8
  | 0 => pbkdf2U prf pass salt i 0
  | c + 1 => xorBytes (pbkdf2F pass salt i c) (pbkdf2U prf pass salt i (c + 1))

/-- The first `dkLen` bytes of `T_1 ‖ T_2 ‖ …`, with `c` iterations of a keyed
hash of `hLen` bytes. -/
def pbkdf2 (hLen : ℕ) (pass salt : List UInt8) (c dkLen : ℕ) : List UInt8 :=
  ((List.range ((dkLen + hLen - 1) / hLen)).flatMap fun i =>
    pbkdf2F prf pass salt (i + 1) (c - 1)).take dkLen

variable {prf} {pass salt : List UInt8} {hLen : ℕ}

@[simp] theorem length_xorBytes (xs ys : List UInt8) :
    (xorBytes xs ys).length = min xs.length ys.length := by
  simp [xorBytes]

theorem length_pbkdf2U (hprf : ∀ k x, (prf k x).length = hLen) (i j : ℕ) :
    (pbkdf2U prf pass salt i j).length = hLen := by
  cases j <;> exact hprf _ _

theorem length_pbkdf2F (hprf : ∀ k x, (prf k x).length = hLen) (i c : ℕ) :
    (pbkdf2F prf pass salt i c).length = hLen := by
  induction c with
  | zero => exact length_pbkdf2U hprf i 0
  | succ c ih => simp [pbkdf2F, ih, length_pbkdf2U hprf]

/-- The blocks up to number `n` together. -/
theorem length_pbkdf2_blocks (hprf : ∀ k x, (prf k x).length = hLen) (pass salt : List UInt8)
    (c n : ℕ) :
    ((List.range n).flatMap fun i => pbkdf2F prf pass salt (i + 1) c).length = n * hLen := by
  simp [List.length_flatMap, length_pbkdf2F hprf]

/-- Byte `o` of the blocks together is byte `o % hLen` of block `o / hLen + 1`. -/
theorem getElem?_pbkdf2_blocks (hprf : ∀ k x, (prf k x).length = hLen) {c n o : ℕ}
    (ho : o < n * hLen) :
    ((List.range n).flatMap fun i => pbkdf2F prf pass salt (i + 1) c)[o]? =
      (pbkdf2F prf pass salt (o / hLen + 1) c)[o % hLen]? := by
  induction n with
  | zero => simp at ho
  | succ n ih =>
    have hlen := length_pbkdf2_blocks hprf pass salt c n
    rw [List.range_succ, List.flatMap_append, List.flatMap_singleton]
    by_cases hlast : o < n * hLen
    · rw [List.getElem?_append_left (by rw [hlen]; exact hlast), ih hlast]
    · rw [Nat.succ_mul] at ho
      have hrest : o - n * hLen < hLen := by omega
      have hsplit : o = n * hLen + (o - n * hLen) := by omega
      have hdiv : o / hLen = n := by
        rw [hsplit, Nat.mul_comm, Nat.mul_add_div (by omega), Nat.mul_comm,
          Nat.div_eq_of_lt hrest, Nat.add_zero]
      have hmod : o % hLen = o - n * hLen := by
        conv_lhs => rw [hsplit]
        rw [Nat.mul_add_mod', Nat.mod_eq_of_lt hrest]
      rw [List.getElem?_append_right (by rw [hlen]; omega), hlen, hdiv, hmod]

/-- The number of blocks suffices for the key. -/
theorem le_blocks_mul (hpos : 0 < hLen) (dkLen : ℕ) :
    dkLen ≤ (dkLen + hLen - 1) / hLen * hLen := by
  have hdiv := Nat.div_add_mod' (dkLen + hLen - 1) hLen
  have hmod := Nat.mod_lt (dkLen + hLen - 1) hpos
  omega

theorem length_pbkdf2 (hprf : ∀ k x, (prf k x).length = hLen) (hpos : 0 < hLen) (c dkLen : ℕ) :
    (pbkdf2 prf hLen pass salt c dkLen).length = dkLen := by
  unfold pbkdf2
  rw [List.length_take, length_pbkdf2_blocks hprf, min_eq_left (le_blocks_mul hpos dkLen)]

/-- Byte `o` of the derived key. -/
theorem getElem?_pbkdf2 (hprf : ∀ k x, (prf k x).length = hLen) (hpos : 0 < hLen)
    {c dkLen o : ℕ} (ho : o < dkLen) :
    (pbkdf2 prf hLen pass salt c dkLen)[o]? =
      (pbkdf2F prf pass salt (o / hLen + 1) (c - 1))[o % hLen]? := by
  unfold pbkdf2
  rw [List.getElem?_take_of_lt ho,
    getElem?_pbkdf2_blocks hprf (ho.trans_le (le_blocks_mul hpos dkLen))]

end Pbkdf2

end XinuRpi4.Foundation
