import Mathlib.Tactic

/-!
# Numbers in bytes and digits

Words of bytes in memory, digits in a base, and checksums of words.

A memory of bytes read and written in words of `n` bytes, least significant
byte first. Words whose byte ranges are disjoint do not disturb each other.

The value of digits as a loop adds them up, the first one most significant, and what
becomes of it when the last digits are left out.

Bytes are added up as big-endian words of 16 bits with end-around carry. A sum that has its
own complement added to it is 0xFFFF.
-/

namespace XinuRpi4.Foundation

section

/-- The bytes of a word are indexed by `Fin 4`. -/
instance neZeroFour : NeZero 4 := ⟨by decide⟩

instance neZeroSix : NeZero 6 := ⟨by decide⟩

instance neZeroSixteen : NeZero 16 := ⟨by decide⟩

/-- The word of `n` bytes at address `a`. -/
def loadWord (m : ℕ → UInt8) : ℕ → ℕ → ℕ
  | 0, _ => 0
  | n + 1, a => (m a).toNat + 256 * loadWord m n (a + 1)

/-- Write the `n` low bytes of `v` at address `a`. -/
def storeWord (m : ℕ → UInt8) (n a v : ℕ) : ℕ → UInt8 :=
  fun x => if a ≤ x ∧ x < a + n then UInt8.ofNat (v / 256 ^ (x - a)) else m x

variable {m m' : ℕ → UInt8} {n k a b v x : ℕ}

theorem storeWord_of_lt (h : x < a) : storeWord m n a v x = m x := if_neg (by omega)

theorem storeWord_of_le (h : a + n ≤ x) : storeWord m n a v x = m x := if_neg (by omega)

theorem loadWord_congr (h : ∀ x, a ≤ x → x < a + n → m' x = m x) :
    loadWord m' n a = loadWord m n a := by
  induction n generalizing a with
  | zero => rfl
  | succ n ih =>
    simp only [loadWord]
    rw [h a le_rfl (by omega), ih fun x hlo hhi => h x (by omega) (by omega)]

/-- Bytes that spell out `v` load as the low bytes of `v`. -/
theorem loadWord_of_bytes (h : ∀ i < n, m (a + i) = UInt8.ofNat (v / 256 ^ i)) :
    loadWord m n a = v % 256 ^ n := by
  induction n generalizing a v with
  | zero => simp [loadWord, Nat.mod_one]
  | succ n ih =>
    have hrest : loadWord m n (a + 1) = v / 256 % 256 ^ n := by
      apply ih
      intro i hi
      rw [Nat.add_assoc, Nat.add_comm 1 i, h (i + 1) (by omega), pow_succ', Nat.div_div_eq_div_mul]
    have hbyte : (m a).toNat = v % 256 := by
      have h0 := h 0 (by omega)
      rw [Nat.add_zero, pow_zero, Nat.div_one] at h0
      rw [h0]
      simp
    rw [loadWord, hrest, hbyte, pow_succ', Nat.mod_mul]

/-- The low bytes of what was written are read back. -/
theorem loadWord_storeWord : loadWord (storeWord m n a v) n a = v % 256 ^ n := by
  apply loadWord_of_bytes
  intro i hi
  have hin : a ≤ a + i ∧ a + i < a + n := by omega
  rw [storeWord, if_pos hin, Nat.add_sub_cancel_left]

theorem loadWord_storeWord_self (hv : v < 256 ^ n) : loadWord (storeWord m n a v) n a = v := by
  rw [loadWord_storeWord, Nat.mod_eq_of_lt hv]

theorem loadWord_storeWord_of_disjoint (h : a + n ≤ b ∨ b + k ≤ a) :
    loadWord (storeWord m k b v) n a = loadWord m n a := by
  apply loadWord_congr
  intro x hlo hhi
  rcases h with h | h
  · exact storeWord_of_lt (by omega)
  · exact storeWord_of_le (by omega)

/-- Words whose bits do not meet are added by `|||`. -/
theorem or_toNat {x y : UInt32} {k : ℕ} (hx : 2 ^ k ∣ x.toNat) (hy : y.toNat < 2 ^ k) :
    (x ||| y).toNat = x.toNat + y.toNat := by
  obtain ⟨q, hq⟩ := hx
  rw [UInt32.toNat_or, hq, Nat.two_pow_add_eq_or_of_lt hy]

theorem shifted_toNat (x : UInt8) {k : UInt32} (hk : k.toNat ≤ 24) :
    (x.toUInt32 <<< k).toNat = x.toNat * 2 ^ k.toNat := by
  have hx := x.toNat_lt
  have hpow : 2 ^ k.toNat ≤ 2 ^ 24 := Nat.pow_le_pow_right (by decide) hk
  rw [UInt32.toNat_shiftLeft, UInt8.toNat_toUInt32, Nat.shiftLeft_eq,
    Nat.mod_eq_of_lt (a := k.toNat) (by omega)]
  exact Nat.mod_eq_of_lt (by nlinarith)

end

/-- The digits are added to the value `n` of those before them. -/
def horner (b : ℕ) : ℕ → List ℕ → ℕ
  | n, [] => n
  | n, d :: ds => horner b (n * b + d) ds

theorem le_horner (b n : ℕ) (hb : 1 < b) (ds : List ℕ) : n ≤ horner b n ds := by
  induction ds generalizing n with
  | nil => exact le_rfl
  | cons d ds ih =>
    have hstep : n ≤ n * b + d := by nlinarith
    exact hstep.trans (ih _)

theorem horner_append (b n : ℕ) (ds es : List ℕ) :
    horner b n (ds ++ es) = horner b (horner b n ds) es := by
  induction ds generalizing n with
  | nil => rfl
  | cons d ds ih => simp [horner, ih]

/-- Digits that are cut off make a number smaller, unless it is 0. -/
theorem horner_lt_append (b : ℕ) (hb : 1 < b) (ds es : List ℕ) (hes : es ≠ [])
    (hpos : 0 < horner b 0 (ds ++ es)) : horner b 0 ds < horner b 0 (ds ++ es) := by
  rw [horner_append] at hpos ⊢
  obtain ⟨e, es, rfl⟩ := List.exists_cons_of_ne_nil hes
  rcases Nat.eq_zero_or_pos (horner b 0 ds) with hzero | hm
  · rwa [hzero] at hpos ⊢
  · have hstep : horner b 0 ds < horner b 0 ds * b + e := by nlinarith
    exact hstep.trans_le (le_horner b _ hb es)

theorem horner_take {b : ℕ} (hb : 1 < b) {ds : List ℕ} {n : ℕ} (hn : n < ds.length)
    (hpos : 0 < horner b 0 ds) : horner b 0 (ds.take n) < horner b 0 ds := by
  have hsplit := List.take_append_drop n ds
  have hdrop : ds.drop n ≠ [] := by
    rw [ne_eq, List.drop_eq_nil_iff]
    omega
  have hlt := horner_lt_append b hb (ds.take n) (ds.drop n) hdrop (by rwa [hsplit])
  rwa [hsplit] at hlt

theorem horner_take_le {b : ℕ} (hb : 1 < b) (n : ℕ) (ds : List ℕ) :
    horner b 0 (ds.take n) ≤ horner b 0 ds := by
  have hle := le_horner b (horner b 0 (ds.take n)) hb (ds.drop n)
  rwa [← horner_append, List.take_append_drop] at hle

/-- The sum of the words; an odd byte at the end is the high byte of a word. -/
def wordSum : List UInt8 → ℕ
  | [] => 0
  | [b] => b.toNat * 256
  | a :: b :: rest => a.toNat * 256 + b.toNat + wordSum rest

/-- The carries are added until none is left. -/
def foldCarry (s : ℕ) : ℕ :=
  if s / 65536 = 0 then s else foldCarry (s % 65536 + s / 65536)
termination_by s

/-- The complement of a sum. -/
def complement (s : ℕ) : ℕ := 65535 - foldCarry s

theorem foldCarry_eq (s : ℕ) : foldCarry s = if s = 0 then 0 else (s - 1) % 65535 + 1 := by
  fun_induction foldCarry s with
  | case1 s h => split_ifs <;> omega
  | case2 s h ih =>
    rw [ih]
    split_ifs <;> omega

theorem foldCarry_le (s : ℕ) : foldCarry s ≤ 65535 := by
  rw [foldCarry_eq]
  split_ifs <;> omega

theorem complement_lt (s : ℕ) : complement s < 65536 := by
  unfold complement
  omega

/-- What a receiver adds up. -/
theorem foldCarry_add_complement (s : ℕ) : foldCarry (s + complement s) = 65535 := by
  have hs := foldCarry_eq s
  have hle := foldCarry_le s
  unfold complement
  rw [foldCarry_eq]
  split_ifs at hs ⊢ <;> omega

/-- A part of even length is summed up on its own. -/
theorem wordSum_append (xs ys : List UInt8) (h : xs.length % 2 = 0) :
    wordSum (xs ++ ys) = wordSum xs + wordSum ys := by
  fun_induction wordSum xs with
  | case1 => simp
  | case2 b => simp at h
  | case3 a b rest ih =>
    have heven : rest.length % 2 = 0 := by
      simp only [List.length_cons] at h
      omega
    rw [List.cons_append, List.cons_append, wordSum, ih heven]
    omega

/-- The two bytes of a word. -/
theorem wordSum_word {n : ℕ} (h : n < 65536) :
    wordSum [UInt8.ofNat (n / 256), UInt8.ofNat n] = n := by
  simp only [wordSum, UInt8.toNat_ofNat']
  omega

end XinuRpi4.Foundation
