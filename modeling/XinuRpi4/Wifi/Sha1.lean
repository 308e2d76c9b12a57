import XinuRpi4.Foundation.BlockStream
import Mathlib.Tactic

/-!
# SHA-1 of the WiFi driver

`sha1_init`, `sha1_update` and `sha1_final` take a byte string in pieces. The
digest is that of the standard for the whole string, however it is split.

Padding, message schedule, rounds and digest of SHA-1 as the standard defines
them, on byte strings.
-/

namespace XinuRpi4.Wifi

open XinuRpi4.Foundation

namespace SecureHash

/-- The hash value has five words. -/
instance neZeroFive : NeZero 5 := ⟨by decide⟩

def rotl (n : ℕ) (x : UInt32) : UInt32 := ⟨x.toBitVec.rotateLeft n⟩

def ch (x y z : UInt32) : UInt32 := (x &&& y) ^^^ (~~~x &&& z)

def parity (x y z : UInt32) : UInt32 := x ^^^ y ^^^ z

def maj (x y z : UInt32) : UInt32 := (x &&& y) ^^^ (x &&& z) ^^^ (y &&& z)

/-- The function of round `t`. -/
def fn (t : ℕ) : UInt32 → UInt32 → UInt32 → UInt32 :=
  if t < 20 then ch else if t < 40 then parity else if t < 60 then maj else parity

/-- The constant of round `t`. -/
def const (t : ℕ) : UInt32 :=
  if t < 20 then 0x5A827999
  else if t < 40 then 0x6ED9EBA1
  else if t < 60 then 0x8F1BBCDC
  else 0xCA62C1D6

/-- Word `t` of a block, the most significant byte first. -/
def word (M : Fin 64 → UInt8) (t : Fin 16) : UInt32 :=
  ⟨(M ⟨4 * t, by omega⟩).toBitVec ++ (M ⟨4 * t + 1, by omega⟩).toBitVec ++
    (M ⟨4 * t + 2, by omega⟩).toBitVec ++ (M ⟨4 * t + 3, by omega⟩).toBitVec⟩

/-- The message schedule. -/
def schedule (M : Fin 64 → UInt8) (t : ℕ) : UInt32 :=
  if h : t < 16 then word M ⟨t, h⟩
  else rotl 1 (schedule M (t - 3) ^^^ schedule M (t - 8) ^^^ schedule M (t - 14) ^^^
    schedule M (t - 16))

structure Vars where
  a : UInt32
  b : UInt32
  c : UInt32
  d : UInt32
  e : UInt32

def round (w : ℕ → UInt32) (v : Vars) (t : ℕ) : Vars where
  a := rotl 5 v.a + fn t v.b v.c v.d + v.e + const t + w t
  b := v.a
  c := rotl 30 v.b
  d := v.c
  e := v.d

/-- The hash value after one more block. -/
def compress (h : Fin 5 → UInt32) (M : Fin 64 → UInt8) : Fin 5 → UInt32 :=
  let v := (List.range 80).foldl (round (schedule M)) ⟨h 0, h 1, h 2, h 3, h 4⟩
  ![h 0 + v.a, h 1 + v.b, h 2 + v.c, h 3 + v.d, h 4 + v.e]

def initial : Fin 5 → UInt32 := ![0x67452301, 0xEFCDAB89, 0x98BADCFE, 0x10325476, 0xC3D2E1F0]

/-- The zero bytes between the bit `1` and the length, for a message of `len` bytes. -/
def padZeros (len : ℕ) : ℕ := (119 - len % 64) % 64

/-- The length in bits as a 64-bit number, the most significant byte first. -/
def lengthBytes (len : ℕ) : List UInt8 :=
  (List.range 8).map fun i => UInt8.ofNat (8 * len / 256 ^ (7 - i))

def pad (xs : List UInt8) : List UInt8 :=
  xs ++ [0x80] ++ List.replicate (padZeros xs.length) 0 ++ lengthBytes xs.length

/-- The bytes of a word, the most significant first. -/
def wordBytes (x : UInt32) : List UInt8 :=
  (List.range 4).map fun i => ⟨x.toBitVec.extractLsb' (8 * (3 - i)) 8⟩

def sha1 (xs : List UInt8) : List UInt8 :=
  (List.ofFn (foldBlocks compress initial (pad xs))).flatMap wordBytes

/-- The padding takes the fewest zeros that leave room for the length alone. -/
theorem padZeros_least (len : ℕ) :
    (len + 1 + padZeros len) % 64 = 56 ∧ ∀ z, (len + 1 + z) % 64 = 56 → padZeros len ≤ z := by
  unfold padZeros
  constructor
  · omega
  · intro z hz
    omega

@[simp] theorem length_sha1 (xs : List UInt8) : (sha1 xs).length = 20 := by
  simp [sha1, wordBytes]

end SecureHash

def sha1Rol (v : UInt32) (s : UInt32) : UInt32 := (v <<< s) ||| (v >>> (32 - s))

/-- The array `w`. -/
abbrev Sha1W := Vector UInt32 80

def Sha1W.at (w : Sha1W) (i : ℕ) : UInt32 := w[i]?.getD 0

/-- The first loop of `sha1_block` fills `w[0..16)`. -/
def sha1Words (p : Fin 64 → UInt8) : Sha1W :=
  Vector.ofFn fun i =>
    if h : i.val < 16 then
      ((p ⟨i * 4, by omega⟩).toUInt32 <<< 24) ||| ((p ⟨i * 4 + 1, by omega⟩).toUInt32 <<< 16) |||
        ((p ⟨i * 4 + 2, by omega⟩).toUInt32 <<< 8) ||| (p ⟨i * 4 + 3, by omega⟩).toUInt32
    else 0

/-- One turn of the second loop. -/
def sha1Extend (w : Sha1W) (i : ℕ) : Sha1W :=
  w.setIfInBounds i
    (sha1Rol (w.at (i - 3) ^^^ w.at (i - 8) ^^^ w.at (i - 14) ^^^ w.at (i - 16)) 1)

structure Sha1Vars where
  a : UInt32
  b : UInt32
  d : UInt32
  e : UInt32
  f : UInt32

/-- One turn of the third loop. -/
def sha1Round (w : Sha1W) (v : Sha1Vars) (i : ℕ) : Sha1Vars :=
  let (fn, k) : UInt32 × UInt32 :=
    if i < 20 then ((v.b &&& v.d) ||| (~~~v.b &&& v.e), 0x5A827999)
    else if i < 40 then (v.b ^^^ v.d ^^^ v.e, 0x6ED9EBA1)
    else if i < 60 then ((v.b &&& v.d) ||| (v.b &&& v.e) ||| (v.d &&& v.e), 0x8F1BBCDC)
    else (v.b ^^^ v.d ^^^ v.e, 0xCA62C1D6)
  let t := sha1Rol v.a 5 + fn + v.f + k + w.at i
  { a := t, b := v.a, d := sha1Rol v.b 30, e := v.d, f := v.e }

def sha1Block (h : Fin 5 → UInt32) (p : Fin 64 → UInt8) : Fin 5 → UInt32 :=
  let w := (List.range' 16 64).foldl sha1Extend (sha1Words p)
  let v := (List.range 80).foldl (sha1Round w) ⟨h 0, h 1, h 2, h 3, h 4⟩
  ![h 0 + v.a, h 1 + v.b, h 2 + v.d, h 3 + v.e, h 4 + v.f]

/-- `struct sha1`: the chaining value with the block under way, and the length. -/
structure Sha1 extends Buffered (Fin 5 → UInt32) UInt8 64 where
  len : UInt64

theorem zero_lt_block : 0 < 64 := by decide

/-- The block buffer is left as it is. -/
def sha1Init (c : Sha1) : Sha1 where
  h := ![0x67452301, 0xEFCDAB89, 0x98BADCFE, 0x10325476, 0xC3D2E1F0]
  buf := c.buf
  n := 0
  n_lt := zero_lt_block
  len := 0

def sha1Update (c : Sha1) (p : List UInt8) : Sha1 where
  toBuffered := p.foldl (Buffered.put sha1Block) c.toBuffered
  len := c.len + UInt64.ofNat p.length

/-- `while (c->n != 56) sha1_update(c, &pad, 1);` for at most so many turns. -/
def sha1PadLoop : ℕ → Sha1 → Sha1
  | 0, c => c
  | turns + 1, c => if c.n = 56 then c else sha1PadLoop turns (sha1Update c [0])

/-- Byte `i` of the length in bits. -/
def sha1LengthByte (bits : UInt64) (i : ℕ) : UInt8 :=
  ((bits >>> UInt64.ofNat (i * 8)) &&& 0xFF).toUInt8

/-- The padded context; a turn of the loop takes in a byte, so it ends within
the length of a block. -/
def sha1Pad (c : Sha1) : Sha1 :=
  let bits := c.len * 8
  let c := sha1PadLoop 64 (sha1Update c [0x80])
  [7, 6, 5, 4, 3, 2, 1, 0].foldl (fun c i => sha1Update c [sha1LengthByte bits i]) c

/-- The twenty bytes that `sha1_final` writes to `out`. -/
def sha1Final (c : Sha1) : List UInt8 :=
  (List.ofFn (sha1Pad c).h).flatMap fun h : UInt32 =>
    [(h >>> 24).toUInt8, (h >>> 16).toUInt8, (h >>> 8).toUInt8, h.toUInt8]

/-- The three rotations of a round. -/
theorem sha1Rol_eq {s : UInt32} (hs : s = 1 ∨ s = 5 ∨ s = 30) (x : UInt32) :
    sha1Rol x s = SecureHash.rotl s.toNat x := by
  apply UInt32.eq_of_toBitVec_eq
  rcases hs with rfl | rfl | rfl <;> simp [sha1Rol, SecureHash.rotl, BitVec.rotateLeft_def]

theorem bytes_eq_word (a b c d : UInt8) :
    (a.toUInt32 <<< 24) ||| (b.toUInt32 <<< 16) ||| (c.toUInt32 <<< 8) ||| d.toUInt32 =
      ⟨a.toBitVec ++ b.toBitVec ++ c.toBitVec ++ d.toBitVec⟩ := by
  apply UInt32.eq_of_toBitVec_eq
  apply BitVec.eq_of_getLsbD_eq
  intro i hi
  simp [hi]
  grind

theorem sha1Words_eq (p : Fin 64 → UInt8) {i : ℕ} (hi : i < 16) :
    (sha1Words p).at i = SecureHash.schedule p i := by
  rw [SecureHash.schedule, dif_pos hi, Sha1W.at, sha1Words,
    Vector.getElem?_eq_getElem (show i < 80 by omega), Vector.getElem_ofFn, Option.getD_some,
    dif_pos hi, bytes_eq_word]
  simp only [SecureHash.word, Nat.mul_comm i 4]

theorem ch_eq (x y z : UInt32) : (x &&& y) ||| (~~~x &&& z) = SecureHash.ch x y z := by
  apply UInt32.eq_of_toBitVec_eq
  ext i hi
  simp only [SecureHash.ch, UInt32.toBitVec_or, UInt32.toBitVec_and, UInt32.toBitVec_xor,
    UInt32.toBitVec_not, BitVec.getElem_or, BitVec.getElem_and, BitVec.getElem_xor,
    BitVec.getElem_not]
  cases x.toBitVec[i] <;> simp

theorem maj_eq (x y z : UInt32) :
    (x &&& y) ||| (x &&& z) ||| (y &&& z) = SecureHash.maj x y z := by
  apply UInt32.eq_of_toBitVec_eq
  ext i hi
  simp only [SecureHash.maj, UInt32.toBitVec_or, UInt32.toBitVec_and, UInt32.toBitVec_xor,
    BitVec.getElem_or, BitVec.getElem_and, BitVec.getElem_xor]
  cases x.toBitVec[i] <;> cases y.toBitVec[i] <;> simp

theorem sha1Extend_self (w : Sha1W) {i : ℕ} (hi : i < 80) :
    (sha1Extend w i).at i =
      SecureHash.rotl 1 (w.at (i - 3) ^^^ w.at (i - 8) ^^^ w.at (i - 14) ^^^ w.at (i - 16)) := by
  rw [sha1Extend, Sha1W.at, Vector.getElem?_setIfInBounds_self_of_lt hi, Option.getD_some,
    sha1Rol_eq (Or.inl rfl)]
  rfl

theorem sha1Extend_of_ne (w : Sha1W) {i t : ℕ} (h : t ≠ i) : (sha1Extend w i).at t = w.at t := by
  rw [sha1Extend, Sha1W.at, Vector.getElem?_setIfInBounds_ne h.symm, Sha1W.at]

/-- The second loop continues the message schedule. -/
theorem sha1Extend_spec (p : Fin 64 → UInt8) (n : ℕ) (hn : n ≤ 64) {t : ℕ} (ht : t < 16 + n) :
    ((List.range' 16 n).foldl sha1Extend (sha1Words p)).at t = SecureHash.schedule p t := by
  induction n generalizing t with
  | zero => exact sha1Words_eq p ht
  | succ n ih =>
    have hn' : n ≤ 64 := by omega
    rw [List.range'_concat, List.foldl_append, List.foldl_cons, List.foldl_nil, Nat.one_mul]
    by_cases hself : t = 16 + n
    · rw [hself, sha1Extend_self _ (by omega), SecureHash.schedule, dif_neg (by omega)]
      rw [ih hn' (show 16 + n - 3 < 16 + n by omega), ih hn' (show 16 + n - 8 < 16 + n by omega),
        ih hn' (show 16 + n - 14 < 16 + n by omega), ih hn' (show 16 + n - 16 < 16 + n by omega)]
    · rw [sha1Extend_of_ne _ hself]
      exact ih hn' (by omega)

/-- The working variables under the names of the standard. -/
def Sha1Vars.toStandard (v : Sha1Vars) : SecureHash.Vars := ⟨v.a, v.b, v.d, v.e, v.f⟩

theorem sha1Round_eq {w : Sha1W} {w' : ℕ → UInt32} {i : ℕ} (hw : w.at i = w' i) (v : Sha1Vars) :
    (sha1Round w v i).toStandard = SecureHash.round w' v.toStandard i := by
  unfold sha1Round SecureHash.round SecureHash.fn SecureHash.const Sha1Vars.toStandard
  rw [hw, ch_eq, maj_eq]
  split_ifs <;> simp [sha1Rol_eq, SecureHash.parity]

theorem sha1Rounds_eq (w : Sha1W) (w' : ℕ → UInt32) (is : List ℕ)
    (hw : ∀ i ∈ is, w.at i = w' i) (v : Sha1Vars) :
    (is.foldl (sha1Round w) v).toStandard =
      is.foldl (SecureHash.round w') v.toStandard := by
  induction is generalizing v with
  | nil => rfl
  | cons i is ih =>
    rw [List.foldl_cons, List.foldl_cons, ih (fun j hj => hw j (List.mem_cons_of_mem i hj)),
      sha1Round_eq (hw i List.mem_cons_self)]

theorem sha1Block_eq : sha1Block = SecureHash.compress := by
  funext h p
  have hrounds := sha1Rounds_eq ((List.range' 16 64).foldl sha1Extend (sha1Words p))
    (SecureHash.schedule p) (List.range 80)
    (fun i hi => sha1Extend_spec p 64 le_rfl (List.mem_range.mp hi)) ⟨h 0, h 1, h 2, h 3, h 4⟩
  dsimp only [Sha1Vars.toStandard] at hrounds
  dsimp only [sha1Block, SecureHash.compress]
  rw [← hrounds]

/-- The context has taken in a byte string. -/
structure Sha1.Took (c : Sha1) (xs : List UInt8) : Prop where
  holds : c.toBuffered.Holds SecureHash.compress SecureHash.initial xs
  length : c.len = UInt64.ofNat xs.length

theorem sha1Init_took (c : Sha1) : (sha1Init c).Took [] where
  holds := Buffered.holds_nil (s := (sha1Init c).toBuffered) rfl
  length := rfl

theorem Sha1.Took.update {c : Sha1} {xs : List UInt8} (hc : c.Took xs) (ys : List UInt8) :
    (sha1Update c ys).Took (xs ++ ys) where
  holds := by
    rw [sha1Update, sha1Block_eq]
    exact hc.holds.foldl ys
  length := by
    rw [sha1Update, hc.length, List.length_append, UInt64.ofNat_add]

theorem Sha1.Took.updates {c : Sha1} {xs : List UInt8} (hc : c.Took xs)
    (pieces : List (List UInt8)) : (pieces.foldl sha1Update c).Took (xs ++ pieces.flatten) := by
  induction pieces generalizing c xs with
  | nil => simpa using hc
  | cons ys pieces ih => simpa using ih (hc.update ys)

/-- The loop writes zeros until the buffer has 56 bytes. -/
theorem Sha1.Took.padLoop {c : Sha1} {xs : List UInt8} (hc : c.Took xs) (z turns : ℕ)
    (hz : (xs.length + z) % 64 = 56) (hleast : ∀ z', (xs.length + z') % 64 = 56 → z ≤ z')
    (hturns : z ≤ turns) : (sha1PadLoop turns c).Took (xs ++ List.replicate z 0) := by
  induction turns generalizing c xs z with
  | zero =>
    obtain rfl : z = 0 := by omega
    simpa [sha1PadLoop] using hc
  | succ turns ih =>
    rw [sha1PadLoop]
    by_cases hfull : c.n = 56
    · obtain rfl : z = 0 := by
        have := hleast 0 (by rw [Nat.add_zero, ← hc.holds.fill, hfull])
        omega
      simpa [hfull] using hc
    · rw [if_neg hfull]
      have hfill : xs.length % 64 ≠ 56 := by rwa [← hc.holds.fill]
      obtain ⟨z, rfl⟩ : ∃ k, z = k + 1 := ⟨z - 1, by
        have : z ≠ 0 := by
          rintro rfl
          exact hfill hz
        omega⟩
      have hrest := ih (hc.update [0]) z
        (by simpa [Nat.add_assoc, Nat.add_comm 1 z] using hz)
        (fun z' hz' => by
          have := hleast (z' + 1) (by simpa [Nat.add_assoc, Nat.add_comm 1 z'] using hz')
          omega)
        (by omega)
      rwa [List.append_assoc, List.singleton_append, ← List.replicate_succ] at hrest

theorem sha1LengthByte_eq (len : ℕ) {i : ℕ} (hi : i < 8) :
    sha1LengthByte (UInt64.ofNat len * 8) i = UInt8.ofNat (8 * len / 256 ^ i) := by
  have hpow : (256 : ℕ) ^ i = 2 ^ (i * 8) := by
    rw [Nat.mul_comm, pow_mul]
    norm_num
  -- the shift takes out bits below 64, which the wrap-around leaves alone
  have hshift : 8 * len % 2 ^ 64 / 2 ^ (i * 8) % 256 = 8 * len / 2 ^ (i * 8) % 256 := by
    have hsplit : (2 : ℕ) ^ 64 = 2 ^ (i * 8) * 2 ^ (64 - i * 8) := by
      rw [← pow_add]
      congr 1
      omega
    have hdvd : 256 ∣ 2 ^ (64 - i * 8) := (pow_dvd_pow 2 (show 8 ≤ 64 - i * 8 by omega))
    rw [hsplit, Nat.mod_mul_right_div_self, Nat.mod_mod_of_dvd _ hdvd]
  have hmask : ∀ x : ℕ, (x &&& 255) % 2 ^ 8 = x % 256 := by
    intro x
    rw [show 255 = 2 ^ 8 - 1 from rfl, Nat.and_two_pow_sub_one_eq_mod, Nat.mod_mod]
  have hamount : i * 8 % 2 ^ 64 % 64 = i * 8 := by omega
  apply UInt8.toNat_inj.mp
  rw [sha1LengthByte, UInt8.toNat_ofNat', hpow, show 2 ^ 8 = 256 from rfl, ← hshift]
  simp only [UInt64.toNat_toUInt8, UInt64.toNat_and, UInt64.toNat_shiftRight, UInt64.toNat_mul,
    UInt64.toNat_ofNat', Nat.shiftRight_eq_div_pow, hamount]
  rw [show UInt64.toNat 255 = 255 from rfl, hmask, show UInt64.toNat 8 = 8 from rfl,
    Nat.mod_mul_mod, Nat.mul_comm 8]

theorem Sha1.Took.pad {c : Sha1} {xs : List UInt8} (hc : c.Took xs) :
    (sha1Pad c).Took (SecureHash.pad xs) := by
  obtain ⟨hzeros, hleast⟩ := SecureHash.padZeros_least xs.length
  have hmark := (hc.update [0x80]).padLoop (SecureHash.padZeros xs.length) 64
    (by simpa using hzeros) (fun z hz => hleast z (by simpa using hz))
    (by unfold SecureHash.padZeros; omega)
  have hbytes : SecureHash.lengthBytes xs.length =
      ([7, 6, 5, 4, 3, 2, 1, 0].map fun i => [sha1LengthByte (c.len * 8) i]).flatten := by
    rw [hc.length]
    simp [sha1LengthByte_eq, SecureHash.lengthBytes, List.range_succ]
  have hfold : sha1Pad c =
      ([7, 6, 5, 4, 3, 2, 1, 0].map fun i => [sha1LengthByte (c.len * 8) i]).foldl sha1Update
        (sha1PadLoop 64 (sha1Update c [0x80])) := by
    rw [List.foldl_map]
    rfl
  rw [hfold, SecureHash.pad, hbytes]
  exact hmark.updates _

theorem wordBytes_eq (h : UInt32) :
    [(h >>> 24).toUInt8, (h >>> 16).toUInt8, (h >>> 8).toUInt8, h.toUInt8] =
      SecureHash.wordBytes h := by
  simp only [SecureHash.wordBytes, List.range_succ, List.range_zero, List.nil_append,
    List.cons_append, List.map_cons, List.map_nil, List.cons.injEq, and_true]
  refine ⟨?_, ?_, ?_, ?_⟩ <;>
  · apply UInt8.eq_of_toBitVec_eq
    apply BitVec.eq_of_getLsbD_eq
    intro i hi
    simp [hi]

theorem Sha1.Took.final {c : Sha1} {xs : List UInt8} (hc : c.Took xs) :
    sha1Final c = SecureHash.sha1 xs := by
  unfold sha1Final SecureHash.sha1
  simp only [wordBytes_eq, hc.pad.holds.chain]

/-- Handing a string over in pieces yields its digest. -/
theorem sha1Final_updates (c : Sha1) (pieces : List (List UInt8)) :
    sha1Final (pieces.foldl sha1Update (sha1Init c)) = SecureHash.sha1 pieces.flatten :=
  ((sha1Init_took c).updates pieces).final

end XinuRpi4.Wifi
