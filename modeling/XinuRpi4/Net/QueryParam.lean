import Mathlib.Data.List.TakeWhile
import XinuRpi4.Foundation.ByteWords
import XinuRpi4.Foundation.Scan

/-!
# Query parameters

The handlers of the HTTP server look a parameter up in the whole text of the request: the
first place where the key and `=` stand is taken, whatever is before it. The parameter
that is asked for is found when no other place of the text comes first.

A C string is the list of its bytes before the NUL.
-/

namespace XinuRpi4.Net

open XinuRpi4.Foundation

/-- What follows the key and `=`, if they stand at the start of the text. -/
def matchParam : List UInt8 → List UInt8 → Option (List UInt8)
  | [], c :: cs => if c = 61 then some cs else none
  | k :: ks, c :: cs => if c = k then matchParam ks cs else none
  | _, [] => none

/-- The copying loop, with the room for this many bytes. -/
def copyValue : ℕ → List UInt8 → List UInt8
  | n + 1, c :: cs => if c ≠ 38 ∧ c ≠ 32 then c :: copyValue n cs else []
  | _, _ => []

/-- The bytes left in `out`, or `none` when the result is 0 and `out` is empty. -/
def qParam (req key : List UInt8) (max : ℕ) : Option (List UInt8) :=
  (scan (matchParam key) req).map (copyValue (max - 1))

def readDecimal : BitVec 32 → List UInt8 → BitVec 32
  | n, [] => n
  | n, c :: cs =>
    if 48 ≤ c ∧ c ≤ 57 then readDecimal (n * 10 + BitVec.ofNat 32 (c.toNat - 48)) cs else n

def readHex : BitVec 32 → List UInt8 → BitVec 32
  | n, [] => n
  | n, c :: cs =>
    if 48 ≤ c ∧ c ≤ 57 then readHex (n <<< 4 ||| BitVec.ofNat 32 (c.toNat - 48)) cs
    else if 97 ≤ c ∧ c ≤ 102 then
      readHex (n <<< 4 ||| BitVec.ofNat 32 (c.toNat - 97 + 10)) cs
    else if 65 ≤ c ∧ c ≤ 70 then
      readHex (n <<< 4 ||| BitVec.ofNat 32 (c.toNat - 65 + 10)) cs
    else n

/-- The number after the sign. -/
def readMagnitude (v : List UInt8) : BitVec 32 :=
  match v with
  | 48 :: x :: digits => if x = 120 ∨ x = 88 then readHex 0 digits else readDecimal 0 v
  | _ => readDecimal 0 v

def readNumber (v : List UInt8) : ℤ :=
  match v with
  | 45 :: v => (-readMagnitude v).toInt
  | _ => (readMagnitude v).toInt

/-- The value is copied into 16 bytes. -/
def qInt (req key : List UInt8) (dflt : ℤ) : ℤ :=
  match qParam req key 16 with
  | none => dflt
  | some v => readNumber v

/-- `METHOD SP path?k1=v1&k2=v2 SP`, and what comes after it. -/
structure QueryRequest where
  method : List UInt8
  path : List UInt8
  pairs : List (List UInt8 × List UInt8)
  rest : List UInt8
  method_clean : 32 ∉ method
  path_clean : 32 ∉ path ∧ 63 ∉ path
  key_clean : ∀ p ∈ pairs, 61 ∉ p.1 ∧ 38 ∉ p.1 ∧ 32 ∉ p.1
  value_clean : ∀ p ∈ pairs, 38 ∉ p.2 ∧ 32 ∉ p.2
  no_nul : 0 ∉ method ∧ 0 ∉ path ∧ (∀ p ∈ pairs, 0 ∉ p.1 ∧ 0 ∉ p.2) ∧ 0 ∉ rest

def pairText (p : List UInt8 × List UInt8) : List UInt8 := p.1 ++ 61 :: p.2

def pairsText (pairs : List (List UInt8 × List UInt8)) : List UInt8 :=
  List.intercalate [38] (pairs.map pairText)

/-- The value of the first pair with the key. -/
def firstValue (key : List UInt8) : List (List UInt8 × List UInt8) → Option (List UInt8)
  | [] => none
  | p :: pairs => if p.1 = key then some p.2 else firstValue key pairs

namespace QueryRequest

variable (r : QueryRequest) (key : List UInt8)

/-- What stands before the pairs. -/
def start : List UInt8 := r.method ++ 32 :: r.path ++ [63]

def text : List UInt8 := r.start ++ (pairsText r.pairs ++ 32 :: r.rest)

def value : Option (List UInt8) := firstValue key r.pairs

end QueryRequest

/-- The key and `=` stand at position `i`. -/
def StandsAt (key text : List UInt8) (i : ℕ) : Prop := (key ++ [61]) <+: text.drop i

/-- The text from position `i` up to `&` or a space. -/
def valueFrom (text : List UInt8) (i : ℕ) : List UInt8 :=
  (text.drop i).takeWhile fun c => c ≠ 38 ∧ c ≠ 32

/-- No pair has the key and it stands nowhere with `=` after it; or a pair has the key, and
what follows its first place in the text is the value of that pair. -/
def Answers (r : QueryRequest) (key : List UInt8) : Prop :=
  match r.value key with
  | none => ∀ i, ¬ StandsAt key r.text i
  | some v => ∀ i, StandsAt key r.text i → (∀ j < i, ¬ StandsAt key r.text j) →
      valueFrom r.text (i + key.length + 1) = v

inductive Numeral
  | decimal (negative : Bool) (digits : List (Fin 10))
  /-- Each digit with whether its letter is upper case. -/
  | hex (negative upper : Bool) (digits : List (Fin 16 × Bool))

def decByte (d : Fin 10) : UInt8 := 48 + UInt8.ofNat d

def hexByte (d : Fin 16 × Bool) : UInt8 :=
  if d.1 < 10 then 48 + UInt8.ofNat d.1
  else if d.2 then 55 + UInt8.ofNat d.1 else 87 + UInt8.ofNat d.1

def signText (negative : Bool) : List UInt8 := if negative then [45] else []

namespace Numeral

def text : Numeral → List UInt8
  | decimal neg ds => signText neg ++ ds.map decByte
  | hex neg upper ds => signText neg ++ 48 :: (if upper then 88 else 120) :: ds.map hexByte

def negative : Numeral → Bool
  | decimal neg _ => neg
  | hex neg _ _ => neg

def magnitude : Numeral → ℕ
  | decimal _ ds => horner 10 0 (ds.map Fin.val)
  | hex _ _ ds => horner 16 0 (ds.map fun d => d.1.val)

def number (u : Numeral) : ℤ := if u.negative then -u.magnitude else u.magnitude

/-- The number fits 32 bits, with a sign or without. -/
def Fits (u : Numeral) : Prop := -2 ^ 31 ≤ u.number ∧ u.number < 2 ^ 32

/-- The text with its sign and `0x` fits the 16 bytes, or there is nothing in it but
zeros. -/
def Short (u : Numeral) : Prop := u.text.length ≤ 15 ∨ u.number = 0

end Numeral

/-- The parameter is found exactly when a pair has the key, its value is copied, and a
number that fits 32 bits is returned. -/
structure ParamExact (r : QueryRequest) (key : List UInt8) : Prop where
  copied : ∀ max, 0 < max → qParam r.text key max = (r.value key).map (List.take (max - 1))
  number : ∀ u : Numeral, r.value key = some u.text → u.Fits → ∀ dflt,
    qInt r.text key dflt = Int.bmod u.number (2 ^ 32)

variable {r : QueryRequest} {key text s q v : List UInt8} {i : ℕ}

theorem matchParam_eq_some : matchParam key s = some q ↔ s = key ++ 61 :: q := by
  fun_induction matchParam key s with
  | case1 cs => simp
  | case2 c cs h =>
    constructor
    · simp
    · intro heq
      simp only [List.nil_append, List.cons.injEq] at heq
      exact absurd heq.1 h
  | case3 k ks cs ih => simpa using ih
  | case4 k ks c cs h =>
    constructor
    · simp
    · intro heq
      simp only [List.cons_append, List.cons.injEq] at heq
      exact absurd heq.1 h
  | case5 => simp

theorem matchParam_nil (key : List UInt8) : matchParam key [] = none := by
  cases key <;> rfl

theorem standsAt_iff : StandsAt key text i ↔ ∃ q, matchParam key (text.drop i) = some q := by
  simp only [StandsAt, List.IsPrefix, List.append_assoc, List.singleton_append]
  exact exists_congr fun q => eq_comm.trans matchParam_eq_some.symm

theorem not_standsAt_iff : ¬ StandsAt key text i ↔ matchParam key (text.drop i) = none := by
  rw [standsAt_iff, ← Option.isSome_iff_exists, Bool.not_eq_true, Option.isSome_eq_false_iff,
    Option.isNone_iff_eq_none]

theorem copyValue_eq (n : ℕ) (q : List UInt8) :
    copyValue n q = (q.takeWhile fun c => c ≠ 38 ∧ c ≠ 32).take n := by
  fun_induction copyValue n q with
  | case1 n c cs h ih => simp [h, ih]
  | case2 n c cs h => simp [h]
  | case3 n q h =>
    cases q with
    | nil => simp
    | cons c cs =>
      cases n with
      | zero => simp
      | succ n => exact (h n c cs rfl rfl).elim

/-- What the scan leaves in `out`. -/
theorem qParam_of_firstAt {max : ℕ} (h : FirstAt (matchParam key) text i q) :
    qParam text key max = some ((valueFrom text (i + key.length + 1)).take (max - 1)) := by
  have hdrop : text.drop (i + key.length + 1) = q := by
    have hq := matchParam_eq_some.mp h.1
    rw [show i + key.length + 1 = i + (key.length + 1) by omega, ← List.drop_drop, hq]
    simp [List.drop_append]
  unfold qParam valueFrom
  rw [scan_of_firstAt (matchParam_nil key) h, hdrop, Option.map_some, copyValue_eq]

theorem qParam_eq_none {max : ℕ} : qParam text key max = none ↔ ∀ i, ¬ StandsAt key text i := by
  unfold qParam
  simp only [Option.map_eq_none_iff, scan_eq_none (matchParam_nil key), not_standsAt_iff]

theorem pairsText_cons (p : List UInt8 × List UInt8) (pairs : List (List UInt8 × List UInt8)) :
    ∃ tail, pairsText (p :: pairs) = pairText p ++ tail ∧
      (pairs = [] ∧ tail = [] ∨ pairs ≠ [] ∧ tail = 38 :: pairsText pairs) := by
  cases pairs with
  | nil => exact ⟨[], by simp [pairsText, List.intercalate], Or.inl ⟨rfl, rfl⟩⟩
  | cons p' pairs =>
    refine ⟨38 :: pairsText (p' :: pairs), ?_, Or.inr ⟨by simp, rfl⟩⟩
    simp [pairsText, List.intercalate]

/-- A pair with the key stands in the text of the pairs, and its value ends at `&` or where
the pairs end. -/
theorem exists_pair {pairs : List (List UInt8 × List UInt8)} (h : firstValue key pairs = some v) :
    ∃ before after, pairsText pairs = before ++ (key ++ 61 :: v ++ after) ∧
      (after = [] ∨ ∃ rest, after = 38 :: rest) := by
  induction pairs with
  | nil => simp [firstValue] at h
  | cons p pairs ih =>
    obtain ⟨tail, htext, htail⟩ := pairsText_cons p pairs
    unfold firstValue at h
    split_ifs at h with hk
    · have hv := Option.some.inj h
      refine ⟨[], tail, ?_, ?_⟩
      · rw [htext, pairText, hk, hv, List.nil_append]
      · rcases htail with ⟨-, ht⟩ | ⟨-, ht⟩
        · exact Or.inl ht
        · exact Or.inr ⟨_, ht⟩
    · obtain ⟨before, after, hpairs, hafter⟩ := ih h
      have hne : pairs ≠ [] := by
        rintro rfl
        simp [firstValue] at h
      have ht : tail = 38 :: pairsText pairs := by
        rcases htail with ⟨hnil, -⟩ | ⟨-, ht⟩
        · exact absurd hnil hne
        · exact ht
      exact ⟨pairText p ++ 38 :: before, after, by simp [htext, ht, hpairs], hafter⟩

theorem valueFrom_of_drop {after : List UInt8} (h : text.drop i = key ++ 61 :: v ++ after)
    (hv : 38 ∉ v ∧ 32 ∉ v) (hafter : ∃ c rest, after = c :: rest ∧ (c = 38 ∨ c = 32)) :
    valueFrom text (i + key.length + 1) = v := by
  obtain ⟨c, rest, rfl, hc⟩ := hafter
  have hclean : ∀ x ∈ v, decide (x ≠ 38 ∧ x ≠ 32) = true := by
    intro x hx
    rw [decide_eq_true_eq]
    exact ⟨fun heq => hv.1 (heq ▸ hx), fun heq => hv.2 (heq ▸ hx)⟩
  have hstop : decide (c ≠ 38 ∧ c ≠ 32) = false := by
    rcases hc with rfl | rfl <;> rfl
  have hdrop : text.drop (i + key.length + 1) = v ++ c :: rest := by
    rw [show i + key.length + 1 = i + (key.length + 1) by omega, ← List.drop_drop, h]
    simp [List.drop_append]
  rw [valueFrom, hdrop, List.takeWhile_append_of_pos hclean, List.takeWhile_cons_of_neg (by simp [hstop]),
    List.append_nil]

theorem firstValue_mem {pairs : List (List UInt8 × List UInt8)}
    (h : firstValue key pairs = some v) : ∃ p ∈ pairs, p.2 = v := by
  induction pairs with
  | nil => simp [firstValue] at h
  | cons p pairs ih =>
    unfold firstValue at h
    split_ifs at h with hk
    · exact ⟨p, by simp, Option.some.inj h⟩
    · obtain ⟨p', hmem, hp'⟩ := ih h
      exact ⟨p', List.mem_cons_of_mem p hmem, hp'⟩

/-- The first pair with the key is a place where its value can be read. -/
theorem exists_standsAt (h : r.value key = some v) :
    ∃ i, StandsAt key r.text i ∧ valueFrom r.text (i + key.length + 1) = v := by
  obtain ⟨before, after, hpairs, hafter⟩ := exists_pair h
  obtain ⟨p, hmem, rfl⟩ := firstValue_mem h
  have hdrop : r.text.drop (r.start ++ before).length =
      key ++ 61 :: p.2 ++ (after ++ 32 :: r.rest) := by
    have htext : r.text = (r.start ++ before) ++ (key ++ 61 :: p.2 ++ (after ++ 32 :: r.rest)) := by
      simp [QueryRequest.text, hpairs]
    rw [htext, List.drop_left]
  have hstop : ∃ c rest, after ++ 32 :: r.rest = c :: rest ∧ (c = 38 ∨ c = 32) := by
    rcases hafter with rfl | ⟨rest, rfl⟩
    · exact ⟨32, r.rest, rfl, Or.inr rfl⟩
    · exact ⟨38, rest ++ 32 :: r.rest, rfl, Or.inl rfl⟩
  have hstands : StandsAt key r.text (r.start ++ before).length := by
    unfold StandsAt
    rw [hdrop]
    exact ⟨p.2 ++ (after ++ 32 :: r.rest), by simp⟩
  exact ⟨_, hstands, valueFrom_of_drop hdrop (r.value_clean p hmem) hstop⟩

/-- A parameter that stands in the text once is answered. -/
theorem answers_of_once (hv : r.value key = some v)
    (honce : ∀ i j, StandsAt key r.text i → StandsAt key r.text j → i = j) : Answers r key := by
  obtain ⟨i, hi, hvalue⟩ := exists_standsAt hv
  unfold Answers
  rw [hv]
  intro j hj _
  rw [honce j i hj hi, hvalue]

theorem exists_first (h : StandsAt key text i) :
    ∃ j q, FirstAt (matchParam key) text j q ∧ StandsAt key text j ∧
      ∀ k < j, ¬ StandsAt key text k := by
  obtain ⟨q, hq⟩ := standsAt_iff.mp h
  obtain ⟨j, z, -, hfirst⟩ := exists_firstAt hq
  exact ⟨j, z, hfirst, standsAt_iff.mpr ⟨z, hfirst.1⟩,
    fun k hk => not_standsAt_iff.mpr (hfirst.2 k hk)⟩

theorem copied_iff : (∀ max, 0 < max →
    qParam r.text key max = (r.value key).map (List.take (max - 1))) ↔ Answers r key := by
  unfold Answers
  cases hv : r.value key with
  | none =>
    simp only [Option.map_none, qParam_eq_none]
    exact ⟨fun h => h 1 one_pos, fun h _ _ => h⟩
  | some v =>
    obtain ⟨i, hi, -⟩ := exists_standsAt hv
    obtain ⟨j, q, hfirst, hj, hbefore⟩ := exists_first hi
    constructor
    · intro h k hk hkfirst
      have hkj : k = j := by
        rcases lt_trichotomy k j with hlt | heq | hlt
        · exact absurd hk (hbefore k hlt)
        · exact heq
        · exact absurd hj (hkfirst j hlt)
      subst hkj
      have hmax := h ((valueFrom r.text (k + key.length + 1)).length + v.length + 1) (by omega)
      rw [qParam_of_firstAt hfirst, Option.map_some, Option.some.injEq, List.take_of_length_le,
        List.take_of_length_le] at hmax
      · exact hmax
      · omega
      · omega
    · intro h max _
      rw [qParam_of_firstAt hfirst, h j hj hbefore]
      rfl

theorem decByte_range : ∀ d : Fin 10, 48 ≤ decByte d ∧ decByte d ≤ 57 := by decide

theorem decByte_value : ∀ d : Fin 10, (decByte d).toNat - 48 = d := by decide

theorem ofNat_shift_or (n d : ℕ) (hd : d < 16) :
    BitVec.ofNat 32 n <<< 4 ||| BitVec.ofNat 32 d = BitVec.ofNat 32 (n * 16 + d) := by
  have hshift : BitVec.ofNat 32 n <<< 4 = BitVec.ofNat 32 (n <<< 4) := by
    apply BitVec.eq_of_toNat_eq
    simp [Nat.shiftLeft_eq, Nat.mod_mul_mod]
  rw [hshift, ← BitVec.ofNat_or, ← Nat.shiftLeft_add_eq_or_of_lt (by omega), Nat.shiftLeft_eq]

theorem readDecimal_map (n : ℕ) (ds : List (Fin 10)) :
    readDecimal (BitVec.ofNat 32 n) (ds.map decByte) =
      BitVec.ofNat 32 (horner 10 n (ds.map Fin.val)) := by
  induction ds generalizing n with
  | nil => rfl
  | cons d ds ih =>
    have hstep : BitVec.ofNat 32 n * 10 + BitVec.ofNat 32 d = BitVec.ofNat 32 (n * 10 + d) := by
      rw [BitVec.ofNat_add, BitVec.ofNat_mul]
      rfl
    rw [List.map_cons, List.map_cons, readDecimal, if_pos (decByte_range d), decByte_value, hstep,
      ih, horner]

/-- The three ranges of digits are told apart, and each gives its digit. -/
theorem readHex_cons (n : BitVec 32) (d : Fin 16 × Bool) (cs : List UInt8) :
    readHex n (hexByte d :: cs) = readHex (n <<< 4 ||| BitVec.ofNat 32 d.1) cs := by
  obtain ⟨d, upper⟩ := d
  fin_cases d <;> cases upper <;> rfl

theorem readHex_map (n : ℕ) (ds : List (Fin 16 × Bool)) :
    readHex (BitVec.ofNat 32 n) (ds.map hexByte) =
      BitVec.ofNat 32 (horner 16 n (ds.map fun d => d.1.val)) := by
  induction ds generalizing n with
  | nil => rfl
  | cons d ds ih =>
    rw [List.map_cons, List.map_cons, readHex_cons, ofNat_shift_or n d.1 d.1.isLt, ih, horner]

/-- The text after the sign. -/
def Numeral.body : Numeral → List UInt8
  | .decimal _ ds => ds.map decByte
  | .hex _ upper ds => 48 :: (if upper then 88 else 120) :: ds.map hexByte

theorem Numeral.text_eq (u : Numeral) : u.text = signText u.negative ++ u.body := by
  cases u <;> rfl

theorem readMagnitude_body (u : Numeral) : readMagnitude u.body = BitVec.ofNat 32 u.magnitude := by
  cases u with
  | decimal neg ds =>
    have hread : readMagnitude (ds.map decByte) = readDecimal 0 (ds.map decByte) := by
      match ds with
      | [] => rfl
      | [d] =>
        unfold readMagnitude
        split
        · rename_i heq
          simp at heq
        · rfl
      | d :: d' :: ds =>
        have hletter : ¬ (decByte d' = 120 ∨ decByte d' = 88) := by
          revert d'
          decide
        unfold readMagnitude
        split
        · rename_i x digits heq
          simp only [List.map_cons, List.cons.injEq] at heq
          rw [if_neg (heq.2.1 ▸ hletter)]
        · rfl
    exact hread.trans (readDecimal_map 0 ds)
  | hex neg upper ds =>
    have hletter : (if upper then (88 : UInt8) else 120) = 120 ∨
        (if upper then (88 : UInt8) else 120) = 88 := by
      cases upper <;> simp
    simp only [Numeral.body, readMagnitude, if_pos hletter]
    exact readHex_map 0 ds

theorem Numeral.body_head (u : Numeral) : u.body.head? ≠ some 45 := by
  cases u with
  | decimal neg ds =>
    cases ds with
    | nil => simp [Numeral.body]
    | cons d ds =>
      simp only [Numeral.body, List.map_cons, List.head?_cons, ne_eq, Option.some.injEq]
      revert d
      decide
  | hex neg upper ds => simp [Numeral.body]

theorem readNumber_of_head (h : v.head? ≠ some 45) : readNumber v = (readMagnitude v).toInt := by
  unfold readNumber
  split
  · simp at h
  · rfl

theorem readNumber_text (u : Numeral) : readNumber u.text = Int.bmod u.number (2 ^ 32) := by
  rw [Numeral.text_eq]
  unfold Numeral.number signText
  cases u.negative with
  | true =>
    simp only [if_true, List.singleton_append, readNumber, readMagnitude_body,
      BitVec.toInt_neg, BitVec.toInt_ofNat', Int.bmod_neg_bmod]
  | false =>
    simp only [Bool.false_eq_true, if_false, List.nil_append, readNumber_of_head u.body_head,
      readMagnitude_body, BitVec.toInt_ofNat']

/-- The numeral with the digits that fit into `n` bytes of text. -/
def Numeral.cut (n : ℕ) : Numeral → Numeral
  | .decimal neg ds => .decimal neg (ds.take (n - (signText neg).length))
  | .hex neg upper ds => .hex neg upper (ds.take (n - (signText neg).length - 2))

theorem Numeral.cut_text (u : Numeral) : (u.cut 15).text = u.text.take 15 := by
  cases u with
  | decimal neg ds => cases neg <;> simp [Numeral.cut, Numeral.text, signText]
  | hex neg upper ds => cases neg <;> simp [Numeral.cut, Numeral.text, signText]

@[simp] theorem Numeral.cut_negative (n : ℕ) (u : Numeral) : (u.cut n).negative = u.negative := by
  cases u <;> rfl

theorem Numeral.cut_magnitude_le (n : ℕ) (u : Numeral) : (u.cut n).magnitude ≤ u.magnitude := by
  cases u with
  | decimal neg ds =>
    simp only [Numeral.cut, Numeral.magnitude, List.map_take]
    exact horner_take_le (by omega) _ _
  | hex neg upper ds =>
    simp only [Numeral.cut, Numeral.magnitude, List.map_take]
    exact horner_take_le (by omega) _ _

theorem signText_length_le (neg : Bool) : (signText neg).length ≤ 1 := by
  cases neg <;> simp [signText]

theorem Numeral.cut_magnitude_lt (u : Numeral) (h : 15 < u.text.length) (hpos : 0 < u.magnitude) :
    (u.cut 15).magnitude < u.magnitude := by
  cases u with
  | decimal neg ds =>
    have hsign := signText_length_le neg
    simp only [Numeral.cut, Numeral.magnitude, List.map_take]
    apply horner_take (by omega) _ hpos
    simp only [Numeral.text, List.length_append, List.length_map] at h ⊢
    omega
  | hex neg upper ds =>
    have hsign := signText_length_le neg
    simp only [Numeral.cut, Numeral.magnitude, List.map_take]
    apply horner_take (by omega) _ hpos
    simp only [Numeral.text, List.length_append, List.length_cons, List.length_map] at h ⊢
    omega

theorem Numeral.cut_of_le (u : Numeral) (h : u.text.length ≤ 15) : u.cut 15 = u := by
  cases u with
  | decimal neg ds =>
    simp only [Numeral.text, List.length_append, List.length_map] at h
    rw [Numeral.cut, List.take_of_length_le (by omega)]
  | hex neg upper ds =>
    simp only [Numeral.text, List.length_append, List.length_cons, List.length_map] at h
    rw [Numeral.cut, List.take_of_length_le (by omega)]

theorem bmod_ne_of_close {a b : ℤ} (hne : a ≠ b) (hlt : a - b < 2 ^ 32) (hgt : b - a < 2 ^ 32) :
    Int.bmod a (2 ^ 32) ≠ Int.bmod b (2 ^ 32) := by
  simp only [Int.bmod_def, Nat.cast_pow, Nat.cast_ofNat]
  split_ifs <;> omega

/-- The numeral that is left is read as the same number when it is short, and only then. -/
theorem Numeral.cut_number_iff (u : Numeral) (hfits : u.Fits) :
    Int.bmod (u.cut 15).number (2 ^ 32) = Int.bmod u.number (2 ^ 32) ↔ u.Short := by
  have hle := u.cut_magnitude_le 15
  constructor
  · intro h
    by_contra hshort
    unfold Numeral.Short at hshort
    push Not at hshort
    obtain ⟨hlong, hnum⟩ := hshort
    have hpos : 0 < u.magnitude := by
      rw [Nat.pos_iff_ne_zero]
      intro hzero
      simp [Numeral.number, hzero] at hnum
    have hlt := u.cut_magnitude_lt hlong hpos
    unfold Numeral.Fits at hfits
    apply bmod_ne_of_close _ _ _ h
    all_goals
      simp only [Numeral.number, Numeral.cut_negative] at hfits ⊢
      split_ifs at hfits ⊢ <;> omega
  · rintro (hlen | hzero)
    · rw [u.cut_of_le hlen]
    · have hmag : u.magnitude = 0 := by
        simp only [Numeral.number] at hzero
        split_ifs at hzero <;> omega
      have hcut : (u.cut 15).magnitude = 0 := by omega
      simp [Numeral.number, hmag, hcut]

/-- The key is asked for where nothing comes before its own pair, and its numbers are
short. -/
theorem qInt_iff (h : Answers r key) (u : Numeral) (hvalue : r.value key = some u.text)
    (hfits : u.Fits) (dflt : ℤ) :
    qInt r.text key dflt = Int.bmod u.number (2 ^ 32) ↔ u.Short := by
  have hparam := copied_iff.mpr h 16 (by omega)
  rw [hvalue, Option.map_some, show 16 - 1 = 15 from rfl, ← u.cut_text] at hparam
  unfold qInt
  rw [hparam]
  show readNumber (u.cut 15).text = _ ↔ _
  rw [readNumber_text, u.cut_number_iff hfits]

/-- Where the first place of the key in the text reads as its first pair does, or there is
no such pair and no such place, and where a number fits the 16 bytes. -/
theorem paramExact_iff (r : QueryRequest) (key : List UInt8) : ParamExact r key ↔
    Answers r key ∧ ∀ u : Numeral, r.value key = some u.text → u.Fits → u.Short := by
  constructor
  · intro h
    have hanswers := copied_iff.mp h.copied
    exact ⟨hanswers, fun u hu hfits => (qInt_iff hanswers u hu hfits 0).mp (h.number u hu hfits 0)⟩
  · rintro ⟨hanswers, hshort⟩
    exact ⟨copied_iff.mpr hanswers,
      fun u hu hfits dflt => (qInt_iff hanswers u hu hfits dflt).mpr (hshort u hu hfits)⟩

/-- `GET /send?from=5&m=x HTTP/1.0` -/
def sendRequest : QueryRequest where
  method := [71, 69, 84]
  path := [47, 115, 101, 110, 100]
  pairs := [([102, 114, 111, 109], [53]), ([109], [120])]
  rest := [72, 84, 84, 80, 47, 49, 46, 48, 13, 10, 13, 10]
  method_clean := by decide
  path_clean := by decide
  key_clean := by decide
  value_clean := by decide
  no_nul := by decide

/-- The value of `from` is taken for that of `m`. -/
theorem param_of_longer_key : ¬ ∀ (r : QueryRequest) (key : List UInt8), ParamExact r key := by
  intro h
  have hcopied := (h sendRequest [109]).copied 32 (by decide)
  revert hcopied
  decide

end XinuRpi4.Net
