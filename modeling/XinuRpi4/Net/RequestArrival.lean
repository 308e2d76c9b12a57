import XinuRpi4.Foundation.ByteWords
import XinuRpi4.Foundation.Scan
import XinuRpi4.Net.Handover

/-!
# Requests that arrive in segments

A request is complete when its header has arrived and, for a POST, as many bytes of the
body as its Content-Length field says. The server looks for the name of the field anywhere
in the text that has arrived, and adds its digits up in an `int`.
-/

namespace XinuRpi4.Net

open XinuRpi4.Foundation

def crlf : List UInt8 := [13, 10]

/-- A byte that can stand in a line. -/
def InLine (l : List UInt8) : Prop := 13 ∉ l ∧ 10 ∉ l ∧ 0 ∉ l

def isDigit (c : UInt8) : Bool := 48 ≤ c && c ≤ 57

/-- The number that digits at the start of a text make. -/
def leadingNumber (s : List UInt8) : Option ℕ :=
  match s.takeWhile isDigit with
  | [] => none
  | d :: ds => some (horner 10 0 ((d :: ds).map fun c => c.toNat - 48))

/-- The number a field has for its value, with spaces and tabs around it. -/
def fieldNumber (value : List UInt8) : Option ℕ :=
  let trimmed := value.dropWhile fun c => c == 32 || c == 9
  if (trimmed.dropWhile isDigit).all fun c => c == 32 || c == 9 then leadingNumber trimmed
  else none

structure HeaderField where
  name : List UInt8
  value : List UInt8

namespace HeaderField

def text (f : HeaderField) : List UInt8 := f.name ++ 58 :: f.value

/-- The field is Content-Length, in any case. -/
def IsLength (f : HeaderField) : Prop := f.name.map lc ++ [58] = contentLengthKey

instance (f : HeaderField) : Decidable f.IsLength := inferInstanceAs (Decidable (_ = _))

end HeaderField

/-- The number of the first Content-Length field. -/
def fieldLength : List HeaderField → Option ℕ
  | [] => none
  | f :: fields => if f.IsLength then fieldNumber f.value else fieldLength fields

/-- A request line, the fields of the header, and the body. -/
structure HttpRequest where
  method : List UInt8
  target : List UInt8
  version : List UInt8
  fields : List HeaderField
  body : List UInt8
  line_clean : InLine method ∧ InLine target ∧ InLine version
  method_word : 32 ∉ method
  field_clean : ∀ f ∈ fields, InLine f.name ∧ 58 ∉ f.name ∧ InLine f.value
  length_number : ∀ f ∈ fields, f.IsLength → fieldNumber f.value ≠ none

namespace HttpRequest

variable (r : HttpRequest)

def requestLine : List UInt8 := r.method ++ 32 :: r.target ++ 32 :: r.version

def lines : List (List UInt8) := r.requestLine :: r.fields.map HeaderField.text

/-- The lines with what ends each but the last one. -/
def head : List UInt8 := List.intercalate crlf r.lines

def header : List UInt8 := r.head ++ crlf ++ crlf

def text : List UInt8 := r.header ++ r.body

def length : Option ℕ := fieldLength r.fields

def IsPost : Prop := r.method = [80, 79, 83, 84]

/-- The header is there, and of the body of a POST as much as its length says. -/
def Arrived (n : ℕ) : Prop :=
  r.header.length ≤ n ∧ (r.IsPost → ∀ l, r.length = some l → l ≤ n - r.header.length)

end HttpRequest

/-- The request is complete exactly when it has arrived, and its length is that of the
field, after every segment. -/
structure CompletesExactly (r : HttpRequest) : Prop where
  complete : ∀ segs : List (List UInt8), segs.flatten = r.text → ∀ k,
    (requestComplete (beforeNul (segs.take k).flatten) (segs.take k).flatten.length = true ↔
      r.Arrived (segs.take k).flatten.length)
  length : ∀ segs : List (List UInt8), segs.flatten = r.text → ∀ k,
    r.header.length ≤ (segs.take k).flatten.length →
      contentLength (beforeNul (segs.take k).flatten) = r.length.elim (-1) Nat.cast

/-- The name of the field stands at position `i`, in any case. -/
def LengthAt (s : List UInt8) (i : ℕ) : Prop := contentLengthKey <+: (s.drop i).map lc

def FirstLength (s : List UInt8) (i : ℕ) : Prop := LengthAt s i ∧ ∀ j < i, ¬ LengthAt s j

/-- The number that follows, after spaces. -/
def numberFrom (s : List UInt8) : Option ℕ := leadingNumber (s.dropWhile (· == 32))

/-- The number after the name that stands at position `i`. -/
def numberAt (s : List UInt8) (i : ℕ) : Option ℕ :=
  numberFrom (s.drop (i + contentLengthKey.length))

/-- What follows the first `content-length:` of the header is the number of the field, and
below 2^31. Without a field no number follows there, unless the `int` becomes -1, and none
follows in the body where the header has no such text. -/
def ReadsField (r : HttpRequest) : Prop :=
  match r.length with
  | some l => l < 2 ^ 31 ∧ ∃ i m, FirstLength r.head i ∧ numberAt r.head i = some m ∧
      m % 2 ^ 32 = l
  | none => (∀ i m, FirstLength r.head i → numberAt r.head i = some m →
        m % 2 ^ 32 = 2 ^ 32 - 1) ∧
      ((∀ i, ¬ LengthAt r.head i) → ∀ i, FirstLength (beforeNul r.body) i →
        numberAt (beforeNul r.body) i = none)

/-- No longer word that starts with POST is the method of a request with a body. -/
def PostOrNot (r : HttpRequest) : Prop :=
  r.IsPost ∨ ¬ [80, 79, 83, 84] <+: r.method ∨ r.length = none ∨ r.length = some 0

variable {s q u t : List UInt8} {ks : List UInt8} {i n : ℕ} {r : HttpRequest}

theorem matchKey_eq_some : matchKey ks s = some q ↔ ks <+: s.map lc ∧ q = s.drop ks.length := by
  fun_induction matchKey ks s with
  | case1 s => simp [eq_comm]
  | case2 k ks => simp
  | case3 ks c cs ih => simpa using ih
  | case4 k ks c cs hne =>
    simp only [List.map_cons, List.cons_prefix_cons, reduceCtorEq, false_iff, not_and]
    exact fun h => absurd h.1.symm hne

theorem lengthAt_iff : LengthAt s i ↔ ∃ q, matchKey contentLengthKey (s.drop i) = some q := by
  simp [LengthAt, matchKey_eq_some]

theorem not_lengthAt_iff : ¬ LengthAt s i ↔ matchKey contentLengthKey (s.drop i) = none := by
  rw [lengthAt_iff, ← Option.isSome_iff_exists, Bool.not_eq_true, Option.isSome_eq_false_iff,
    Option.isNone_iff_eq_none]

/-- The first place of the name, and what the scan goes on with. -/
theorem firstLength_iff : FirstLength s i ↔
    FirstAt (matchKey contentLengthKey) s i (s.drop (i + contentLengthKey.length)) := by
  unfold FirstLength FirstAt
  simp only [not_lengthAt_iff]
  refine and_congr ?_ Iff.rfl
  rw [matchKey_eq_some, List.drop_drop]
  simp [LengthAt]

theorem scan_of_firstLength (h : FirstLength s i) :
    scan (matchKey contentLengthKey) s = some (s.drop (i + contentLengthKey.length)) :=
  scan_of_firstAt rfl (firstLength_iff.mp h)

theorem exists_firstLength (h : scan (matchKey contentLengthKey) s = some q) :
    ∃ i, FirstLength s i ∧ q = s.drop (i + contentLengthKey.length) := by
  obtain ⟨i, hi⟩ := (scan_eq_some rfl).mp h
  have hq : q = s.drop (i + contentLengthKey.length) := by
    rw [(matchKey_eq_some.mp hi.1).2, List.drop_drop]
  exact ⟨i, firstLength_iff.mpr (hq ▸ hi), hq⟩

theorem scan_none_iff : scan (matchKey contentLengthKey) s = none ↔ ∀ i, ¬ LengthAt s i := by
  rw [scan_eq_none rfl]
  simp only [not_lengthAt_iff]

/-- The name has no line end in it, so that a match ends in the line where it starts. -/
theorem matchKey_append (hks : 13 ∉ ks) (u t : List UInt8) :
    matchKey ks (u ++ 13 :: t) = (matchKey ks u).map (· ++ 13 :: t) := by
  fun_induction matchKey ks u with
  | case1 u => simp [matchKey]
  | case2 k ks =>
    have hk : lc 13 ≠ k := fun h => hks (by simp [← h, lc])
    simp [matchKey, hk]
  | case3 ks c cs ih => simpa [matchKey] using ih fun h => hks (by simp [h])
  | case4 k ks c cs hne => simp [matchKey, hne]

theorem scan_append (u t : List UInt8) : scan (matchKey contentLengthKey) (u ++ 13 :: t) =
    match scan (matchKey contentLengthKey) u with
    | some q => some (q ++ 13 :: t)
    | none => scan (matchKey contentLengthKey) t := by
  induction u with
  | nil => rfl
  | cons c u ih =>
    have hkey : 13 ∉ contentLengthKey := by decide
    have hmatch := matchKey_append hkey (c :: u) t
    rw [List.cons_append] at hmatch ⊢
    rw [scan_cons, scan_cons, hmatch]
    cases matchKey contentLengthKey (c :: u) with
    | some q => rfl
    | none => exact ih

theorem digits_eq (n : ℕ) (cs : List UInt8) : digits (Int.bmod n (2 ^ 32)) cs =
    Int.bmod (horner 10 n ((cs.takeWhile isDigit).map fun c => c.toNat - 48)) (2 ^ 32) := by
  induction cs generalizing n with
  | nil => rfl
  | cons c cs ih =>
    unfold digits
    by_cases hc : 48 ≤ c ∧ c ≤ 57
    · have hdigit : isDigit c = true := by simpa [isDigit] using hc
      have h48 : 48 ≤ c.toNat := by simpa using UInt8.le_iff_toNat_le.mp hc.1
      have hstep : Int.bmod (Int.bmod n (2 ^ 32) * 10 + (c.toNat - 48)) (2 ^ 32) =
          Int.bmod ((n * 10 + (c.toNat - 48) : ℕ) : ℤ) (2 ^ 32) := by
        have hcast : ((n * 10 + (c.toNat - 48) : ℕ) : ℤ) = n * 10 + (c.toNat - 48) := by
          omega
        rw [hcast, ← Int.bmod_add_bmod (x := Int.bmod n _ * 10), Int.bmod_mul_bmod,
          Int.bmod_add_bmod]
      rw [if_pos hc, hstep, ih, List.takeWhile_cons_of_pos hdigit, List.map_cons, horner]
    · have hdigit : isDigit c = false := by
        simpa [isDigit, Bool.and_eq_false_iff, ← not_and_or] using hc
      rw [if_neg hc, List.takeWhile_cons_of_neg (by simp [hdigit])]
      rfl

/-- What `content_length` returns for the text after the name. -/
def lengthValue (q : List UInt8) : ℤ := (numberFrom q).elim (-1) fun m => Int.bmod m (2 ^ 32)

theorem contentLength_eq (s : List UInt8) :
    contentLength s = (scan (matchKey contentLengthKey) s).elim (-1) lengthValue := by
  induction s with
  | nil => rfl
  | cons c cs ih =>
    rw [contentLength, scan_cons]
    cases matchKey contentLengthKey (c :: cs) with
    | none => exact ih
    | some q =>
      simp only [Option.elim_some, lengthValue, numberFrom, leadingNumber]
      cases q.dropWhile (· == 32) with
      | nil => rfl
      | cons d ds =>
        by_cases hd : 48 ≤ d ∧ d ≤ 57
        · have hdigit : isDigit d = true := by simpa [isDigit] using hd
          have hzero : Int.bmod ((0 : ℕ) : ℤ) (2 ^ 32) = 0 := by simp
          have hvalue := digits_eq 0 (d :: ds)
          rw [hzero, List.takeWhile_cons_of_pos hdigit] at hvalue
          simp only [if_pos hd, List.takeWhile_cons_of_pos hdigit]
          rw [hvalue, Option.elim_some]
        · have hdigit : isDigit d = false := by
            simpa [isDigit, Bool.and_eq_false_iff, ← not_and_or] using hd
          simp [hd, List.takeWhile_cons_of_neg, hdigit]

theorem takeWhile_append_stop {p : UInt8 → Bool} {c : UInt8} (hc : p c = false)
    (u t : List UInt8) : (u ++ c :: t).takeWhile p = u.takeWhile p := by
  induction u with
  | nil => simp [hc]
  | cons a u ih =>
    cases ha : p a with
    | true => simp [ha, ih]
    | false => simp [ha]

theorem dropWhile_append_stop {p : UInt8 → Bool} {c : UInt8} (hc : p c = false)
    (u t : List UInt8) : (u ++ c :: t).dropWhile p = u.dropWhile p ++ c :: t := by
  induction u with
  | nil => simp [hc]
  | cons a u ih =>
    cases ha : p a with
    | true => simp [ha, ih]
    | false => simp [ha]

/-- A number ends with its line. -/
theorem numberFrom_append (u t : List UInt8) : numberFrom (u ++ 13 :: t) = numberFrom u := by
  unfold numberFrom leadingNumber
  rw [dropWhile_append_stop (by decide), takeWhile_append_stop (by decide)]

theorem startsWith_iff {p : List UInt8} : startsWith s p = true ↔ p <+: s :=
  List.isPrefixOf_iff_prefix

theorem findHeaderEnd_le {e : ℕ} (h : findHeaderEnd s i = some e) :
    4 ≤ s.length ∧ e ≤ i + s.length := by
  fun_induction findHeaderEnd s i with
  | case1 => simp at h
  | case2 c cs i hstart =>
    have hlen := (startsWith_iff.mp hstart).length_le
    have he := Option.some.inj h
    simp only [List.length_cons, List.length_nil] at hlen ⊢
    omega
  | case3 c cs i hstart ih =>
    have hle := ih h
    simp only [List.length_cons]
    omega

theorem findHeaderEnd_append {e : ℕ} (h : findHeaderEnd s i = some e) (t : List UInt8) :
    findHeaderEnd (s ++ t) i = some e := by
  fun_induction findHeaderEnd s i with
  | case1 => simp at h
  | case2 c cs i hstart =>
    have hmore : startsWith (c :: (cs ++ t)) [13, 10, 13, 10] = true :=
      startsWith_iff.mpr ((startsWith_iff.mp hstart).trans (List.prefix_append (c :: cs) t))
    rw [List.cons_append, findHeaderEnd, if_pos hmore, h]
  | case3 c cs i hstart ih =>
    have hlen := (findHeaderEnd_le h).1
    have hmore : ¬ startsWith (c :: (cs ++ t)) [13, 10, 13, 10] = true := by
      intro hmore
      have hpre : [13, 10, 13, 10] <+: c :: cs :=
        List.prefix_of_prefix_length_le (startsWith_iff.mp hmore)
          (List.prefix_append (c :: cs) t) (by simp only [List.length_cons, List.length_nil]; omega)
      exact hstart (startsWith_iff.mpr hpre)
    rw [List.cons_append, findHeaderEnd, if_neg hmore]
    exact ih h

theorem findHeaderEnd_of_no_cr (h : 13 ∉ u) (t : List UInt8) (i : ℕ) :
    findHeaderEnd (u ++ t) i = findHeaderEnd t (i + u.length) := by
  induction u generalizing i with
  | nil => rfl
  | cons c u ih =>
    have hc : ¬ startsWith (c :: (u ++ t)) [13, 10, 13, 10] = true := by
      intro hstart
      have heq := (List.cons_prefix_cons.mp (startsWith_iff.mp hstart)).1
      exact h (by simp [heq])
    rw [List.cons_append, findHeaderEnd, if_neg hc, ih (fun hmem => h (by simp [hmem]))]
    congr 1
    simp only [List.length_cons]
    omega

theorem findHeaderEnd_crlf (h : ¬ crlf <+: t) (i : ℕ) :
    findHeaderEnd (crlf ++ t) i = findHeaderEnd t (i + 2) := by
  have h13 : ¬ startsWith (13 :: 10 :: t) [13, 10, 13, 10] = true := by
    intro hstart
    have hpre := startsWith_iff.mp hstart
    simp only [List.cons_prefix_cons, true_and] at hpre
    exact h (by simpa [crlf, List.cons_prefix_cons] using hpre)
  have h10 : ¬ startsWith (10 :: t) [13, 10, 13, 10] = true := by
    simp [startsWith, List.isPrefixOf]
  rw [crlf, List.cons_append, List.cons_append, List.nil_append, findHeaderEnd, if_neg h13,
    findHeaderEnd, if_neg h10]

theorem intercalate_crlf_cons (l : List UInt8) (ls : List (List UInt8)) :
    ∃ t, List.intercalate crlf (l :: ls) = l ++ t := by
  cases ls with
  | nil => exact ⟨[], by simp [List.intercalate]⟩
  | cons l' ls => exact ⟨crlf ++ List.intercalate crlf (l' :: ls), by simp [List.intercalate]⟩

theorem findHeaderEnd_lines {ls : List (List UInt8)} (hne : ls ≠ [])
    (hls : ∀ l ∈ ls, l ≠ [] ∧ 13 ∉ l) (b : List UInt8) (i : ℕ) :
    findHeaderEnd (List.intercalate crlf ls ++ (crlf ++ (crlf ++ b))) i =
      some (i + (List.intercalate crlf ls).length + 4) := by
  induction ls generalizing i with
  | nil => exact absurd rfl hne
  | cons l ls ih =>
    obtain ⟨hl, h13⟩ := hls l (by simp)
    cases ls with
    | nil =>
      have hsingle : List.intercalate crlf [l] = l := by simp [List.intercalate]
      rw [hsingle, findHeaderEnd_of_no_cr h13]
      simp [crlf, findHeaderEnd, startsWith, List.isPrefixOf]
    | cons l' ls =>
      have hsplit : List.intercalate crlf (l :: l' :: ls) =
          l ++ (crlf ++ List.intercalate crlf (l' :: ls)) := by
        simp [List.intercalate]
      have hrest := ih (by simp) (fun k hk => hls k (List.mem_cons_of_mem l hk))
        (i + l.length + 2)
      have hfirst : ¬ crlf <+: List.intercalate crlf (l' :: ls) ++ (crlf ++ (crlf ++ b)) := by
        obtain ⟨hne', h13'⟩ := hls l' (by simp)
        obtain ⟨t, ht⟩ := intercalate_crlf_cons l' ls
        obtain ⟨c, l'', rfl⟩ := List.exists_cons_of_ne_nil hne'
        intro hpre
        rw [ht, crlf, List.append_assoc, List.cons_append, List.cons_prefix_cons] at hpre
        exact h13' (by simp [hpre.1])
      rw [hsplit, List.append_assoc, List.append_assoc, findHeaderEnd_of_no_cr h13,
        findHeaderEnd_crlf hfirst, hrest]
      congr 1
      simp only [List.length_append, crlf, List.length_cons, List.length_nil]
      omega

namespace HttpRequest

theorem requestLine_clean (r : HttpRequest) : 13 ∉ r.requestLine ∧ 0 ∉ r.requestLine := by
  obtain ⟨hm, ht, hv⟩ := r.line_clean
  simp [requestLine, hm.1, hm.2.2, ht.1, ht.2.2, hv.1, hv.2.2]

theorem lines_clean (r : HttpRequest) : ∀ l ∈ r.lines, l ≠ [] ∧ 13 ∉ l ∧ 0 ∉ l := by
  intro l hl
  simp only [lines, List.mem_cons, List.mem_map] at hl
  rcases hl with rfl | ⟨f, hf, rfl⟩
  · exact ⟨by simp [requestLine], r.requestLine_clean⟩
  · obtain ⟨hn, -, hv⟩ := r.field_clean f hf
    simp [HeaderField.text, hn.1, hn.2.2, hv.1, hv.2.2]

end HttpRequest

theorem mem_intercalate_crlf {c : UInt8} {ls : List (List UInt8)}
    (h : c ∈ List.intercalate crlf ls) : c ∈ crlf ∨ ∃ l ∈ ls, c ∈ l := by
  induction ls with
  | nil => simp [List.intercalate] at h
  | cons l ls ih =>
    cases ls with
    | nil => exact Or.inr ⟨l, by simp, by simpa [List.intercalate] using h⟩
    | cons l' ls =>
      have hsplit : List.intercalate crlf (l :: l' :: ls) =
          l ++ (crlf ++ List.intercalate crlf (l' :: ls)) := by
        simp [List.intercalate]
      rw [hsplit, List.mem_append, List.mem_append] at h
      rcases h with h | h | h
      · exact Or.inr ⟨l, by simp, h⟩
      · exact Or.inl h
      · rcases ih h with h | ⟨k, hk, h⟩
        · exact Or.inl h
        · exact Or.inr ⟨k, List.mem_cons_of_mem l hk, h⟩

namespace HttpRequest

theorem header_no_nul (r : HttpRequest) : 0 ∉ r.header := by
  intro h
  have hhead : (0 : UInt8) ∉ r.head := by
    intro hmem
    rcases mem_intercalate_crlf hmem with hmem | ⟨l, hl, hmem⟩
    · simp [crlf] at hmem
    · exact (r.lines_clean l hl).2.2 hmem
  simp [header, crlf, hhead] at h

theorem header_length (r : HttpRequest) : r.header.length = r.head.length + 4 := by
  simp [header, crlf]

theorem findHeaderEnd_header (r : HttpRequest) (b : List UInt8) :
    findHeaderEnd (r.header ++ b) 0 = some r.header.length := by
  have hne : r.lines ≠ [] := by simp [lines]
  have hlines := findHeaderEnd_lines hne
    (fun l hl => ⟨(r.lines_clean l hl).1, (r.lines_clean l hl).2.1⟩) b 0
  rw [header_length]
  simpa [header, head, crlf] using hlines

/-- No part of the header has a whole header in it. -/
theorem findHeaderEnd_take (r : HttpRequest) (hn : n < r.header.length) :
    findHeaderEnd (r.header.take n) 0 = none := by
  rw [Option.eq_none_iff_forall_ne_some]
  intro e he
  have hle := (findHeaderEnd_le he).2
  have hall := findHeaderEnd_append he (r.header.drop n)
  have hend := r.findHeaderEnd_header []
  rw [List.take_append_drop] at hall
  rw [List.append_nil, hall] at hend
  have heq := Option.some.inj hend
  rw [List.length_take] at hle
  omega

end HttpRequest

theorem beforeNul_append (h : 0 ∉ u) (t : List UInt8) :
    beforeNul (u ++ t) = u ++ beforeNul t := by
  have hall : ∀ x ∈ u, (x != 0) = true := by
    intro x hx
    rw [bne_iff_ne]
    exact fun heq => h (heq ▸ hx)
  exact List.takeWhile_append_of_pos hall

theorem beforeNul_take (s : List UInt8) (n : ℕ) : beforeNul (s.take n) = (beforeNul s).take n := by
  induction s generalizing n with
  | nil => simp [beforeNul]
  | cons c s ih =>
    cases n with
    | zero => simp [beforeNul]
    | succ n =>
      unfold beforeNul at ih ⊢
      by_cases hc : c = 0
      · simp [hc]
      · simp [hc, ih]

/-- What some segments bring is the start of the text, and every start of it can be so
brought. -/
theorem forall_segments {P : List UInt8 → Prop} (s : List UInt8) :
    (∀ segs : List (List UInt8), segs.flatten = s → ∀ k, P (segs.take k).flatten) ↔
      ∀ n ≤ s.length, P (s.take n) := by
  constructor
  · intro h n _
    have hsegs : [s.take n, s.drop n].flatten = s := by simp
    simpa using h [s.take n, s.drop n] hsegs 1
  · rintro h segs rfl k
    have hsplit : segs.flatten = (segs.take k).flatten ++ (segs.drop k).flatten := by
      rw [← List.flatten_append, List.take_append_drop]
    have htake : segs.flatten.take (segs.take k).flatten.length = (segs.take k).flatten := by
      rw [hsplit, List.take_left]
    rw [← htake]
    apply h
    rw [hsplit, List.length_append]
    omega

theorem arrived_before (hn : n < r.header.length) :
    beforeNul (r.text.take n) = r.header.take n := by
  rw [beforeNul_take, HttpRequest.text, beforeNul_append r.header_no_nul,
    List.take_append_of_le_length hn.le]

theorem arrived_after (m : ℕ) : beforeNul (r.text.take (r.header.length + m)) =
    r.header ++ (beforeNul r.body).take m := by
  rw [beforeNul_take, HttpRequest.text, beforeNul_append r.header_no_nul, List.take_append]
  simp

/-- The length is read in the header, or in the body where the header has no such name. -/
theorem contentLength_header (r : HttpRequest) (b : List UInt8) :
    contentLength (r.header ++ b) =
      (scan (matchKey contentLengthKey) r.head).elim (contentLength b) lengthValue := by
  have hsplit : r.header ++ b = r.head ++ 13 :: 10 :: 13 :: 10 :: b := by
    simp [HttpRequest.header, crlf]
  have hblank : scan (matchKey contentLengthKey) (10 :: 13 :: 10 :: b) =
      scan (matchKey contentLengthKey) b := rfl
  rw [contentLength_eq, hsplit, scan_append, hblank]
  cases scan (matchKey contentLengthKey) r.head with
  | none => exact (contentLength_eq b).symm
  | some q => simp [lengthValue, numberFrom_append]

theorem prefix_append_stop {c : UInt8} (hc : c ∉ ks) (u t : List UInt8) :
    ks <+: u ++ c :: t ↔ ks <+: u := by
  induction ks generalizing u with
  | nil => simp
  | cons k ks ih =>
    simp only [List.mem_cons, not_or] at hc
    cases u with
    | nil => simp [List.cons_prefix_cons, Ne.symm hc.1]
    | cons a u => simp [List.cons_prefix_cons, ih hc.2]

theorem startsWith_post (r : HttpRequest) (b : List UInt8) :
    startsWith (r.header ++ b) [80, 79, 83, 84] = true ↔ [80, 79, 83, 84] <+: r.method := by
  obtain ⟨t, ht⟩ := intercalate_crlf_cons r.requestLine (r.fields.map HeaderField.text)
  have hsplit : r.header ++ b =
      r.method ++ 32 :: (r.target ++ 32 :: r.version ++ t ++ crlf ++ crlf ++ b) := by
    rw [HttpRequest.header, HttpRequest.head, HttpRequest.lines, ht]
    simp [HttpRequest.requestLine]
  rw [startsWith_iff, hsplit, prefix_append_stop (by decide)]

theorem bmod_eq_neg_one (m : ℕ) : Int.bmod m (2 ^ 32) = -1 ↔ m % 2 ^ 32 = 2 ^ 32 - 1 := by
  rw [Int.bmod_def, Nat.cast_pow, Nat.cast_ofNat]
  norm_num only
  split_ifs <;> omega

theorem bmod_eq_cast (m l : ℕ) :
    Int.bmod m (2 ^ 32) = l ↔ l < 2 ^ 31 ∧ m % 2 ^ 32 = l := by
  rw [Int.bmod_def, Nat.cast_pow, Nat.cast_ofNat]
  norm_num only
  split_ifs <;> omega

theorem lengthValue_eq_neg_one :
    lengthValue q = -1 ↔ ∀ m, numberFrom q = some m → m % 2 ^ 32 = 2 ^ 32 - 1 := by
  unfold lengthValue
  cases numberFrom q with
  | none => exact ⟨fun _ m h => absurd h (Option.some_ne_none m).symm, fun _ => rfl⟩
  | some m =>
    rw [Option.elim_some, bmod_eq_neg_one]
    exact ⟨fun h k hk => Option.some.inj hk ▸ h, fun h => h m rfl⟩

theorem lengthValue_eq_cast {l : ℕ} : lengthValue q = l ↔
    l < 2 ^ 31 ∧ ∃ m, numberFrom q = some m ∧ m % 2 ^ 32 = l := by
  unfold lengthValue
  cases numberFrom q with
  | none =>
    constructor
    · intro h
      rw [Option.elim_none] at h
      omega
    · rintro ⟨-, m, h, -⟩
      exact absurd h (Option.some_ne_none m).symm
  | some m =>
    rw [Option.elim_some, bmod_eq_cast]
    exact ⟨fun h => ⟨h.1, m, rfl, h.2⟩, fun ⟨h, k, hk, hm⟩ => ⟨h, Option.some.inj hk ▸ hm⟩⟩

theorem numberFrom_spaces (k : ℕ) {d : UInt8} (hd : isDigit d = true) (t : List UInt8) :
    numberFrom (List.replicate k 32 ++ d :: t) = leadingNumber (d :: t) := by
  have hspaces : ∀ c ∈ List.replicate k (32 : UInt8), (c == 32) = true := by
    intro c hc
    rw [List.eq_of_mem_replicate hc]
    rfl
  have hd32 : (d == 32) = false := by
    rw [beq_eq_false_iff_ne]
    rintro rfl
    simp [isDigit] at hd
  unfold numberFrom
  rw [List.dropWhile_append_of_pos hspaces, List.dropWhile_cons_of_neg (by simp [hd32])]

/-- Where a number follows, there are spaces and then a digit. -/
theorem numberFrom_ne_none :
    numberFrom q ≠ none ↔ ∃ k d t, isDigit d = true ∧ q = List.replicate k 32 ++ d :: t := by
  constructor
  · intro h
    unfold numberFrom leadingNumber at h
    cases hdrop : q.dropWhile (· == 32) with
    | nil => simp [hdrop] at h
    | cons d ds =>
      by_cases hd : isDigit d = true
      · have htake : q.takeWhile (· == 32) =
            List.replicate (q.takeWhile (· == 32)).length 32 := by
          rw [List.eq_replicate_iff]
          refine ⟨rfl, ?_⟩
          intro c hc
          simpa using List.all_eq_true.mp List.all_takeWhile c hc
        have hq := List.takeWhile_append_dropWhile (p := (· == 32)) (l := q)
        rw [htake, hdrop] at hq
        exact ⟨_, d, ds, hd, hq.symm⟩
      · rw [hdrop, List.takeWhile_cons_of_neg hd] at h
        simp at h
  · rintro ⟨k, d, t, hd, rfl⟩
    rw [numberFrom_spaces k hd, leadingNumber, List.takeWhile_cons_of_pos hd]
    simp

theorem numberFrom_of_prefix (h : u <+: q) (hq : numberFrom q = none) : numberFrom u = none := by
  by_contra hu
  obtain ⟨k, d, t, hd, rfl⟩ := numberFrom_ne_none.mp hu
  obtain ⟨t', rfl⟩ := h
  exact numberFrom_ne_none.mpr ⟨k, d, t ++ t', hd, by simp⟩ hq

/-- A place of the name in the start of a text is one in the text. -/
theorem lengthAt_take : LengthAt (s.take n) i ↔ LengthAt s i ∧ i + contentLengthKey.length ≤ n := by
  unfold LengthAt
  rw [List.drop_take, List.map_take, List.prefix_take_iff]
  have hlen : 0 < contentLengthKey.length := by decide
  apply and_congr_right
  intro _
  omega

theorem firstLength_take (hn : i + contentLengthKey.length ≤ n) :
    FirstLength (s.take n) i ↔ FirstLength s i := by
  unfold FirstLength
  simp only [lengthAt_take]
  constructor
  · rintro ⟨⟨hi, -⟩, hbefore⟩
    exact ⟨hi, fun j hj hlength => hbefore j hj ⟨hlength, by omega⟩⟩
  · rintro ⟨hi, hbefore⟩
    exact ⟨⟨hi, hn⟩, fun j hj hlength => hbefore j hj hlength.1⟩

/-- With the first digit that arrives the number is there. -/
theorem contentLength_take_iff (s : List UInt8) :
    (∀ n ≤ s.length, contentLength (s.take n) = -1) ↔
      ∀ i, FirstLength s i → numberAt s i = none := by
  constructor
  · intro h i hi
    by_contra hnumber
    obtain ⟨k, d, t, hd, hdrop⟩ := numberFrom_ne_none.mp hnumber
    have hlen := congrArg List.length hdrop
    simp only [List.length_drop, List.length_append, List.length_replicate,
      List.length_cons] at hlen
    have hfirst : FirstLength (s.take (i + contentLengthKey.length + (k + 1))) i :=
      (firstLength_take (by omega)).mpr hi
    have hrest : (s.take (i + contentLengthKey.length + (k + 1))).drop
        (i + contentLengthKey.length) = List.replicate k 32 ++ [d] := by
      rw [List.drop_take, hdrop, List.take_append]
      simp
    have hvalue := h (i + contentLengthKey.length + (k + 1)) (by omega)
    rw [contentLength_eq, scan_of_firstLength hfirst, hrest, Option.elim_some,
      lengthValue_eq_neg_one] at hvalue
    have hdigit := hvalue (d.toNat - 48) (by
      rw [numberFrom_spaces k hd, leadingNumber, List.takeWhile_cons_of_pos hd]
      simp [horner])
    have hlt := d.toNat_lt
    omega
  · intro h n hn
    rw [contentLength_eq]
    cases hscan : scan (matchKey contentLengthKey) (s.take n) with
    | none => rfl
    | some q =>
      obtain ⟨i, hi, rfl⟩ := exists_firstLength hscan
      have hle := (lengthAt_take.mp hi.1).2
      have hnone := h i ((firstLength_take hle).mp hi)
      have hpre : (s.take n).drop (i + contentLengthKey.length) <+:
          s.drop (i + contentLengthKey.length) := by
        rw [List.drop_take]
        exact List.take_prefix _ _
      simp [lengthValue, numberFrom_of_prefix hpre hnone]

/-- The length as it is found after every part of the body. -/
theorem length_iff (r : HttpRequest) :
    (∀ m ≤ r.body.length, contentLength (r.header ++ (beforeNul r.body).take m) =
      r.length.elim (-1) Nat.cast) ↔ ReadsField r := by
  have hbody : (beforeNul r.body).length ≤ r.body.length :=
    (List.takeWhile_prefix _).length_le
  unfold ReadsField
  simp only [contentLength_header]
  cases hscan : scan (matchKey contentLengthKey) r.head with
  | some q =>
    obtain ⟨i, hi, rfl⟩ := exists_firstLength hscan
    have hunique : ∀ j, FirstLength r.head j → j = i := fun j hj =>
      ((firstLength_iff.mp hj).unique (firstLength_iff.mp hi)).1
    cases r.length with
    | none =>
      simp only [Option.elim_some, Option.elim_none]
      constructor
      · intro h
        have hvalue := lengthValue_eq_neg_one.mp (h 0 (by omega))
        refine ⟨?_, fun hno => absurd hi.1 (hno i)⟩
        intro j m hj hm
        exact hvalue m (hunique j hj ▸ hm)
      · rintro ⟨h, -⟩ _ _
        exact lengthValue_eq_neg_one.mpr fun m hm => h i m hi hm
    | some l =>
      simp only [Option.elim_some]
      constructor
      · intro h
        obtain ⟨hl, m, hm, hml⟩ := lengthValue_eq_cast.mp (h 0 (by omega))
        exact ⟨hl, i, m, hi, hm, hml⟩
      · rintro ⟨hl, j, m, hj, hm, hml⟩ _ _
        exact lengthValue_eq_cast.mpr ⟨hl, m, hunique j hj ▸ hm, hml⟩
  | none =>
    have hno := scan_none_iff.mp hscan
    cases r.length with
    | none =>
      simp only [Option.elim_none]
      have hpre : (∀ m ≤ r.body.length, contentLength ((beforeNul r.body).take m) = -1) ↔
          ∀ m ≤ (beforeNul r.body).length, contentLength ((beforeNul r.body).take m) = -1 := by
        constructor
        · exact fun h m hm => h m (by omega)
        · intro h m hm
          have htake := h (min m (beforeNul r.body).length) (by omega)
          rwa [← List.take_take, List.take_length] at htake
      rw [hpre, contentLength_take_iff]
      constructor
      · exact fun h => ⟨fun i m hi _ => absurd hi.1 (hno i), fun _ => h⟩
      · exact fun h => h.2 hno
    | some l =>
      simp only [Option.elim_some, Option.elim_none]
      constructor
      · intro h
        have hempty := h 0 (by omega)
        rw [List.take_zero, contentLength] at hempty
        omega
      · rintro ⟨-, i, m, hi, -⟩
        exact absurd hi.1 (hno i)

theorem requestComplete_header (r : HttpRequest) (b : List UInt8) (m : ℕ) :
    requestComplete (r.header ++ b) (r.header.length + m) = true ↔
      ([80, 79, 83, 84] <+: r.method → contentLength (r.header ++ b) ≤ m) := by
  unfold requestComplete
  rw [r.findHeaderEnd_header]
  by_cases hpost : [80, 79, 83, 84] <+: r.method
  · simp only [(startsWith_post r b).mpr hpost, hpost, if_true, true_implies]
    split_ifs with hneg
    · simp only [true_iff]
      omega
    · simp only [decide_eq_true_eq]
      omega
  · have hnot : ¬ startsWith (r.header ++ b) [80, 79, 83, 84] = true :=
      fun h => hpost ((startsWith_post r b).mp h)
    simp [hnot, hpost]

theorem requestComplete_before (hn : n < r.header.length) :
    requestComplete (r.header.take n) n = false := by
  unfold requestComplete
  rw [r.findHeaderEnd_take hn]

/-- With the length of the field, the test is right for every method but the longer words
that start with POST. -/
theorem complete_iff (r : HttpRequest)
    (hlength : ∀ m ≤ r.body.length, contentLength (r.header ++ (beforeNul r.body).take m) =
      r.length.elim (-1) Nat.cast) :
    (∀ n ≤ r.text.length,
      (requestComplete (beforeNul (r.text.take n)) n = true ↔ r.Arrived n)) ↔ PostOrNot r := by
  have htext : r.text.length = r.header.length + r.body.length := by
    simp [HttpRequest.text]
  have hafter : ∀ m ≤ r.body.length,
      (requestComplete (beforeNul (r.text.take (r.header.length + m))) (r.header.length + m) =
          true ↔ r.Arrived (r.header.length + m)) ↔
        (([80, 79, 83, 84] <+: r.method → ∀ l, r.length = some l → l ≤ m) ↔
          (r.IsPost → ∀ l, r.length = some l → l ≤ m)) := by
    intro m hm
    have hvalue : contentLength (r.header ++ (beforeNul r.body).take m) ≤ m ↔
        ∀ l, r.length = some l → l ≤ m := by
      rw [hlength m hm]
      cases r.length with
      | none =>
        simp only [Option.elim_none, reduceCtorEq, false_implies, implies_true, iff_true]
        omega
      | some l => simp
    have harrived : r.Arrived (r.header.length + m) ↔
        (r.IsPost → ∀ l, r.length = some l → l ≤ m) := by
      simp [HttpRequest.Arrived]
    rw [arrived_after, requestComplete_header, hvalue, harrived]
  constructor
  · intro h
    by_contra hnot
    unfold PostOrNot at hnot
    push Not at hnot
    obtain ⟨hpost, hpre, hsome, hzero⟩ := hnot
    obtain ⟨l, hl⟩ := Option.ne_none_iff_exists'.mp hsome
    have hstart := (hafter 0 (by omega)).mp (h (r.header.length + 0) (by omega))
    have hle := hstart.mpr (fun hp => absurd hp hpost) hpre l hl
    rw [Nat.le_zero.mp hle] at hl
    exact hzero hl
  · intro h n hn
    rcases lt_or_ge n r.header.length with hlt | hge
    · rw [arrived_before hlt, requestComplete_before hlt]
      simp only [Bool.false_eq_true, HttpRequest.Arrived, false_iff, not_and]
      omega
    · obtain ⟨m, rfl⟩ := Nat.exists_eq_add_of_le hge
      rw [hafter m (by omega)]
      rcases h with hpost | hpre | hnone | hzero
      · have hpre : [80, 79, 83, 84] <+: r.method := by
          rw [show r.method = [80, 79, 83, 84] from hpost]
        simp [hpost, hpre]
      · have hpost : ¬ r.IsPost := fun heq => hpre (by rw [show r.method = _ from heq])
        simp [hpost, hpre]
      · simp [hnone]
      · simp [hzero]

/-- What follows the first `content-length:` is the field, and no longer word stands for
POST. -/
theorem completesExactly_iff (r : HttpRequest) :
    CompletesExactly r ↔ ReadsField r ∧ PostOrNot r := by
  have htext : r.text.length = r.header.length + r.body.length := by
    simp [HttpRequest.text]
  have hlengths : (∀ n ≤ r.text.length, r.header.length ≤ (r.text.take n).length →
      contentLength (beforeNul (r.text.take n)) = r.length.elim (-1) Nat.cast) ↔
        ReadsField r := by
    rw [← length_iff]
    constructor
    · intro h m hm
      have hvalue := h (r.header.length + m) (by omega) (by rw [List.length_take]; omega)
      rwa [arrived_after] at hvalue
    · intro h n hn hle
      rw [List.length_take] at hle
      obtain ⟨m, rfl⟩ := Nat.exists_eq_add_of_le (show r.header.length ≤ n by omega)
      rw [arrived_after]
      exact h m (by omega)
  have hcomplete : (∀ n ≤ r.text.length,
      (requestComplete (beforeNul (r.text.take n)) (r.text.take n).length = true ↔
        r.Arrived (r.text.take n).length)) ↔
      ∀ n ≤ r.text.length,
        (requestComplete (beforeNul (r.text.take n)) n = true ↔ r.Arrived n) := by
    apply forall_congr'
    intro n
    apply imp_congr_right
    intro hn
    rw [List.length_take, min_eq_left hn]
  have hsegs := forall_segments (P := fun u => requestComplete (beforeNul u) u.length = true ↔
    r.Arrived u.length) r.text
  have hsegs' := forall_segments (P := fun u => r.header.length ≤ u.length →
    contentLength (beforeNul u) = r.length.elim (-1) Nat.cast) r.text
  constructor
  · intro h
    have hfield := hlengths.mp (hsegs'.mp h.length)
    have hpost := hcomplete.mp (hsegs.mp h.complete)
    exact ⟨hfield, (complete_iff r ((length_iff r).mpr hfield)).mp hpost⟩
  · rintro ⟨hfield, hpost⟩
    have hall := (complete_iff r ((length_iff r).mpr hfield)).mpr hpost
    exact ⟨hsegs.mpr (hcomplete.mpr hall), hsegs'.mpr (hlengths.mpr hfield)⟩

/-- `POST` is a word. -/
theorem post_word : (32 : UInt8) ∉ [80, 79, 83, 84] := by decide

/-- `POST /compile HTTP/1.0` with the fields `X-Content-Length: 9` and `Content-Length: 1`,
and one byte of body. -/
def compileRequest : HttpRequest where
  method := [80, 79, 83, 84]
  target := [47, 99, 111, 109, 112, 105, 108, 101]
  version := [72, 84, 84, 80, 47, 49, 46, 48]
  fields := [⟨[88, 45, 67, 111, 110, 116, 101, 110, 116, 45, 76, 101, 110, 103, 116, 104], [32, 57]⟩,
    ⟨[67, 111, 110, 116, 101, 110, 116, 45, 76, 101, 110, 103, 116, 104], [32, 49]⟩]
  body := [120]
  line_clean := by unfold InLine; decide
  method_word := post_word
  field_clean := by unfold InLine; decide
  length_number := by decide

/-- The request has arrived and is waited for. -/
theorem length_of_longer_name : ¬ ∀ r : HttpRequest, CompletesExactly r := by
  intro h
  have hcomplete := (h compileRequest).complete [compileRequest.text] (by simp) 1
  have harrived : compileRequest.Arrived ([compileRequest.text].take 1).flatten.length := by
    constructor
    · decide
    · intro _ l hl
      have hone : compileRequest.length = some 1 := by decide
      rw [hone] at hl
      rw [← Option.some.inj hl]
      decide
  have hwaits : requestComplete (beforeNul ([compileRequest.text].take 1).flatten)
      ([compileRequest.text].take 1).flatten.length = false := by decide
  rw [hwaits] at hcomplete
  exact Bool.false_ne_true (hcomplete.mpr harrived)

end XinuRpi4.Net
