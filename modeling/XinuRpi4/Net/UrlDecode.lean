import XinuRpi4.Foundation.TextBuffer
import XinuRpi4.Net.Tcp
import XinuRpi4.Net.QueryParam

/-!
# Percent-encoded text

What `url_decode` makes of an encoded text: the string that was encoded, up to the room of
the buffer. The text is that of any encoder, which escapes a byte or leaves it as it is.
-/

namespace XinuRpi4.Net

open XinuRpi4.Foundation

/-- The `int` that one digit of an escape gives. -/
def hexDigit (c : UInt8) : BitVec 32 :=
  if c ≤ 57 then BitVec.ofNat 32 c.toNat - 48 else BitVec.ofNat 32 (lc c).toNat - 97 + 10

/-- `(char)((hi << 4) | lo)` -/
def escapedByte (hi lo : UInt8) : UInt8 :=
  UInt8.ofBitVec ((hexDigit hi <<< 4 ||| hexDigit lo).setWidth 8)

/-- The loop of `url_decode`: what is left to read, and the buffer with `o` bytes in it. -/
def urlDecodeLoop (max : ℕ) : List UInt8 → (ℕ → UInt8) → ℕ → (ℕ → UInt8) × ℕ
  | [], out, o => (Function.update out o 0, o)
  | c :: cs, out, o =>
    if o < max - 1 then
      if c = 43 then urlDecodeLoop max cs (Function.update out o 32) (o + 1)
      else
        match cs with
        | hi :: lo :: rest =>
          if c = 37 then
            urlDecodeLoop max rest (Function.update out o (escapedByte hi lo)) (o + 1)
          else urlDecodeLoop max (hi :: lo :: rest) (Function.update out o c) (o + 1)
        | cs => urlDecodeLoop max cs (Function.update out o c) (o + 1)
    else (Function.update out o 0, o)

/-- The buffer afterwards, and the length returned. -/
def urlDecode (text : List UInt8) (out : ℕ → UInt8) (max : ℕ) : (ℕ → UInt8) × ℕ :=
  urlDecodeLoop max text out 0

/-- What an encoder makes of a byte. -/
inductive Escape
  | plain
  | plus
  /-- Each digit with whether its letter is upper case. -/
  | percent (upperHi upperLo : Bool)

namespace Escape

/-- The encoder may do so with the byte `c`. -/
def Ok : Escape → UInt8 → Prop
  | plain, c => c ≠ 43 ∧ c ≠ 37
  | plus, c => c = 32
  | percent _ _, _ => True

instance : ∀ (e : Escape) (c : UInt8), Decidable (e.Ok c)
  | plain, c => inferInstanceAs (Decidable (c ≠ 43 ∧ c ≠ 37))
  | plus, c => inferInstanceAs (Decidable (c = 32))
  | percent _ _, _ => isTrue trivial

def hiDigit (c : UInt8) : Fin 16 := Fin.ofNat 16 (c.toNat / 16)

def loDigit (c : UInt8) : Fin 16 := Fin.ofNat 16 c.toNat

def text : Escape → UInt8 → List UInt8
  | plain, c => [c]
  | plus, _ => [43]
  | percent upperHi upperLo, c => [37, hexByte (hiDigit c, upperHi), hexByte (loDigit c, upperLo)]

end Escape

/-- A string, with what an encoder makes of each of its bytes. -/
structure EncodedString where
  bytes : List (UInt8 × Escape)
  no_nul : ∀ b ∈ bytes, b.1 ≠ 0
  ok : ∀ b ∈ bytes, b.2.Ok b.1

namespace EncodedString

variable (e : EncodedString)

def original : List UInt8 := e.bytes.map Prod.fst

def text : List UInt8 := e.bytes.flatMap fun b => b.2.text b.1

end EncodedString

theorem hexDigit_hexByte : ∀ d : Fin 16 × Bool, hexDigit (hexByte d) = BitVec.ofNat 32 d.1 := by
  decide

theorem escapedByte_hexByte (c : UInt8) (upperHi upperLo : Bool) :
    escapedByte (hexByte (Escape.hiDigit c, upperHi)) (hexByte (Escape.loDigit c, upperLo)) = c := by
  have hlt := c.toNat_lt
  unfold escapedByte
  rw [hexDigit_hexByte, hexDigit_hexByte, ofNat_shift_or _ _ (Escape.loDigit c).isLt]
  have hdigits : (Escape.hiDigit c : ℕ) * 16 + (Escape.loDigit c : ℕ) = c.toNat := by
    simp only [Escape.hiDigit, Escape.loDigit, Fin.ofNat]
    omega
  rw [hdigits]
  apply UInt8.toNat_inj.mp
  simp

/-- One byte is decoded, as long as there is room. -/
theorem urlDecodeLoop_escape {e : Escape} {c : UInt8} (he : e.Ok c) (max : ℕ) (rest : List UInt8)
    (out : ℕ → UInt8) (o : ℕ) :
    urlDecodeLoop max (e.text c ++ rest) out o =
      if o < max - 1 then urlDecodeLoop max rest (Function.update out o c) (o + 1)
      else (Function.update out o 0, o) := by
  cases e with
  | plain =>
    obtain ⟨hplus, hpercent⟩ := he
    -- the loop looks two bytes ahead before it tests for `%`
    rcases rest with _ | ⟨hi, _ | ⟨lo, rest⟩⟩
    · simp [Escape.text, urlDecodeLoop, hplus]
    · simp [Escape.text, urlDecodeLoop, hplus]
    · simp [Escape.text, urlDecodeLoop, hplus, hpercent]
  | plus =>
    obtain rfl : c = 32 := he
    rcases rest with _ | ⟨hi, _ | ⟨lo, rest⟩⟩
    · simp [Escape.text, urlDecodeLoop]
    · simp [Escape.text, urlDecodeLoop]
    · simp [Escape.text, urlDecodeLoop]
  | percent upperHi upperLo =>
    have hne : ¬ (37 : UInt8) = 43 := by decide
    simp only [Escape.text, List.cons_append, List.nil_append, urlDecodeLoop, if_neg hne, if_pos,
      escapedByte_hexByte]

theorem urlDecodeLoop_eq (bytes : List (UInt8 × Escape)) (hok : ∀ b ∈ bytes, b.2.Ok b.1) (max : ℕ)
    (out : ℕ → UInt8) (o : ℕ) :
    urlDecodeLoop max (bytes.flatMap fun b => b.2.text b.1) out o =
      (fill out o ((bytes.map Prod.fst).take (max - 1 - o) ++ [0]),
        o + ((bytes.map Prod.fst).take (max - 1 - o)).length) := by
  induction bytes generalizing out o with
  | nil => simp [urlDecodeLoop, fill]
  | cons b bytes ih =>
    obtain ⟨hb, hrest⟩ := List.forall_mem_cons.mp hok
    rw [List.flatMap_cons, urlDecodeLoop_escape hb]
    split_ifs with hroom
    · obtain ⟨k, hk⟩ : ∃ k, max - 1 - o = k + 1 := ⟨max - 1 - o - 1, by omega⟩
      rw [ih hrest, hk, show max - 1 - (o + 1) = k by omega, List.map_cons, List.take_succ_cons,
        List.length_cons]
      exact Prod.ext rfl (by dsimp only; omega)
    · rw [show max - 1 - o = 0 by omega, List.take_zero]
      rfl

/-- For every string and every encoding of it, the buffer gets as much of the string as fits,
with its NUL, and nothing behind the buffer is written. -/
theorem urlDecode_encoded (e : EncodedString) (out : ℕ → UInt8) (max : ℕ) (hmax : 0 < max) :
    (urlDecode e.text out max).2 = (e.original.take (max - 1)).length ∧
      HoldsString out (urlDecode e.text out max).1 max (e.original.take (max - 1)) := by
  have hrun := urlDecodeLoop_eq e.bytes e.ok max out 0
  rw [Nat.sub_zero, Nat.zero_add] at hrun
  have hlen : (e.original.take (max - 1)).length ≤ max - 1 := List.length_take_le _ _
  have hbuf : (urlDecode e.text out max).1 = fill out 0 (e.original.take (max - 1) ++ [0]) :=
    congrArg Prod.fst hrun
  refine ⟨congrArg Prod.snd hrun, ?_⟩
  rw [hbuf]
  exact holdsString_fill out (by omega)

/-- `a %` as `a+%25` -/
def spaceAndPercent : EncodedString where
  bytes := [(97, .plain), (32, .plus), (37, .percent false true)]
  no_nul := by decide
  ok := by decide

theorem urlDecode_spaceAndPercent :
    spaceAndPercent.text = [97, 43, 37, 50, 53] ∧
      (urlDecode spaceAndPercent.text (fun _ => 7) 4).2 = 3 ∧
      HoldsString (fun _ => 7) (urlDecode spaceAndPercent.text (fun _ => 7) 4).1 4 [97, 32, 37] ∧
      HoldsString (fun _ => 7) (urlDecode spaceAndPercent.text (fun _ => 7) 3).1 3 [97, 32] := by
  have hall := urlDecode_encoded spaceAndPercent (fun _ => 7) 4 (by decide)
  have hshort := urlDecode_encoded spaceAndPercent (fun _ => 7) 3 (by decide)
  exact ⟨by decide, hall.1, hall.2, hshort.2⟩

end XinuRpi4.Net
