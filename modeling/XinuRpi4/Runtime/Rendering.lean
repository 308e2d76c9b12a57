import Mathlib.Data.Nat.Digits.Lemmas
import XinuRpi4.Runtime.Arithmetic

/-!
# The text of a value

`v_render` writes a value into a buffer; a list that does not fit is cut off. `v_print`
walks the list that it is given itself, and renders the elements only; `v_add` renders all
of it. A write outside of the buffer has no result. Boxed floats are left out.
-/

namespace XinuRpi4.Runtime

/-- A value built from integers, strings and lists. A string is the list of its bytes
before the NUL. -/
inductive Printable
  | int (n : BitVec 63)
  | str (s : List UInt8)
  | list (items : List Printable)

/-- `buf[i++] = c`, with `t` in the buffer so far. -/
def put (cap : ℕ) (t : List UInt8) (c : UInt8) : Option (List UInt8) :=
  if t.length < cap then some (t ++ [c]) else none

/-- `if (i < cap - 1) buf[i++] = c`. -/
def putGuarded (cap : ℕ) (t : List UInt8) (c : UInt8) : Option (List UInt8) :=
  if t.length + 1 < cap then put cap t c else some t

/-- `if (k) { … ',' … ' ' }`. -/
def putSeparator (cap : ℕ) (first : Bool) (t : List UInt8) : Option (List UInt8) :=
  if first then some t else (putGuarded cap t 44).bind (putGuarded cap · 32)

/-- `while (*es && i < cap - 2) buf[i++] = *es++`. -/
def copyText (cap : ℕ) : List UInt8 → List UInt8 → Option (List UInt8)
  | t, [] => some t
  | t, c :: es =>
    if t.length + 2 < cap then (put cap t c).bind fun t => copyText cap t es else some t

/-- `while (u && i >= 0) buf[i--] = '0' + u % 10`, with `room` bytes left before the
text. -/
def digitsDown : ℕ → ℕ → List UInt8 → ℕ × List UInt8
  | 0, _, t => (0, t)
  | room + 1, u, t =>
    if u = 0 then (room + 1, t)
    else digitsDown room (u / 10) ((48 + UInt8.ofNat (u % 10)) :: t)

/-- The integer stands at the end of the buffer. -/
def renderInt (cap : ℕ) (n : ℤ) : Option (List UInt8) :=
  match cap with
  | 0 => none
  | room + 1 =>
    if n = 0 then if room = 0 then none else some [48]
    else
      let (room, t) := digitsDown room n.natAbs []
      if n < 0 ∧ 0 < room then some (45 :: t) else some t

mutual

/-- `v_render`. -/
def vRender : ℕ → Printable → Option (List UInt8)
  | cap, .int n => renderInt cap n.toInt
  | _, .str s => some s
  | cap, .list items => do
    let t ← putGuarded cap [] 91
    let t ← renderItems cap true items t
    let t ← putGuarded cap t 93
    let _ ← put cap t 0
    return t

/-- The loop over the elements, each rendered in a buffer of 24 bytes. -/
def renderItems : ℕ → Bool → List Printable → List UInt8 → Option (List UInt8)
  | _, _, [], t => some t
  | cap, first, w :: items, t =>
    if t.length + 2 < cap then do
      let t ← putSeparator cap first t
      let es ← vRender 24 w
      let t ← copyText cap t es
      renderItems cap false items t
    else some t

end

/-- `sizeof(g_vheap)`. -/
def vheapCap : ℕ := 32768

/-- `v_add` when one of the values is a string, with `used` bytes of the heap taken. -/
def vConcat (used : ℕ) (a b : Printable) : Option (List UInt8) := do
  let sa ← vRender 32 a
  let sb ← vRender 32 b
  if vheapCap < used + (sa.length + sb.length + 1) then return []
  else return sa ++ sb

/-- The elements of a list as `v_print` emits them. -/
def printItems : Bool → List Printable → Option (List UInt8)
  | _, [] => some []
  | first, w :: items => do
    let es ← vRender 32 w
    let rest ← printItems false items
    return (if first then [] else [44, 32]) ++ es ++ rest

/-- `v_print`, without the newline. -/
def vPrint : Printable → Option (List UInt8)
  | .list items => do
    let t ← printItems true items
    return 91 :: t ++ [93]
  | w => vRender 32 w

def natText (u : ℕ) : List UInt8 :=
  if u = 0 then [48] else ((Nat.digits 10 u).map fun d => 48 + UInt8.ofNat d).reverse

def decimalText (n : ℤ) : List UInt8 :=
  if n < 0 then 45 :: natText n.natAbs else natText n.natAbs

/-- Texts with `", "` between them. -/
def joined : Bool → List (List UInt8) → List UInt8
  | _, [] => []
  | first, t :: ts => (if first then [] else [44, 32]) ++ t ++ joined false ts

def bracketed (ts : List (List UInt8)) : List UInt8 := 91 :: joined true ts ++ [93]

mutual

/-- The text of a value with nothing cut off. -/
def fullText : Printable → List UInt8
  | .int n => decimalText n.toInt
  | .str s => s
  | .list items => bracketed (fullTexts items)

def fullTexts : List Printable → List (List UInt8)
  | [] => []
  | w :: items => fullText w :: fullTexts items

end

namespace Printable

def IsList : Printable → Prop
  | .list _ => True
  | _ => False

/-- A list has at most 31 bytes of text, and each list in it 23. -/
def Small : Printable → Prop
  | .list items => (fullText (.list items)).length ≤ 31 ∧
      ∀ w ∈ items, w.IsList → (fullText w).length ≤ 23
  | _ => True

end Printable

/-- The text of the value fits into the heap. -/
def HasRoom (used : ℕ) (w : Printable) : Prop :=
  ∀ t, vRender 32 w = some t → used + (t.length + 1) ≤ vheapCap

/-- Both renderings stay in their buffers, and give the same text. -/
structure RendersAlike (w : Printable) : Prop where
  printed : (vPrint w).isSome = true
  rendered : (vRender 32 w).isSome = true
  alike : ∀ used, HasRoom used w → vConcat used (.str []) w = vPrint w

variable {cap room u : ℕ} {n : ℤ} {t es : List UInt8} {items : List Printable} {w : Printable}

theorem digitsDown_eq (h : (Nat.digits 10 u).length ≤ room) : digitsDown room u t =
    (room - (Nat.digits 10 u).length,
      ((Nat.digits 10 u).map fun d => 48 + UInt8.ofNat d).reverse ++ t) := by
  induction room generalizing u t with
  | zero =>
    have hzero : Nat.digits 10 u = [] := List.length_eq_zero_iff.mp (by omega)
    simp [digitsDown, hzero]
  | succ room ih =>
    unfold digitsDown
    split_ifs with hu
    · simp [hu]
    · have hdigits : Nat.digits 10 u = u % 10 :: Nat.digits 10 (u / 10) :=
        Nat.digits_def' (by omega) (by omega)
      rw [hdigits, List.length_cons] at h
      rw [ih (by omega), hdigits]
      simp

theorem length_digits_le (hn : InRange n) : (Nat.digits 10 n.natAbs).length ≤ 19 := by
  unfold InRange at hn
  rw [Nat.digits_length_le_iff (by omega)]
  omega

/-- The digits and the sign fit the buffers that integers are rendered in. -/
theorem renderInt_eq (hcap : 21 ≤ cap) (hn : InRange n) :
    renderInt cap n = some (decimalText n) := by
  obtain ⟨room, rfl⟩ : ∃ room, cap = room + 1 := ⟨cap - 1, by omega⟩
  have hlen := length_digits_le hn
  unfold renderInt decimalText natText
  by_cases hzero : n = 0
  · subst hzero
    simp
    omega
  · have habs : n.natAbs ≠ 0 := by omega
    simp only [if_neg hzero, if_neg habs]
    rw [digitsDown_eq (by omega)]
    by_cases hneg : n < 0
    · rw [if_pos hneg, if_pos ⟨hneg, by omega⟩, List.append_nil]
    · rw [if_neg hneg, if_neg (fun h => hneg h.1), List.append_nil]

theorem inRange_toInt (n : BitVec 63) : InRange n.toInt := by
  have hlow := BitVec.le_toInt n
  have hhigh := BitVec.toInt_lt (x := n)
  unfold InRange
  omega

theorem joined_length_le (first : Bool) {f g : Printable → List UInt8}
    (h : ∀ w ∈ items, (f w).length ≤ (g w).length) :
    (joined first (items.map f)).length ≤ (joined first (items.map g)).length := by
  induction items generalizing first with
  | nil => exact le_rfl
  | cons w items ih =>
    have hw := h w (by simp)
    have hrest := ih false fun v hv => h v (List.mem_cons_of_mem w hv)
    simp only [List.map_cons, joined, List.length_append]
    omega

theorem joined_length_lt (first : Bool) {f g : Printable → List UInt8}
    (h : ∀ w ∈ items, (f w).length ≤ (g w).length)
    (hlt : ∃ w ∈ items, (f w).length < (g w).length) :
    (joined first (items.map f)).length < (joined first (items.map g)).length := by
  induction items generalizing first with
  | nil => simp at hlt
  | cons v items ih =>
    have hv := h v (by simp)
    have hitems : ∀ w ∈ items, (f w).length ≤ (g w).length :=
      fun w hw => h w (List.mem_cons_of_mem v hw)
    have hrest := joined_length_le false hitems
    obtain ⟨w, hw, hlt⟩ := hlt
    simp only [List.map_cons, joined, List.length_append]
    rcases List.mem_cons.mp hw with rfl | hw
    · omega
    · have hless := ih false hitems ⟨w, hw, hlt⟩
      omega

theorem length_le_joined (first : Bool) {ts : List (List UInt8)} (h : t ∈ ts) :
    t.length ≤ (joined first ts).length := by
  induction ts generalizing first with
  | nil => simp at h
  | cons t' ts ih =>
    simp only [joined, List.length_append]
    rcases List.mem_cons.mp h with rfl | h
    · omega
    · have hrest := ih false h
      omega

theorem length_bracketed (ts : List (List UInt8)) :
    (bracketed ts).length = (joined true ts).length + 2 := by
  simp [bracketed]

theorem fullTexts_eq (items : List Printable) : fullTexts items = items.map fullText := by
  induction items with
  | nil => rfl
  | cons w items ih => rw [fullTexts, ih, List.map_cons]

theorem fullText_list (items : List Printable) :
    fullText (.list items) = bracketed (items.map fullText) := by
  rw [fullText, fullTexts_eq]

theorem copyText_eq (es t : List UInt8) (ht : t.length < cap) :
    copyText cap t es = some (t ++ es.take (cap - 2 - t.length)) := by
  induction es generalizing t with
  | nil => simp [copyText]
  | cons c es ih =>
    unfold copyText
    split_ifs with hroom
    · have hput : put cap t c = some (t ++ [c]) := if_pos ht
      have hstep : cap - 2 - t.length = (cap - 2 - (t ++ [c]).length) + 1 := by
        rw [List.length_append, List.length_singleton]
        omega
      rw [hput, Option.bind_some, ih (t ++ [c]) (by simp; omega), hstep, List.take_succ_cons]
      simp
    · rw [show cap - 2 - t.length = 0 by omega]
      simp

def separator (first : Bool) : List UInt8 := if first then [] else [44, 32]

theorem putSeparator_eq (ht : t.length + 2 < cap) (first : Bool) :
    putSeparator cap first t = some (t ++ separator first) := by
  cases first with
  | true => simp [putSeparator, separator]
  | false =>
    have hcomma : putGuarded cap t 44 = some (t ++ [44]) := by
      rw [putGuarded, if_pos (by omega), put, if_pos (by omega)]
    have hspace : putGuarded cap (t ++ [44]) 32 = some (t ++ [44] ++ [32]) := by
      rw [putGuarded, if_pos (by simp; omega), put, if_pos (by simp; omega)]
    simp [putSeparator, separator, hcomma, hspace]

theorem length_separator_le (first : Bool) : (separator first).length ≤ 2 := by
  cases first <;> simp [separator]

/-- The text that is rendered in a buffer of `cap` bytes. -/
def rendered (cap : ℕ) (w : Printable) : List UInt8 := (vRender cap w).getD []

/-- The loop gives all the elements when they fit before the last two bytes, and stops there
when they do not. -/
theorem renderItems_spec (hitems : ∀ w ∈ items, vRender 24 w = some (rendered 24 w))
    (first : Bool) (t : List UInt8) (ht : t.length + 1 ≤ cap) :
    ∃ t', renderItems cap first items t = some t' ∧ t'.length + 1 ≤ cap ∧
      ((t ++ joined first (items.map (rendered 24))).length + 2 ≤ cap →
        t' = t ++ joined first (items.map (rendered 24))) ∧
      (cap < (t ++ joined first (items.map (rendered 24))).length + 2 →
        cap ≤ t'.length + 2 ∧
          t'.length ≤ (t ++ joined first (items.map (rendered 24))).length) := by
  induction items generalizing first t with
  | nil =>
    refine ⟨t, by rw [renderItems], ht, ?_, ?_⟩
    · intro _
      simp [joined]
    · intro h
      simp only [List.map_nil, joined, List.append_nil] at h ⊢
      omega
  | cons w items ih =>
    have hrest : ∀ v ∈ items, vRender 24 v = some (rendered 24 v) :=
      fun v hv => hitems v (List.mem_cons_of_mem w hv)
    by_cases hroom : t.length + 2 < cap
    · have hlen : (t ++ separator first).length + 1 ≤ cap := by
        have hle := length_separator_le first
        rw [List.length_append]
        omega
      have hjoined : t ++ joined first ((w :: items).map (rendered 24)) =
          t ++ separator first ++ rendered 24 w ++ joined false (items.map (rendered 24)) := by
        simp [joined, separator]
      generalize hu : t ++ separator first = u at hlen hjoined
      have hcopy := copyText_eq (rendered 24 w) u (show u.length < cap by omega)
      have hstep : renderItems cap first (w :: items) t =
          renderItems cap false items (u ++ (rendered 24 w).take (cap - 2 - u.length)) := by
        rw [renderItems, if_pos hroom, putSeparator_eq hroom, hu, hitems w (by simp)]
        simp only [Option.bind_eq_bind, Option.bind_some, hcopy]
      rw [hstep, hjoined]
      by_cases hfits : (u ++ rendered 24 w).length + 2 ≤ cap
      · have hall : (rendered 24 w).take (cap - 2 - u.length) = rendered 24 w := by
          apply List.take_of_length_le
          rw [List.length_append] at hfits
          omega
        rw [hall]
        exact ih hrest false _ (by omega)
      · -- the element was cut off, or the separator has taken the last byte but one
        have hcut : (u ++ (rendered 24 w).take (cap - 2 - u.length)).length =
            u.length + min (cap - 2 - u.length) (rendered 24 w).length := by
          rw [List.length_append, List.length_take]
        have hlong : (u ++ rendered 24 w ++ joined false (items.map (rendered 24))).length =
            u.length + (rendered 24 w).length +
              (joined false (items.map (rendered 24))).length := by
          rw [List.length_append, List.length_append]
        rw [List.length_append] at hfits
        have hstop : renderItems cap false items
            (u ++ (rendered 24 w).take (cap - 2 - u.length)) =
              some (u ++ (rendered 24 w).take (cap - 2 - u.length)) := by
          cases items with
          | nil => rw [renderItems]
          | cons v items => rw [renderItems, if_neg (by omega)]
        refine ⟨_, hstop, by omega, fun h => ?_, fun _ => ⟨by omega, by omega⟩⟩
        omega
    · refine ⟨t, by rw [renderItems, if_neg hroom], ht, ?_, ?_⟩
      · intro h
        rw [List.length_append] at h
        have hnil : joined first ((w :: items).map (rendered 24)) = [] :=
          List.length_eq_zero_iff.mp (by omega)
        rw [hnil, List.append_nil]
      · intro _
        rw [List.length_append]
        omega

/-- A list that does not fit has its buffer filled up. -/
theorem vRender_list (hcap : 3 ≤ cap)
    (hitems : ∀ w ∈ items, vRender 24 w = some (rendered 24 w)) :
    ∃ t, vRender cap (.list items) = some t ∧
      ((bracketed (items.map (rendered 24))).length < cap →
        t = bracketed (items.map (rendered 24))) ∧
      (cap ≤ (bracketed (items.map (rendered 24))).length → t.length + 1 = cap) := by
  have hopen : putGuarded cap [] 91 = some [91] := by
    rw [putGuarded, if_pos (by simp; omega), put, if_pos (by simp; omega)]
    rfl
  have hone : ([91] : List UInt8).length + 1 ≤ cap := by
    rw [List.length_singleton]
    omega
  obtain ⟨t, hitems', hlen, hfit, hcut⟩ := renderItems_spec hitems true [91] hone
  have hbracket := length_bracketed (items.map (rendered 24))
  have hcons : ([91] ++ joined true (items.map (rendered 24))).length =
      (joined true (items.map (rendered 24))).length + 1 := by simp
  rw [hcons] at hfit hcut
  by_cases hclose : t.length + 1 < cap
  · have hput : putGuarded cap t 93 = some (t ++ [93]) := by
      rw [putGuarded, if_pos hclose, put, if_pos (by omega)]
    have hnul : put cap (t ++ [93]) 0 = some (t ++ [93] ++ [0]) := if_pos (by simpa using hclose)
    refine ⟨t ++ [93], ?_, ?_, ?_⟩
    · rw [vRender]
      simp only [hopen, hitems', hput, hnul, Option.bind_eq_bind, Option.bind_some]
      rfl
    · intro h
      rw [hfit (by omega)]
      rfl
    · intro h
      have hge := (hcut (by omega)).1
      rw [List.length_append, List.length_singleton]
      omega
  · have hput : putGuarded cap t 93 = some t := if_neg hclose
    have hnul : put cap t 0 = some (t ++ [0]) := if_pos (by omega)
    refine ⟨t, ?_, ?_, ?_⟩
    · rw [vRender]
      simp only [hopen, hitems', hput, hnul, Option.bind_eq_bind, Option.bind_some]
      rfl
    · intro h
      have heq := hfit (by omega)
      have hlen' := congrArg List.length heq
      rw [hcons] at hlen'
      omega
    · intro _
      omega

/-- Every value is rendered inside the buffer; a buffer of 21 bytes is enough for it. -/
theorem vRender_eq : ∀ (w : Printable) (cap : ℕ), 21 ≤ cap →
    vRender cap w = some (rendered cap w)
  | .int n, cap, hcap => by
    have heq : vRender cap (.int n) = some (decimalText n.toInt) := by
      rw [vRender]
      exact renderInt_eq hcap (inRange_toInt n)
    rw [rendered, heq]
    rfl
  | .str s, cap, _ => by
    rw [rendered, vRender]
    rfl
  | .list items, cap, hcap => by
    have hitems : ∀ w ∈ items, vRender 24 w = some (rendered 24 w) :=
      fun w _ => vRender_eq w 24 (by omega)
    have hcap' : 3 ≤ cap := by omega
    obtain ⟨t, ht, -⟩ := vRender_list hcap' hitems
    rw [rendered, ht]
    rfl

theorem rendered_of_not_list {cap : ℕ} (w : Printable) (hcap : 21 ≤ cap) (hw : ¬ w.IsList) :
    rendered cap w = fullText w := by
  cases w with
  | int n => rw [rendered, vRender, renderInt_eq hcap (inRange_toInt n), Option.getD_some, fullText]
  | str s => rw [rendered, vRender, Option.getD_some, fullText]
  | list items => exact absurd trivial hw

theorem rendered_list (hcap : 21 ≤ cap) (items : List Printable) :
    ((bracketed (items.map (rendered 24))).length < cap →
        rendered cap (.list items) = bracketed (items.map (rendered 24))) ∧
      (cap ≤ (bracketed (items.map (rendered 24))).length →
        (rendered cap (.list items)).length + 1 = cap) := by
  have hitems : ∀ w ∈ items, vRender 24 w = some (rendered 24 w) :=
    fun w _ => vRender_eq w 24 (by omega)
  have hcap' : 3 ≤ cap := by omega
  obtain ⟨t, ht, hfit, hcut⟩ := vRender_list hcap' hitems
  have heq : rendered cap (.list items) = t := by
    rw [rendered, ht]
    rfl
  rw [heq]
  exact ⟨hfit, hcut⟩

theorem length_bracketed_le {f g : Printable → List UInt8}
    (h : ∀ w ∈ items, (f w).length ≤ (g w).length) :
    (bracketed (items.map f)).length ≤ (bracketed (items.map g)).length := by
  have hle := joined_length_le true h
  rw [length_bracketed, length_bracketed]
  omega

theorem length_lt_bracketed {ts : List (List UInt8)} (h : t ∈ ts) :
    t.length + 2 ≤ (bracketed ts).length := by
  have hle := length_le_joined true h
  rw [length_bracketed]
  omega

/-- What is cut off of the elements of a list leaves enough for it to be too long. -/
theorem bracketed_long (hitems : ∀ w ∈ items, ((fullText w).length ≤ 23 → rendered 24 w = fullText w) ∧
      (w.IsList → 23 < (fullText w).length → (rendered 24 w).length = 23))
    (hlong : 23 < (bracketed (items.map fullText)).length) :
    24 ≤ (bracketed (items.map (rendered 24))).length := by
  by_contra hunder
  have hdiffers : ∃ w ∈ items, rendered 24 w ≠ fullText w := by
    by_contra hall
    push Not at hall
    rw [List.map_congr_left hall] at hunder
    omega
  obtain ⟨w, hw, hne⟩ := hdiffers
  have hlist : w.IsList := by
    by_contra hnot
    exact hne (rendered_of_not_list w (by omega) hnot)
  have hwlong : 23 < (fullText w).length := by
    by_contra hle
    exact hne ((hitems w hw).1 (by omega))
  have hcutw := (hitems w hw).2 hlist hwlong
  have hlt := length_lt_bracketed (List.mem_map_of_mem (f := rendered 24) hw)
  omega

/-- In 24 bytes a list is cut off exactly when it is longer than 23. -/
theorem rendered_nested : ∀ w : Printable,
    ((fullText w).length ≤ 23 → rendered 24 w = fullText w) ∧
      (w.IsList → 23 < (fullText w).length → (rendered 24 w).length = 23) ∧
      (rendered 24 w).length ≤ (fullText w).length
  | .int n => by
    have heq := @rendered_of_not_list 24 (.int n) (by omega) id
    exact ⟨fun _ => heq, fun h => h.elim, le_of_eq (congrArg List.length heq)⟩
  | .str s => by
    have heq := @rendered_of_not_list 24 (.str s) (by omega) id
    exact ⟨fun _ => heq, fun h => h.elim, le_of_eq (congrArg List.length heq)⟩
  | .list items => by
    have hitems : ∀ w ∈ items, ((fullText w).length ≤ 23 → rendered 24 w = fullText w) ∧
        (w.IsList → 23 < (fullText w).length → (rendered 24 w).length = 23) ∧
        (rendered 24 w).length ≤ (fullText w).length := fun w _ => rendered_nested w
    obtain ⟨hfit, hcut⟩ := @rendered_list 24 (by omega) items
    have hle := length_bracketed_le fun w hw => (hitems w hw).2.2
    rw [fullText_list]
    have hsame : (∀ w ∈ items, rendered 24 w = fullText w) →
        items.map (rendered 24) = items.map fullText := List.map_congr_left
    refine ⟨?_, ?_, ?_⟩
    · intro hshort
      have heq : items.map (rendered 24) = items.map fullText := by
        apply hsame
        intro w hw
        have hlt := length_lt_bracketed (List.mem_map_of_mem (f := fullText) hw)
        exact (hitems w hw).1 (by omega)
      rw [heq] at hfit
      exact hfit (by omega)
    · intro _ hlong
      have hover := bracketed_long (fun w hw => ⟨(hitems w hw).1, (hitems w hw).2.1⟩) hlong
      have hlen := hcut hover
      omega
    · by_cases hunder : (bracketed (items.map (rendered 24))).length < 24
      · rw [hfit hunder]
        exact hle
      · have hlen := hcut (by omega)
        omega

/-- The elements that `v_print` renders in 32 bytes. -/
theorem printItems_eq (first : Bool) (items : List Printable) :
    printItems first items = some (joined first (items.map (rendered 32))) := by
  induction items generalizing first with
  | nil => rfl
  | cons w items ih =>
    simp only [printItems, vRender_eq w 32 (by omega), ih, Option.bind_eq_bind, Option.bind_some,
      List.map_cons, joined]
    rfl

theorem vPrint_list (items : List Printable) :
    vPrint (.list items) = some (bracketed (items.map (rendered 32))) := by
  simp only [vPrint, printItems_eq, Option.bind_eq_bind, Option.bind_some]
  rfl

theorem vPrint_of_not_list (hw : ¬ w.IsList) : vPrint w = some (rendered 32 w) := by
  cases w with
  | int n => exact vRender_eq _ 32 (by omega)
  | str s => exact vRender_eq _ 32 (by omega)
  | list items => exact absurd trivial hw

theorem vConcat_eq (used : ℕ) (hroom : HasRoom used w) :
    vConcat used (.str []) w = some (rendered 32 w) := by
  have hw := vRender_eq w 32 (by omega)
  have hfits := hroom _ hw
  have hempty : vRender 32 (.str []) = some [] := by rw [vRender]
  unfold vConcat
  simp only [hempty, hw, Option.bind_eq_bind, Option.bind_some, List.length_nil]
  rw [if_neg (by omega)]
  rfl

/-- More of a list is left in more bytes. -/
theorem rendered_le (w : Printable) : (rendered 24 w).length ≤ (rendered 32 w).length := by
  cases w with
  | int n => rw [@rendered_of_not_list 24 (.int n) (by omega) id,
      @rendered_of_not_list 32 (.int n) (by omega) id]
  | str s => rw [@rendered_of_not_list 24 (.str s) (by omega) id,
      @rendered_of_not_list 32 (.str s) (by omega) id]
  | list items =>
    obtain ⟨hfit, hcut⟩ := @rendered_list 24 (by omega) items
    obtain ⟨hfit', hcut'⟩ := @rendered_list 32 (by omega) items
    rcases lt_or_ge (bracketed (items.map (rendered 24))).length 24 with hlt | hge
    · rw [hfit hlt, hfit' (by omega)]
    · have hlen := hcut hge
      rcases lt_or_ge (bracketed (items.map (rendered 24))).length 32 with hlt' | hge'
      · rw [hfit' hlt']
        omega
      · have hlen' := hcut' hge'
        omega

theorem rendered_lt (hw : w.IsList) (hlong : 23 < (fullText w).length) :
    (rendered 24 w).length < (rendered 32 w).length := by
  have hcut := (rendered_nested w).2.1 hw hlong
  cases w with
  | int n => exact hw.elim
  | str s => exact hw.elim
  | list items =>
    rw [fullText_list] at hlong
    have hover := bracketed_long
      (fun w _ => ⟨(rendered_nested w).1, (rendered_nested w).2.1⟩) hlong
    obtain ⟨hfit', hcut'⟩ := @rendered_list 32 (by omega) items
    rcases lt_or_ge (bracketed (items.map (rendered 24))).length 32 with hlt | hge
    · rw [hfit' hlt]
      omega
    · have hlen := hcut' hge
      omega

/-- The whole text is rendered when no list in it is cut off. -/
theorem rendered_list_eq (hcap : 21 ≤ cap) (hlen : (fullText (.list items)).length < cap)
    (hitems : ∀ w ∈ items, w.IsList → (fullText w).length ≤ 23) :
    rendered cap (.list items) = fullText (.list items) := by
  have hsame : items.map (rendered 24) = items.map fullText := by
    apply List.map_congr_left
    intro w hw
    by_cases hlist : w.IsList
    · exact (rendered_nested w).1 (hitems w hw hlist)
    · exact rendered_of_not_list w (by omega) hlist
  have hfit := (rendered_list hcap items).1
  rw [hsame, ← fullText_list] at hfit
  exact hfit hlen

theorem rendered_wide (hw : w.IsList → (fullText w).length ≤ 23) : rendered 32 w = fullText w := by
  cases w with
  | int n => exact rendered_of_not_list _ (by omega) id
  | str s => exact rendered_of_not_list _ (by omega) id
  | list items =>
    have hlen := hw trivial
    apply rendered_list_eq (by omega) (by omega)
    intro v hv _
    rw [fullText_list] at hlen
    have hlt := length_lt_bracketed (List.mem_map_of_mem (f := fullText) hv)
    omega

theorem alike_iff (items : List Printable) :
    rendered 32 (.list items) = bracketed (items.map (rendered 32)) ↔
      (fullText (.list items)).length ≤ 31 ∧
        ∀ w ∈ items, w.IsList → (fullText w).length ≤ 23 := by
  constructor
  · intro heq
    obtain ⟨hfit, hcut⟩ := @rendered_list 32 (by omega) items
    have hlen := congrArg List.length heq
    have hall : ∀ w ∈ items, w.IsList → (fullText w).length ≤ 23 := by
      by_contra hsome
      push Not at hsome
      obtain ⟨w, hw, hlist, hlong⟩ := hsome
      have hlt := joined_length_lt true (fun v _ => rendered_le v)
        ⟨w, hw, rendered_lt hlist hlong⟩
      have hshort := length_bracketed (items.map (rendered 24))
      have hwide := length_bracketed (items.map (rendered 32))
      rcases lt_or_ge (bracketed (items.map (rendered 24))).length 32 with hunder | hover
      · rw [hfit hunder] at hlen
        omega
      · have hcutlen := hcut hover
        omega
    have hwide : items.map (rendered 32) = items.map fullText :=
      List.map_congr_left fun w hw => rendered_wide (hall w hw)
    rw [hwide, ← fullText_list] at hlen
    refine ⟨?_, hall⟩
    rcases lt_or_ge (bracketed (items.map (rendered 24))).length 32 with hunder | hover
    · rw [hfit hunder] at hlen
      omega
    · have hcutlen := hcut hover
      omega
  · rintro ⟨hlen, hall⟩
    have hwide : items.map (rendered 32) = items.map fullText :=
      List.map_congr_left fun w hw => rendered_wide (hall w hw)
    rw [rendered_list_eq (by omega) (by omega) hall, hwide, fullText_list]

/-- A list that is rendered in 32 bytes fits into an empty heap. -/
theorem hasRoom_zero (items : List Printable) : HasRoom 0 (.list items) := by
  intro t ht
  have heq : t = rendered 32 (.list items) := by
    rw [rendered, ht]
    rfl
  obtain ⟨hfit, hcut⟩ := @rendered_list 32 (by omega) items
  have hcap : vheapCap = 32768 := rfl
  rw [heq]
  rcases lt_or_ge (bracketed (items.map (rendered 24))).length 32 with hunder | hover
  · rw [hfit hunder]
    omega
  · have hlen := hcut hover
    omega

/-- A value is printed and concatenated alike when it is no list, or a short one with
shorter lists in it. -/
theorem rendersAlike_iff (w : Printable) : RendersAlike w ↔ w.Small := by
  have hrendered : (vRender 32 w).isSome = true := by
    rw [vRender_eq w 32 (by omega)]
    rfl
  by_cases hw : w.IsList
  · cases w with
    | int n => exact hw.elim
    | str s => exact hw.elim
    | list items =>
      constructor
      · intro h
        have heq := h.alike 0 (hasRoom_zero items)
        rw [vConcat_eq 0 (hasRoom_zero items), vPrint_list] at heq
        exact (alike_iff items).mp (Option.some.inj heq)
      · intro h
        refine ⟨by rw [vPrint_list]; rfl, hrendered, ?_⟩
        intro used hroom
        rw [vConcat_eq used hroom, vPrint_list, (alike_iff items).mpr h]
  · have hsmall : w.Small := by
      cases w with
      | int n => trivial
      | str s => trivial
      | list items => exact absurd trivial hw
    refine ⟨fun _ => hsmall, fun _ => ⟨by rw [vPrint_of_not_list hw]; rfl, hrendered, ?_⟩⟩
    intro used hroom
    rw [vConcat_eq used hroom, vPrint_of_not_list hw]

/-- Twelve ones in a list are 36 bytes of text; `v_add` leaves 31 of them. -/
theorem long_list_cut_off : ¬ ∀ w : Printable, RendersAlike w := by
  intro h
  have halike := (h (.list (List.replicate 12 (.int 1)))).alike 0 (hasRoom_zero _)
  revert halike
  decide

end XinuRpi4.Runtime
