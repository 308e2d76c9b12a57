import Mathlib.Data.List.DropRight
import XinuRpi4.Basic.Statements
import XinuRpi4.Foundation.Scan

/-!
# Items of DATA

What the text of a DATA line stands for: its fields are separated by the commas that are not
between quotes. READ walks the same text with a cursor, which it leaves behind 63 characters of an
item or behind its closing quote.
-/

namespace XinuRpi4.Basic

open XinuRpi4.Foundation

/-- What stands between two commas; a quoted text may have something behind its closing quote. -/
inductive Field
  | quoted (text behind : Text)
  | bare (text : Text)
deriving DecidableEq

namespace Field

def isEmpty : Field → Bool
  | quoted _ _ => false
  | bare t => trimEnd isBlank t == []

/-- The item without its quotes, trimmed and cut. -/
def value : Field → Text
  | quoted t behind => (t ++ (trimEnd isBlank behind).filter (· ≠ chr '"')).take (svarLen - 1)
  | bare t => (trimEnd isBlank t).take (svarLen - 1)

/-- An item that is not cut, with nothing behind its closing quote. -/
def Tidy : Field → Prop
  | quoted t behind => t.length < svarLen ∧ trimEnd isBlank behind = []
  | bare t => (trimEnd isBlank t).length < svarLen

end Field

/-- The first field, and the text from its comma on. -/
def field (t : Text) : Field × Text :=
  let u := t.dropWhile isBlank
  if u.headD 0 = chr '"' then
    let r := (u.tail.dropWhile (· ≠ chr '"')).tail
    (.quoted (u.tail.takeWhile (· ≠ chr '"')) (r.takeWhile (· ≠ chr ',')), r.dropWhile (· ≠ chr ','))
  else (.bare (u.takeWhile (· ≠ chr ',')), u.dropWhile (· ≠ chr ','))

theorem field_length (t : Text) : (field t).2.length ≤ t.length := by
  have hblank := (List.dropWhile_suffix isBlank (l := t)).length_le
  simp only [field]
  split_ifs
  · calc _ ≤ ((t.dropWhile isBlank).tail.dropWhile (· ≠ chr '"')).tail.length :=
          (List.dropWhile_suffix _).length_le
      _ ≤ ((t.dropWhile isBlank).tail.dropWhile (· ≠ chr '"')).length := (List.tail_suffix _).length_le
      _ ≤ (t.dropWhile isBlank).tail.length := (List.dropWhile_suffix _).length_le
      _ ≤ (t.dropWhile isBlank).length := (List.tail_suffix _).length_le
      _ ≤ t.length := hblank
  · exact (List.dropWhile_suffix _).length_le.trans hblank

def fields (t : Text) : List Field :=
  match _h : (field t).2 with
  | [] => [(field t).1]
  | _ :: r => (field t).1 :: fields r
termination_by t.length
decreasing_by
  have hlen := field_length t
  rw [_h, List.length_cons] at hlen
  omega

/-- The fields that are items. -/
def items (t : Text) : List Field := (fields t).filter fun f => !f.isEmpty

def Tidy (t : Text) : Prop := ∀ f ∈ items t, f.Tidy

/-- The items behind the comma of a field. -/
def itemsBehind : Text → List Field
  | [] => []
  | _ :: r => items r

theorem items_eq (t : Text) : items t =
    (if (field t).1.isEmpty then [] else [(field t).1]) ++ itemsBehind (field t).2 := by
  rw [items, fields]
  cases hrest : (field t).2 with
  | nil => cases hempty : (field t).1.isEmpty <;> simp [itemsBehind, hempty]
  | cons c r => cases hempty : (field t).1.isEmpty <;> simp [itemsBehind, items, hempty]

theorem items_nil : items [] = [] := by
  rw [items_eq]
  rfl

theorem items_blank {c : UInt8} (t : Text) (h : isBlank c = true) : items (c :: t) = items t := by
  have hfield : field (c :: t) = field t := by
    rw [field, field, List.dropWhile_cons_of_pos h]
  rw [items_eq, items_eq t, hfield]

theorem items_comma (t : Text) : items (chr ',' :: t) = items t := by
  have hfield : field (chr ',' :: t) = (.bare [], chr ',' :: t) := rfl
  rw [items_eq, hfield]
  rfl

theorem items_behind (t : Text) (h : t = [] ∨ t.headD 0 = chr ',') : items t = itemsBehind t := by
  cases t with
  | nil => exact items_nil
  | cons c t =>
    obtain h | h := h
    · cases h
    · obtain rfl : c = chr ',' := h
      exact items_comma t

theorem items_blanks (u t : Text) (h : ∀ c ∈ u, isBlank c = true) : items (u ++ t) = items t := by
  induction u with
  | nil => rfl
  | cons c u ih =>
    rw [List.cons_append, items_blank _ (h c List.mem_cons_self)]
    exact ih fun d hd => h d (List.mem_cons_of_mem c hd)

/-- What the cursor skips in front of an item. -/
theorem items_dropWhile (t : Text) : items (t.dropWhile dataBlank) = items t := by
  induction t with
  | nil => rfl
  | cons c t ih =>
    by_cases hc : dataBlank c = true
    · rw [List.dropWhile_cons_of_pos hc, ih]
      rw [dataBlank, Bool.or_eq_true, beq_iff_eq] at hc
      obtain hblank | rfl := hc
      · exact (items_blank t hblank).symm
      · exact (items_comma t).symm
    · rw [List.dropWhile_cons_of_neg hc]

theorem trimEnd_split (p : UInt8 → Bool) (t : Text) : ∃ w, t = trimEnd p t ++ w ∧ ∀ c ∈ w, p c = true :=
  ⟨t.rtakeWhile p, (List.rdropWhile_append_rtakeWhile ..).symm, fun _ hc => List.mem_rtakeWhile_imp hc⟩

theorem trimEnd_append {p : UInt8 → Bool} (t : Text) {w : Text} (h : ∀ c ∈ w, p c = true) :
    trimEnd p (t ++ w) = trimEnd p t := by
  have hrev : ∀ c ∈ w.reverse, p c = true := fun c hc => h c (List.mem_reverse.mp hc)
  rw [trimEnd, List.reverse_append, List.dropWhile_append_of_pos hrev]
  rfl

theorem trimEnd_nil_iff {p : UInt8 → Bool} {t : Text} : trimEnd p t = [] ↔ ∀ c ∈ t, p c = true :=
  List.rdropWhile_eq_nil_iff

theorem stops_at (c : UInt8) (t : Text) :
    t.dropWhile (· ≠ c) = [] ∨ (t.dropWhile (· ≠ c)).headD 0 = c := by
  have hhead := List.head?_dropWhile_not (fun d => decide (d ≠ c)) t
  cases h : t.dropWhile (· ≠ c) with
  | nil => exact .inl rfl
  | cons d r =>
    right
    rw [h] at hhead
    simpa using hhead

/-- A scan up to the bound that leaves blanks only. -/
theorem take_trimEnd {t : Text} {n : ℕ} (h : (trimEnd isBlank t).length ≤ n) :
    trimEnd isBlank (t.take n) = trimEnd isBlank t ∧ ∀ c ∈ t.drop n, isBlank c = true := by
  obtain ⟨w, hsplit, hw⟩ := trimEnd_split isBlank t
  have htake : t.take n = trimEnd isBlank t ++ w.take (n - (trimEnd isBlank t).length) := by
    conv_lhs => rw [hsplit]
    rw [List.take_append, List.take_of_length_le h]
  have hdrop : t.drop n = w.drop (n - (trimEnd isBlank t).length) := by
    conv_lhs => rw [hsplit]
    rw [List.drop_append, List.drop_eq_nil_of_le h, List.nil_append]
  constructor
  · rw [htake, trimEnd_append _ fun c hc => hw c (List.mem_of_mem_take hc)]
    exact List.rdropWhile_idempotent ..
  · rw [hdrop]
    exact fun c hc => hw c (List.mem_of_mem_drop hc)

section Item

variable {u : Text}

theorem skip_blanks (hhead : isBlank (u.headD 0) = false) : u.dropWhile isBlank = u := by
  cases u with
  | nil => rfl
  | cons c u => exact List.dropWhile_cons_of_neg (by rw [Bool.not_eq_true]; exact hhead)

theorem field_quoted (hquote : u.headD 0 = chr '"') : field u =
    (.quoted (u.tail.takeWhile (· ≠ chr '"'))
      ((u.tail.dropWhile (· ≠ chr '"')).tail.takeWhile (· ≠ chr ',')),
      (u.tail.dropWhile (· ≠ chr '"')).tail.dropWhile (· ≠ chr ',')) := by
  rw [field, skip_blanks (by rw [hquote]; decide)]
  exact if_pos hquote

theorem field_bare (hhead : isBlank (u.headD 0) = false) (hquote : u.headD 0 ≠ chr '"') :
    field u = (.bare (u.takeWhile (· ≠ chr ',')), u.dropWhile (· ≠ chr ',')) := by
  rw [field, skip_blanks hhead]
  exact if_neg hquote

/-- The cursor reads a tidy item as a whole. -/
theorem dataItem_quoted (hquote : u.headD 0 = chr '"') (htidy : (field u).1.Tidy) :
    (dataItem svarLen u).1 = (field u).1.value ∧
      items (dataItem svarLen u).2 = itemsBehind (field u).2 := by
  rw [field_quoted hquote] at htidy ⊢
  obtain ⟨hlen, hbehind⟩ := htidy
  have hle : (u.tail.takeWhile (· ≠ chr '"')).length ≤ svarLen - 1 := Nat.le_sub_one_of_lt hlen
  have hread : dataItem svarLen u =
      ((u.tail.take (svarLen - 1)).takeWhile (· ≠ chr '"'),
        (u.tail.dropWhile (· ≠ chr '"')).tail) := by
    have hcode : dataItem svarLen u = ((u.tail.take (svarLen - 1)).takeWhile (· ≠ chr '"'),
        if (u.tail.drop ((u.tail.take (svarLen - 1)).takeWhile (· ≠ chr '"')).length).headD 0 = chr '"'
        then (u.tail.drop ((u.tail.take (svarLen - 1)).takeWhile (· ≠ chr '"')).length).tail
        else u.tail.drop ((u.tail.take (svarLen - 1)).takeWhile (· ≠ chr '"')).length) := if_pos hquote
    rw [hcode, drop_scan_of_le _ hle]
    obtain hend | hclose := stops_at (chr '"') u.tail
    · rw [hend]
      rfl
    · rw [if_pos hclose]
  rw [hread]
  constructor
  · rw [Field.value, hbehind, List.filter_nil, List.append_nil, ← List.take_takeWhile]
  · dsimp only
    conv_lhs => rw [← List.takeWhile_append_dropWhile (p := (· ≠ chr ','))
      (l := (u.tail.dropWhile (· ≠ chr '"')).tail)]
    rw [items_blanks _ _ (trimEnd_nil_iff.mp hbehind)]
    exact items_behind _ (stops_at _ _)

theorem dataItem_bare (hhead : isBlank (u.headD 0) = false) (hquote : u.headD 0 ≠ chr '"')
    (htidy : (field u).1.Tidy) :
    (dataItem svarLen u).1 = (field u).1.value ∧
      items (dataItem svarLen u).2 = itemsBehind (field u).2 := by
  rw [field_bare hhead hquote] at htidy ⊢
  have hlen : (trimEnd isBlank (u.takeWhile (· ≠ chr ','))).length ≤ svarLen - 1 :=
    Nat.le_sub_one_of_lt htidy
  obtain ⟨htrim, hleft⟩ := take_trimEnd hlen
  have hread : dataItem svarLen u =
      (trimEnd isBlank ((u.take (svarLen - 1)).takeWhile (· ≠ chr ',')),
        u.drop ((u.take (svarLen - 1)).takeWhile (· ≠ chr ',')).length) := if_neg hquote
  rw [hread]
  constructor
  · rw [← List.take_takeWhile, htrim]
    exact (List.take_of_length_le hlen).symm
  · dsimp only
    by_cases hle : (u.takeWhile (· ≠ chr ',')).length ≤ svarLen - 1
    · rw [drop_scan_of_le _ hle]
      exact items_behind _ (stops_at _ _)
    · rw [drop_scan_of_lt _ (not_le.mp hle), items_blanks _ _ hleft]
      exact items_behind _ (stops_at _ _)

end Item

/-- In front of an item the first field is one. -/
theorem field_item {u : Text} (hne : u ≠ []) (hhead : dataBlank (u.headD 0) = false) :
    (field u).1.isEmpty = false := by
  have hnot : isBlank (u.headD 0) = false ∧ u.headD 0 ≠ chr ',' := by
    simpa [dataBlank] using hhead
  by_cases hquote : u.headD 0 = chr '"'
  · rw [field_quoted hquote]
    rfl
  · rw [field_bare hnot.1 hquote]
    obtain ⟨c, r, rfl⟩ := List.exists_cons_of_ne_nil hne
    have hcomma : decide (c ≠ chr ',') = true := decide_eq_true hnot.2
    have hfirst : c ∈ (c :: r).takeWhile (· ≠ chr ',') := by
      rw [List.takeWhile_cons, if_pos hcomma]
      exact List.mem_cons_self
    have htrim : trimEnd isBlank ((c :: r).takeWhile (· ≠ chr ',')) ≠ [] := by
      intro hnil
      have hblank := trimEnd_nil_iff.mp hnil c hfirst
      exact absurd (hblank.symm.trans hnot.1) (by decide)
    exact beq_eq_false_iff_ne.mpr htrim

theorem dataItem_tidy {u : Text} (hne : u ≠ []) (hhead : dataBlank (u.headD 0) = false)
    (htidy : Tidy u) :
    (items u).map Field.value =
        (dataItem svarLen u).1 :: (items (dataItem svarLen u).2).map Field.value ∧
      Tidy (dataItem svarLen u).2 := by
  have hitems : items u = (field u).1 :: itemsBehind (field u).2 := by
    rw [items_eq, field_item hne hhead]
    rfl
  have hfirst : (field u).1.Tidy := htidy _ (by rw [hitems]; exact List.mem_cons_self)
  have hread : (dataItem svarLen u).1 = (field u).1.value ∧
      items (dataItem svarLen u).2 = itemsBehind (field u).2 := by
    by_cases hquote : u.headD 0 = chr '"'
    · exact dataItem_quoted hquote hfirst
    · have hblank : isBlank (u.headD 0) = false := (Bool.or_eq_false_iff.mp hhead).1
      exact dataItem_bare hblank hquote hfirst
  constructor
  · rw [hitems, List.map_cons, hread.1, hread.2]
  · intro f hf
    rw [hread.2] at hf
    exact htidy f (by rw [hitems]; exact List.mem_cons_of_mem _ hf)

def waiting (t : Text) (ts : List Text) : List Text := if t = [] then ts else t :: ts

/-- The next item of the first text that has one, and the texts behind it. -/
def takeItem : List Text → Option Text × List Text
  | [] => (none, [])
  | t :: ts =>
    let u := t.dropWhile dataBlank
    if u = [] then takeItem ts
    else (some (dataItem svarLen u).1, waiting (dataItem svarLen u).2 ts)

theorem takeItem_blank {t : Text} {ts : List Text} (h : t.dropWhile dataBlank = []) :
    takeItem (t :: ts) = takeItem ts := by
  rw [takeItem, if_pos h]

theorem takeItem_item {t : Text} {ts : List Text} (h : t.dropWhile dataBlank ≠ []) :
    takeItem (t :: ts) = (some (dataItem svarLen (t.dropWhile dataBlank)).1,
      waiting (dataItem svarLen (t.dropWhile dataBlank)).2 ts) := by
  rw [takeItem, if_neg h]

/-- The items of the texts, one text after the other. -/
def dataItems (ts : List Text) : List Text := ts.flatMap fun t => (items t).map Field.value

theorem dataItems_cons (t : Text) (ts : List Text) :
    dataItems (t :: ts) = (items t).map Field.value ++ dataItems ts := List.flatMap_cons

theorem dataItems_waiting (t : Text) (ts : List Text) :
    dataItems (waiting t ts) = (items t).map Field.value ++ dataItems ts := by
  rw [waiting]
  split_ifs with hnil
  · rw [hnil, items_nil]
    rfl
  · exact dataItems_cons t ts

/-- From tidy texts the items come in their order. -/
theorem takeItem_tidy {ts : List Text} (h : ∀ t ∈ ts, Tidy t) :
    (takeItem ts).1 = (dataItems ts).head? ∧ dataItems (takeItem ts).2 = (dataItems ts).tail ∧
      ∀ t ∈ (takeItem ts).2, Tidy t := by
  induction ts with
  | nil => exact ⟨rfl, rfl, fun t ht => by cases ht⟩
  | cons t ts ih =>
    have hskip := items_dropWhile t
    by_cases hnil : t.dropWhile dataBlank = []
    · rw [hnil, items_nil] at hskip
      rw [takeItem_blank hnil, dataItems_cons, ← hskip]
      exact ih fun u hu => h u (List.mem_cons_of_mem t hu)
    · have hhead : dataBlank ((t.dropWhile dataBlank).headD 0) = false := by
        have hstop := List.head_dropWhile_not dataBlank hnil
        obtain ⟨c, r, hsplit⟩ := List.exists_cons_of_ne_nil hnil
        simp only [hsplit, List.head_cons] at hstop
        rw [hsplit]
        exact hstop
      have htidy : Tidy (t.dropWhile dataBlank) := by
        intro f hf
        exact h t List.mem_cons_self f (hskip ▸ hf)
      obtain ⟨hitems, hleft⟩ := dataItem_tidy hnil hhead htidy
      rw [takeItem_item hnil, dataItems_cons, ← hskip, hitems]
      refine ⟨rfl, dataItems_waiting _ _, fun u hu => ?_⟩
      rw [waiting] at hu
      split_ifs at hu
      · exact h u (List.mem_cons_of_mem t hu)
      · obtain rfl | hu := List.mem_cons.mp hu
        · exact hleft
        · exact h u (List.mem_cons_of_mem t hu)

end XinuRpi4.Basic
