import Mathlib.Data.Finmap
import XinuRpi4.Basic.ProgramStore
import XinuRpi4.Foundation.Runs

/-!
# The program store is a bounded sorted map

What a BASIC program is: a map from line numbers to texts of at most 95
characters, with at most 320 lines. Entering a text binds its number, entering
a blank one unbinds it. The array of the interpreter holds this map in the
order of the line numbers.
-/

namespace XinuRpi4.Basic

open XinuRpi4.Foundation

abbrev Lines := Finmap fun _ : ℕ => List UInt8

/-- The lines of a program and what was printed while it was entered. -/
structure Replay where
  lines : Lines
  out : List String

namespace Replay

def emit (m : Replay) (s : String) : Replay := { m with out := m.out ++ [s] }

def enter (m : Replay) (line : ℕ × List UInt8) : Replay :=
  if line.2.all isBlank then { m with lines := m.lines.erase line.1 }
  else if line.1 ∉ m.lines ∧ maxprog ≤ m.lines.keys.card then m.emit "?too many lines\n"
  else { m with lines := m.lines.insert line.1 (line.2.take (plinelen - 1)) }

def step (tab : SampleTable) (m : Replay) : Entry → Replay
  | .line l =>
    match programLine l.bytes with
    | some p => m.enter p
    | none => m
  | .load raw =>
    match tab.find raw.bytes with
    | some s =>
      (s.lines.foldl (fun (m : Replay) l => m.enter (numbered l.bytes)) { m with lines := ∅ }).emit "Ok\n"
    | none => m.emit "?file not found\n"
  | .new => { m with lines := ∅ }.emit "Ok\n"

def init : Replay := { lines := ∅, out := [] }

end Replay

theorem cstr_eq {t : ℕ → UInt8} {s : List UInt8} (hlen : s.length < plinelen) (hs : 0 ∉ s)
    (ht : ∀ i c, s[i]? = some c → t i = c) (hend : t s.length = 0) : cstr t = s := by
  obtain ⟨k, hk⟩ : ∃ k, plinelen = s.length + (k + 1) := ⟨plinelen - s.length - 1, by omega⟩
  have hprefix : (List.range s.length).map t = s := by
    apply List.ext_getElem (by simp)
    intro i _ hi
    simpa using ht i _ (List.getElem?_eq_getElem hi)
  have hpos : ∀ c ∈ s, (c != 0) = true := by
    intro c hc
    simp only [bne_iff_ne]
    rintro rfl
    exact hs hc
  unfold cstr
  rw [hk, List.range_add, List.map_append, hprefix, List.takeWhile_append_of_pos hpos]
  simp [List.range_succ_eq_map, hend]

theorem lt_plinelen {k : ℕ} (hk : k ≤ plinelen - 1) : k < plinelen := by
  have : 0 < plinelen := by decide
  omega

theorem copyText_eq {k : ℕ} (hk : k ≤ plinelen - 1) (s : List UInt8) (t : ℕ → UInt8) :
    ∃ t', copyText s k t = some t' ∧ (∀ j < k, t' j = t j) ∧
      (∀ i c, (s.take (plinelen - 1 - k))[i]? = some c → t' (k + i) = c) ∧
      t' (k + (s.take (plinelen - 1 - k)).length) = 0 := by
  have hlt := lt_plinelen hk
  have hstop : ∃ t', Cells.store plinelen t k 0 = some t' ∧ (∀ j < k, t' j = t j) ∧ t' k = 0 := by
    refine ⟨_, Cells.store_of_lt hlt, fun j hj => ?_, by simp⟩
    exact Function.update_of_ne hj.ne _ _
  induction s generalizing k t with
  | nil => simpa [copyText] using hstop
  | cons c s ih =>
    by_cases hroom : k < plinelen - 1
    · have hk' : k + 1 ≤ plinelen - 1 := hroom
      have hlt' := lt_plinelen hk'
      obtain ⟨t', hcopy, hbefore, hcopied, hend⟩ := ih hk' (Function.update t k c) hlt' (by
        refine ⟨_, Cells.store_of_lt hlt', fun j hj => ?_, by simp⟩
        exact Function.update_of_ne hj.ne _ _)
      have htake : (c :: s).take (plinelen - 1 - k) = c :: s.take (plinelen - 1 - (k + 1)) := by
        rw [show plinelen - 1 - k = plinelen - 1 - (k + 1) + 1 by omega, List.take_succ_cons]
      refine ⟨t', by simp [copyText, hroom, hlt, hcopy], ?_, ?_, ?_⟩
      · intro j hj
        rw [hbefore j (by omega), Function.update_of_ne hj.ne]
      · intro i d hd
        rw [htake] at hd
        cases i with
        | zero =>
          obtain rfl : c = d := by simpa using hd
          simpa using hbefore k (by omega)
        | succ i =>
          rw [← hcopied i d (by simpa using hd)]
          congr 1
          omega
      · rw [htake, List.length_cons, ← hend]
        congr 1
        omega
    · have hfull : plinelen - 1 - k = 0 := by omega
      simpa [copyText, hroom, hfull] using hstop

/-- A copied text is read back as its first 95 characters. -/
theorem copyText_spec {s : List UInt8} (hs : 0 ∉ s) (t : ℕ → UInt8) :
    ∃ t', copyText s 0 t = some t' ∧ cstr t' = s.take (plinelen - 1) ∧
      ∃ k < plinelen, t' k = 0 := by
  obtain ⟨t', hcopy, _, hcopied, hend⟩ := copyText_eq (Nat.zero_le _) s t
  simp only [Nat.zero_add, Nat.sub_zero] at hcopied hend
  have hlen : (s.take (plinelen - 1)).length < plinelen := by
    simp [plinelen]
  refine ⟨t', hcopy, ?_, _, hlen, hend⟩
  exact cstr_eq hlen (fun h => hs (List.mem_of_mem_take h)) hcopied hend

/-- The array holds the lines of the map, in the order of their numbers. -/
structure Refines (b : Store) (m : Replay) : Prop where
  sorted : SortedBy Line.no b.prog b.nprog
  fits : b.nprog ≤ maxprog
  ended : ∀ l, InTable b.prog b.nprog l → ∃ k < plinelen, l.text k = 0
  binds : ∀ no t, m.lines.lookup no = some t ↔
    ∃ l, InTable b.prog b.nprog l ∧ l.no = no ∧ cstr l.text = t
  out : b.out = m.out

variable {b b' : Store} {m : Replay} {no i : ℕ} {text : List UInt8}

namespace Store

theorem findLine_some (h : b.findLine no = some i) : i < b.nprog ∧ (b.prog i).no = no := by
  have hi := List.mem_of_find?_eq_some h
  have hno := List.find?_some h
  exact ⟨by simpa using hi, by simpa using hno⟩

theorem findLine_none (h : b.findLine no = none) {i : ℕ} (hi : i < b.nprog) :
    (b.prog i).no ≠ no := by
  have := List.find?_eq_none.mp h i (List.mem_range.mpr hi)
  simpa using this

theorem findLine_isSome : (∃ i, b.findLine no = some i) ↔ ∃ l, InTable b.prog b.nprog l ∧ l.no = no := by
  constructor
  · rintro ⟨i, h⟩
    obtain ⟨hi, hno⟩ := findLine_some h
    exact ⟨_, ⟨i, hi, rfl⟩, hno⟩
  · rintro ⟨l, ⟨i, hi, rfl⟩, hno⟩
    cases h : b.findLine no with
    | some j => exact ⟨j, rfl⟩
    | none => exact absurd hno (findLine_none h hi)

theorem insertPos_spec (b : Store) (no : ℕ) :
    b.insertPos no ≤ b.nprog ∧ (∀ i < b.insertPos no, (b.prog i).no ≤ no) ∧
      (b.insertPos no < b.nprog → no < (b.prog (b.insertPos no)).no) := by
  unfold insertPos
  cases h : (List.range b.nprog).find? fun j => decide (no < (b.prog j).no) with
  | none =>
    refine ⟨le_rfl, fun i hi => ?_, fun hlt => absurd hlt (lt_irrefl _)⟩
    have := List.find?_eq_none.mp h i (List.mem_range.mpr hi)
    simpa using this
  | some j =>
    obtain ⟨hlarger, i, hi, rfl, hbefore⟩ := List.find?_eq_some_iff_getElem.mp h
    rw [List.length_range] at hi
    refine ⟨by simpa using hi.le, ?_, ?_⟩
    · intro k hk
      have hk' : k < i := by simpa using hk
      simpa using hbefore k hk'
    · intro _
      simpa using hlarger

end Store

theorem Refines.mem_iff (h : Refines b m) : no ∈ m.lines ↔ ∃ i, b.findLine no = some i := by
  rw [Store.findLine_isSome, Finmap.mem_iff]
  constructor
  · rintro ⟨t, ht⟩
    obtain ⟨l, hl, hno, _⟩ := (h.binds no t).mp ht
    exact ⟨l, hl, hno⟩
  · rintro ⟨l, hl, hno⟩
    exact ⟨_, (h.binds no _).mpr ⟨l, hl, hno, rfl⟩⟩

/-- As many numbers are bound as lines are stored. -/
theorem Refines.card (h : Refines b m) : m.lines.keys.card = b.nprog := by
  have hkeys : m.lines.keys = (Finset.range b.nprog).image fun i => (b.prog i).no := by
    ext no
    rw [Finmap.mem_keys, h.mem_iff, Store.findLine_isSome]
    simp [InTable]
  rw [hkeys, Finset.card_image_of_injOn, Finset.card_range]
  intro i hi j hj hij
  exact h.sorted.index_unique (by simpa using hi) (by simpa using hj) hij

/-- The array without the line `no` holds the map without it. -/
theorem Refines.erase (h : Refines b m) (hsorted : SortedBy Line.no b'.prog b'.nprog)
    (hfits : b'.nprog ≤ maxprog) (hout : b'.out = b.out)
    (hin : ∀ l, InTable b'.prog b'.nprog l ↔ InTable b.prog b.nprog l ∧ l.no ≠ no) :
    Refines b' { m with lines := m.lines.erase no } where
  sorted := hsorted
  fits := hfits
  ended l hl := h.ended l ((hin l).mp hl).1
  binds no' t := by
    by_cases hno : no' = no
    · subst hno
      rw [Finmap.lookup_erase]
      constructor
      · intro hnone
        cases hnone
      · rintro ⟨l, hl, hl', _⟩
        exact absurd hl' ((hin l).mp hl).2
    · rw [Finmap.lookup_erase_ne hno, h.binds]
      constructor
      · rintro ⟨l, hl, rfl, ht⟩
        exact ⟨l, (hin l).mpr ⟨hl, hno⟩, rfl, ht⟩
      · rintro ⟨l, hl, hl', ht⟩
        exact ⟨l, ((hin l).mp hl).1, hl', ht⟩
  out := hout.trans h.out

/-- The array with a new line in place of any of its number holds the map with
that binding. -/
theorem Refines.insert (h : Refines b m) (new : Line)
    (hsorted : SortedBy Line.no b'.prog b'.nprog) (hfits : b'.nprog ≤ maxprog)
    (hout : b'.out = b.out) (hend : ∃ k < plinelen, new.text k = 0)
    (hin : ∀ l, InTable b'.prog b'.nprog l ↔ l = new ∨ InTable b.prog b.nprog l ∧ l.no ≠ new.no) :
    Refines b' { m with lines := m.lines.insert new.no (cstr new.text) } where
  sorted := hsorted
  fits := hfits
  ended l hl := by
    obtain rfl | ⟨hl, _⟩ := (hin l).mp hl
    · exact hend
    · exact h.ended l hl
  binds no t := by
    by_cases hno : no = new.no
    · subst hno
      rw [Finmap.lookup_insert]
      constructor
      · rintro ⟨⟩
        exact ⟨new, (hin new).mpr (Or.inl rfl), rfl, rfl⟩
      · rintro ⟨l, hl, hl', ht⟩
        obtain rfl | ⟨_, hne⟩ := (hin l).mp hl
        · rw [ht]
        · exact absurd hl' hne
    · rw [Finmap.lookup_insert_of_ne _ hno, h.binds]
      constructor
      · rintro ⟨l, hl, rfl, ht⟩
        exact ⟨l, (hin l).mpr (Or.inr ⟨hl, hno⟩), rfl, ht⟩
      · rintro ⟨l, hl, rfl, ht⟩
        obtain rfl | ⟨hl, _⟩ := (hin l).mp hl
        · exact absurd rfl hno
        · exact ⟨l, hl, rfl, ht⟩
  out := hout.trans h.out

theorem Refines.emit (h : Refines b m) (s : String) : Refines (b.emit s) (m.emit s) :=
  ⟨h.sorted, h.fits, h.ended, h.binds, congrArg (· ++ [s]) h.out⟩

/-- A number that is stored is deleted or gets its new text. -/
theorem Refines.progSet_found (h : Refines b m) (hs : 0 ∉ text) (hf : b.findLine no = some i) :
    ∃ b', b.progSet no text = some b' ∧ Refines b' (m.enter (no, text)) := by
  obtain ⟨hi, rfl⟩ := Store.findLine_some hf
  have hcap : i < maxprog := hi.trans_le h.fits
  by_cases hempty : text.all isBlank = true
  · have hlast : i + (b.nprog - 1 - i) < maxprog := by
      have := h.fits
      omega
    have hclose := Cells.closeGap_eq hlast b.prog
    refine ⟨_, by simp [Store.progSet, hf, hempty, hclose]; rfl, ?_⟩
    simp only [Replay.enter, hempty, if_true]
    obtain ⟨hsorted, hin⟩ := h.sorted.remove (fun j =>
      if i ≤ j ∧ j < i + (b.nprog - 1 - i) then b.prog (j + 1) else b.prog j) hi (by
        intro k hk
        by_cases hki : k < i
        · simp [hki, show ¬ i ≤ k by omega]
        · rw [if_pos (by omega), if_neg hki])
    exact h.erase hsorted (by have := h.fits; simp; omega) rfl hin
  · obtain ⟨t, hcopy, ht, hend⟩ := copyText_spec hs (b.prog i).text
    refine ⟨_, by simp [Store.progSet, hf, hempty, hcap, hcopy]; rfl, ?_⟩
    have hmem : (b.prog i).no ∈ m.lines := h.mem_iff.mpr ⟨i, hf⟩
    simp only [Replay.enter, hempty, hmem, ← ht]
    obtain ⟨hsorted, hin⟩ := h.sorted.replace (x := { b.prog i with text := t }) hi rfl
    exact h.insert { b.prog i with text := t } hsorted h.fits rfl hend hin

/-- A new number is put in its place, unless the array is full. -/
theorem Refines.progSet_new (h : Refines b m) (hs : 0 ∉ text) (hf : b.findLine no = none) :
    ∃ b', b.progSet no text = some b' ∧ Refines b' (m.enter (no, text)) := by
  have hnot : no ∉ m.lines := by
    rw [h.mem_iff, hf]
    simp
  by_cases hempty : text.all isBlank = true
  · refine ⟨b, by simp [Store.progSet, hf, hempty], ?_⟩
    simp only [Replay.enter, hempty, if_true]
    refine h.erase h.sorted h.fits rfl fun l => ?_
    constructor
    · intro hl
      refine ⟨hl, ?_⟩
      obtain ⟨j, hj, rfl⟩ := hl
      exact Store.findLine_none hf hj
    · exact And.left
  · by_cases hfull : maxprog ≤ b.nprog
    · refine ⟨_, by simp [Store.progSet, hf, hempty, hfull]; rfl, ?_⟩
      simp only [Replay.enter, hempty, hnot, h.card, hfull]
      exact h.emit _
    · obtain ⟨hpos, hbefore, hat⟩ := b.insertPos_spec no
      obtain ⟨hbelow, habove⟩ :=
        h.sorted.below_first (fun i hi => Store.findLine_none hf hi) hpos hbefore hat
      have hroom : b.nprog < maxprog := not_le.mp hfull
      have hopen := Cells.openGap_eq hroom (b.insertPos no) b.prog
      obtain ⟨t, hcopy, ht, hend⟩ := copyText_spec hs (b.prog (b.insertPos no)).text
      refine ⟨_, by simp [Store.progSet, hf, hempty, hfull, hopen, hpos.trans_lt hroom, hcopy]; rfl, ?_⟩
      simp only [Replay.enter, hempty, hnot, h.card, hfull, ← ht]
      obtain ⟨hsorted, hin⟩ := h.sorted.insert (x := { no := no, text := t })
        (Function.update (fun k =>
          if b.insertPos no < k ∧ k ≤ b.nprog then b.prog (k - 1) else b.prog k)
          (b.insertPos no) { no := no, text := t }) hpos hbelow habove (by
            intro k hk
            obtain hlt | rfl | hgt := Nat.lt_trichotomy k (b.insertPos no)
            · simp [hlt, hlt.ne, hlt.not_gt]
            · simp
            · simp [hgt, hgt.ne', hgt.not_gt, hk])
      refine h.insert { no := no, text := t } hsorted hroom rfl hend fun l => ?_
      rw [hin]
      constructor
      · rintro (hl | hl)
        · exact Or.inl hl
        · refine Or.inr ⟨hl, ?_⟩
          obtain ⟨j, hj, rfl⟩ := hl
          exact Store.findLine_none hf hj
      · rintro (hl | ⟨hl, _⟩)
        · exact Or.inl hl
        · exact Or.inr hl

theorem Refines.progSet (h : Refines b m) (hs : 0 ∉ text) (no : ℕ) :
    ∃ b', b.progSet no text = some b' ∧ Refines b' (m.enter (no, text)) := by
  cases hf : b.findLine no with
  | some i => exact h.progSet_found hs hf
  | none => exact h.progSet_new hs hf

theorem lineNumber_suffix (no : ℕ) (s : List UInt8) : (lineNumber no s).2 <:+ s := by
  induction s generalizing no with
  | nil => simp [lineNumber]
  | cons c cs ih =>
    simp only [lineNumber]
    split_ifs
    · exact (ih _).trans (List.suffix_cons c cs)
    · exact List.suffix_refl _

theorem numbered_noNul {s : List UInt8} (hs : 0 ∉ s) : 0 ∉ (numbered s).2 := by
  have hsuffix : (numbered s).2 <:+ s :=
    (List.dropWhile_suffix _).trans (lineNumber_suffix 0 s)
  exact fun h => hs (hsuffix.subset h)

theorem programLine_noNul {s : List UInt8} (hs : 0 ∉ s) {p : ℕ × List UInt8}
    (hp : programLine s = some p) : 0 ∉ p.2 := by
  unfold programLine at hp
  cases hd : s.dropWhile isBlank with
  | nil => simp [hd] at hp
  | cons c cs =>
    simp only [hd] at hp
    split_ifs at hp
    cases hp
    refine numbered_noNul fun h => hs ?_
    rw [← hd] at h
    exact (List.dropWhile_suffix _).subset h

theorem Refines.setNumbered (h : Refines b m) {line : ℕ × List UInt8} (hs : 0 ∉ line.2)
    (hno : line.1 < 2 ^ 31) :
    ∃ b', b.setNumbered line = some b' ∧ Refines b' (m.enter line) := by
  simp only [Store.setNumbered, hno, if_true]
  exact h.progSet hs line.1

theorem Refines.clear (h : Refines b m) : Refines { b with nprog := 0 } { m with lines := ∅ } where
  sorted := SortedBy.empty _ _
  fits := Nat.zero_le _
  ended l hl := by
    obtain ⟨i, hi, _⟩ := hl
    simp at hi
  binds no t := by simp [InTable]
  out := h.out

theorem Refines.setLines (h : Refines b m) {ls : List CString}
    (hls : ∀ l ∈ ls, (numbered l.bytes).1 < 2 ^ 31) :
    ∃ b', Store.setLines ls b = some b' ∧
      Refines b' (ls.foldl (fun (m : Replay) l => m.enter (numbered l.bytes)) m) := by
  induction ls generalizing b m with
  | nil => exact ⟨b, rfl, h⟩
  | cons l ls ih =>
    obtain ⟨b₁, hb₁, h₁⟩ := h.setNumbered (numbered_noNul l.noNul) (hls l List.mem_cons_self)
    obtain ⟨b₂, hb₂, h₂⟩ := ih h₁ fun l' hl' => hls l' (List.mem_cons_of_mem l hl')
    exact ⟨b₂, by simp [Store.setLines, hb₁, hb₂], h₂⟩

/-- The step lemma. -/
theorem Refines.step (h : Refines b m) (tab : SampleTable) {e : Entry} (he : e.InRange) :
    ∃ b', b.step tab e = some b' ∧ Refines b' (m.step tab e) := by
  cases e with
  | line l =>
    cases hp : programLine l.bytes with
    | none => exact ⟨b, by simp [Store.step, hp], by simpa [Replay.step, hp] using h⟩
    | some p =>
      obtain ⟨b', hb', h'⟩ := h.setNumbered (programLine_noNul l.noNul hp) (he p hp)
      exact ⟨b', by simp [Store.step, hp, hb'], by simpa [Replay.step, hp] using h'⟩
  | load raw =>
    cases hs : tab.find raw.bytes with
    | none =>
      refine ⟨_, by simp [Store.step, Store.loadNamed, hs]; rfl, ?_⟩
      simpa [Replay.step, hs] using h.emit _
    | some s =>
      have hmem : s ∈ tab.samples := List.mem_of_find?_eq_some hs
      obtain ⟨b', hb', h'⟩ := h.clear.setLines (tab.inRange s hmem)
      refine ⟨_, by simp [Store.step, Store.loadNamed, hs, hb']; rfl, ?_⟩
      simpa [Replay.step, hs] using h'.emit _
  | new => exact ⟨_, rfl, h.clear.emit _⟩

theorem refines_init (prog : ℕ → Line) : Refines (Store.init prog) Replay.init where
  sorted := SortedBy.empty _ _
  fits := Nat.zero_le _
  ended l hl := by
    obtain ⟨i, hi, _⟩ := hl
    simp [Store.init] at hi
  binds no t := by simp [InTable, Store.init, Replay.init]
  out := rfl

/-- The run lemma. -/
theorem Refines.exec (h : Refines b m) (tab : SampleTable) {es : List Entry}
    (hes : ∀ e ∈ es, e.InRange) :
    ∃ b', exec (Store.step tab) b es = some b' ∧ Refines b' (es.foldl (Replay.step tab) m) := by
  induction es generalizing b m with
  | nil => exact ⟨b, rfl, h⟩
  | cons e es ih =>
    obtain ⟨b₁, hb₁, h₁⟩ := h.step tab (hes e List.mem_cons_self)
    obtain ⟨b₂, hb₂, h₂⟩ := ih h₁ fun e' he' => hes e' (List.mem_cons_of_mem e he')
    exact ⟨b₂, by simp [Foundation.exec, hb₁, hb₂], h₂⟩

/-- After any entries the array is sorted, bounded and terminated, and it holds
the map that the entries build, with the same messages printed. -/
theorem program_store_refines_map (tab : SampleTable) (prog : ℕ → Line) (es : List Entry)
    (hes : ∀ e ∈ es, e.InRange) :
    let m := es.foldl (Replay.step tab) Replay.init
    ∃ b, exec (Store.step tab) (Store.init prog) es = some b ∧
      (∀ i j, i < j → j < b.nprog → (b.prog i).no < (b.prog j).no) ∧
      b.nprog ≤ maxprog ∧
      (∀ i < b.nprog, ∃ k < plinelen, (b.prog i).text k = 0) ∧
      (∀ no t, m.lines.lookup no = some t ↔
        ∃ i < b.nprog, (b.prog i).no = no ∧ cstr (b.prog i).text = t) ∧
      b.out = m.out ∧
      (∀ no, no ∈ m.lines ↔ ∃ i, b.findLine no = some i) ∧
      ∀ no i, b.findLine no = some i → i < b.nprog ∧ (b.prog i).no = no := by
  intro m
  obtain ⟨b, hb, h⟩ := (refines_init prog).exec tab hes
  refine ⟨b, hb, h.sorted, h.fits, fun i hi => h.ended _ ⟨i, hi, rfl⟩, ?_, h.out,
    fun no => h.mem_iff, fun no i => Store.findLine_some⟩
  intro no t
  rw [h.binds]
  constructor
  · rintro ⟨l, ⟨i, hi, rfl⟩, hno, ht⟩
    exact ⟨i, hi, hno, ht⟩
  · rintro ⟨i, hi, hno, ht⟩
    exact ⟨_, ⟨i, hi, rfl⟩, hno, ht⟩

/-- `20 B` and `10 A`, one typed after the other. -/
def twoLines : List Entry :=
  [.line ⟨[50, 48, 32, 66], by decide⟩, .line ⟨[49, 48, 32, 65], by decide⟩]

theorem program_store_refines_map_two_lines :
    ∃ b, exec (Store.step ⟨[], by simp⟩) (Store.init fun _ => ⟨0, fun _ => 0⟩) twoLines = some b ∧
      ∃ i < b.nprog, (b.prog i).no = 10 ∧ cstr (b.prog i).text = [65] := by
  have hes : ∀ e ∈ twoLines, e.InRange := by
    intro e he
    simp only [twoLines, List.mem_cons, List.not_mem_nil, or_false] at he
    rcases he with rfl | rfl <;> rintro p hp <;> cases hp <;> decide
  obtain ⟨b, hb, _, _, _, hbinds, _⟩ :=
    program_store_refines_map ⟨[], by simp⟩ (fun _ => ⟨0, fun _ => 0⟩) twoLines hes
  exact ⟨b, hb, (hbinds 10 [65]).mp (by rfl)⟩

end XinuRpi4.Basic
