import XinuRpi4.Foundation.FixedLine
import XinuRpi4.Foundation.Runs

/-!
# The screen editor of the BASIC window

Keys, the output of the interpreter and the clicks on the toolbar share one cursor. Output leaves
the cursor behind the last column of a full row, and so does the End key; a character that is typed
there is stored where the NUL of the row is.
-/

namespace XinuRpi4.Video

open XinuRpi4.Foundation

def bwCols : ℕ := 96

def bwRows : ℕ := 360

/-- `' '` -/
def blank : UInt8 := 0x20

/-- The bytes that are shown and typed. -/
def Printable (c : UInt8) : Prop := 0x20 ≤ c ∧ c ≤ 0x7E

instance (c : UInt8) : Decidable (Printable c) := inferInstanceAs (Decidable (_ ∧ _))

inductive EscState
  | none | esc | bracket
deriving DecidableEq

/-- The statics of `basicwin.c`, and the lines that `basic_exec_line` was called with. -/
structure Editor where
  grid : ℕ → ℕ → UInt8
  curRow : ℕ
  curCol : ℕ
  viewTop : ℕ
  escState : EscState
  gfxOn : Bool
  executed : List (List UInt8)

/-- `clear_row`: the blanks and the NUL. -/
def clearRow (row : ℕ → UInt8) : ℕ → UInt8 := fill row 0 (List.replicate bwCols blank ++ [0])

namespace Editor

variable (s : Editor)

/-- A cell is stored; there is no result outside the grid. -/
def put (r i : ℕ) (c : UInt8) : Option Editor := do
  let row ← Cells.load bwRows s.grid r
  let row ← Cells.store (bwCols + 1) row i c
  let grid ← Cells.store bwRows s.grid r row
  some { s with grid }

def clearAll : Editor :=
  { s with
    grid := fun r => if r < bwRows then clearRow (s.grid r) else s.grid r
    curRow := 0
    curCol := 0
    viewTop := 0 }

/-- The rows move up, and the last one is cleared. -/
def scrollBuffer : Option Editor := do
  let grid ← Cells.closeGap bwRows (bwRows - 1) 0 s.grid
  let last ← Cells.load bwRows grid (bwRows - 1)
  let grid ← Cells.store bwRows grid (bwRows - 1) (clearRow last)
  some { s with grid, curRow := s.curRow - 1, viewTop := s.viewTop - 1 }

def cursorDownOne : Option Editor :=
  if s.curRow + 1 ≥ bwRows then do
    let s ← { s with curRow := s.curRow + 1 }.scrollBuffer
    some { s with curRow := bwRows - 1 }
  else some { s with curRow := s.curRow + 1 }

/-- Behind the last column output goes on in the next row. -/
def wrap : Option Editor :=
  if s.curCol ≥ bwCols then { s with curCol := 0 }.cursorDownOne else some s

/-- `bw_putc` -/
def putc (c : UInt8) : Option Editor :=
  if c = 0x0D then some { s with curCol := 0 }
  else if c = 0x0A then { s with curCol := 0 }.cursorDownOne
  else if c = 0x08 then some (if s.curCol > 0 then { s with curCol := s.curCol - 1 } else s)
  else if ¬ Printable c then some s
  else do
    let s ← s.wrap
    let s' ← s.put s.curRow s.curCol c
    some { s' with curCol := s.curCol + 1 }

/-- `bw_emit` -/
def emit (text : List UInt8) : Option Editor := text.foldlM (fun s c => s.putc c) s

/-- `bw_cls` -/
def cls (mode : BitVec 32) : Editor :=
  let s := if mode &&& 1 ≠ 0 then s.clearAll else s
  let s := if mode &&& 2 ≠ 0 then { s with gfxOn := true } else s
  if mode = 0 then s.clearAll else s

/-- `insert_char` -/
def insertChar (c : UInt8) : Option Editor := do
  let row ← Cells.load bwRows s.grid s.curRow
  let row ← Cells.openGap (bwCols + 1) s.curCol (bwCols - 1) row
  let row ← Cells.store (bwCols + 1) row s.curCol c
  let grid ← Cells.store bwRows s.grid s.curRow row
  some { s with grid, curCol := if s.curCol < bwCols - 1 then s.curCol + 1 else s.curCol }

def backspace : Option Editor :=
  if s.curCol > 0 then do
    let row ← Cells.load bwRows s.grid s.curRow
    let row ← Cells.closeGap (bwCols + 1) (bwCols - 1 - (s.curCol - 1)) (s.curCol - 1) row
    let row ← Cells.store (bwCols + 1) row (bwCols - 1) blank
    let grid ← Cells.store bwRows s.grid s.curRow row
    some { s with grid, curCol := s.curCol - 1 }
  else if s.curRow > s.viewTop then some { s with curRow := s.curRow - 1, curCol := 0 }
  else some s

/-- How much of a row is left without its trailing blanks. -/
def rowLength (row : ℕ → UInt8) : ℕ := FixedLine.trimLength (· = blank) row bwCols

/-- `row_text`: what is copied into a buffer of `cap` bytes. -/
def rowText (row : ℕ → UInt8) (cap : ℕ) : List UInt8 :=
  slice row 0 (if rowLength row > cap - 1 then cap - 1 else rowLength row)

def doEnter : Option Editor := do
  let row ← Cells.load bwRows s.grid s.curRow
  let line := rowText row (bwCols + 1)
  let s ← { s with curCol := 0 }.cursorDownOne
  some
    (if line ≠ [] then { s with executed := s.executed ++ [line] }
    else { s with gfxOn := false })

/-- The key behind `ESC [`. -/
def navigate (c : UInt8) : Option Editor :=
  if c = 0x41 then some { s with curRow := s.curRow - 1 }
  else if c = 0x42 then some (if s.curRow < bwRows - 1 then { s with curRow := s.curRow + 1 } else s)
  else if c = 0x43 then some (if s.curCol < bwCols - 1 then { s with curCol := s.curCol + 1 } else s)
  else if c = 0x44 then some { s with curCol := s.curCol - 1 }
  else if c = 0x48 then some { s with curCol := 0 }
  else if c = 0x46 then do
    let row ← Cells.load bwRows s.grid s.curRow
    some { s with curCol := rowLength row }
  else if c = 0x35 then some { s with curRow := if s.curRow ≥ 20 then s.curRow - 20 else 0 }
  else if c = 0x36 then
    some { s with curRow := if s.curRow < bwRows - 20 then s.curRow + 20 else bwRows - 1 }
  else some s

/-- `basicwin_handle_key` -/
def handleKey (c : UInt8) : Option Editor :=
  match s.escState with
  | .esc => some { s with escState := if c = 0x5B then .bracket else .none }
  | .bracket => { s with escState := .none }.navigate c
  | .none =>
    if c = 0x1B then some { s with escState := .esc }
    else if c = 0x03 then { s with curCol := 0 }.cursorDownOne
    else if c = 0x0D ∨ c = 0x0A then s.doEnter
    else if c = 0x08 ∨ c = 0x7F then s.backspace
    else if c ≥ 0x20 ∧ c < 0x7F then s.insertChar c
    else some s

/-- The commands of the toolbar. -/
def bwBtns : List (List UInt8) :=
  ["FILES", "LIST", "RUN \"hanoi\"", "RUN \"bsort\"", "RUN \"fizz\"", "RUN \"qsort\"",
    "RUN \"koch\""].map fun t => t.toList.map fun c => UInt8.ofNat c.toNat

/-- `bw_on_click`: the button under the pointer, if there is one. -/
def onClick (cmd : Option (Fin 7)) : Option Editor :=
  match cmd with
  | some i => do
    let cmd := bwBtns.getD i []
    let s ← s.emit cmd
    let s ← s.putc 0x0A
    some { s with executed := s.executed ++ [cmd] }
  | none => some s

/-- `visible_rows` -/
def visibleRows (height fs : ℤ) : ℕ :=
  let vr := (height - 12 - 20 - 7).tdiv ((8 + 1) * fs)
  if vr < 1 then 1 else if vr > bwRows then bwRows else vr.toNat

/-- `basicwin_draw`: the view follows the cursor. -/
def draw (height fontScale : ℤ) : Editor :=
  let vr := visibleRows height (if fontScale > 0 then fontScale else 1)
  let top := if s.curRow < s.viewTop then s.curRow else s.viewTop
  { s with viewTop := if s.curRow ≥ top + vr then s.curRow - vr + 1 else top }

/-- `basicwin_init` -/
def init : Editor :=
  { grid := fun _ _ => 0, curRow := 0, curCol := 0, viewTop := 0, escState := .none, gfxOn := false
    executed := [] : Editor }.clearAll

end Editor

inductive EditorEvent
  | key (c : UInt8)
  | emit (text : List UInt8)
  | cls (mode : BitVec 32)
  /-- LINE, CIRCLE and PLOT. -/
  | graphics
  | click (button : Option (Fin 7))
  | draw (height fontScale : ℤ)

namespace Editor

/-- There is no next state when a cell outside the grid is read or written. -/
def step (s : Editor) : EditorEvent → Option Editor
  | .key c => s.handleKey c
  | .emit text => s.emit text
  | .cls mode => some (s.cls mode)
  | .graphics => some { s with gfxOn := true }
  | .click button => s.onClick button
  | .draw height fontScale => some (s.draw height fontScale)

/-- A string of the width of the grid. -/
def IsRow (row : ℕ → UInt8) : Prop := (∀ i < bwCols, row i ≠ 0) ∧ row bwCols = 0

/-- The cursor is in the grid, and every row is a string. -/
structure RowsKept (s : Editor) : Prop where
  cursor : s.curRow < bwRows
  rows : ∀ r < bwRows, IsRow (s.grid r)

/-- The text of a row. -/
def text (s : Editor) (r : ℕ) : List UInt8 := slice (s.grid r) 0 bwCols

/-- What a character that is typed does. -/
structure Typed (s s' : Editor) (c : UInt8) : Prop where
  others : ∀ r, r ≠ s.curRow → s'.grid r = s.grid r
  shifted : s'.text s.curRow = FixedLine.insertAt (s.text s.curRow) s.curCol c
  restored : (s.text s.curRow).getLast? = some blank →
    ∃ s'', s'.step (.key 0x08) = some s'' ∧ ∀ r, s''.text r = s.text r

/-- What Enter does. -/
def Entered (s s' : Editor) : Prop :=
  let line := (s.text s.curRow).rdropWhile (· = blank)
  s'.executed = if line = [] then s.executed else s.executed ++ [line]

/-- A step stays in the grid, and keys do what they are for. -/
def Edits (s : Editor) (e : EditorEvent) : Prop :=
  ∃ s', s.step e = some s' ∧ ∀ c, e = .key c → s.escState = .none →
    (Printable c → s.Typed s' c) ∧ (c = 0x0D ∨ c = 0x0A → s.Entered s')

/-- A character is typed in front of the last column, or where the deletion gives the row back. -/
def Typable (s : Editor) : EditorEvent → Prop
  | .key c => s.escState = .none → Printable c → s.curCol < bwCols - 1 ∨
      s.curCol = bwCols - 1 ∧
        (s.grid s.curRow (bwCols - 1) ≠ blank ∨ s.grid s.curRow (bwCols - 2) = c)
  | _ => True

/-- The cursor may be behind the last column. -/
structure Inv (s : Editor) : Prop extends RowsKept s where
  col : s.curCol ≤ bwCols

theorem clearRow_isRow (row : ℕ → UInt8) : IsRow (clearRow row) := by
  constructor
  · intro i hi
    have hlt : i < (List.replicate bwCols blank ++ [0]).length := by
      rw [List.length_append, List.length_replicate]
      exact Nat.lt_succ_of_lt hi
    rw [clearRow, fill_get hlt, List.get_eq_getElem,
      List.getElem_append_left (by rwa [List.length_replicate]), List.getElem_replicate]
    decide
  · rfl

theorem isRow_update {row : ℕ → UInt8} (h : IsRow row) {i : ℕ} (hi : i < bwCols) {c : UInt8}
    (hc : c ≠ 0) : IsRow (Function.update row i c) := by
  constructor
  · intro k hk
    rw [Function.update_apply]
    split_ifs
    · exact hc
    · exact h.1 k hk
  · rw [Function.update_of_ne (Nat.ne_of_gt hi)]
    exact h.2

theorem rows_update {grid : ℕ → ℕ → UInt8} (h : ∀ r < bwRows, IsRow (grid r)) {row : ℕ → UInt8}
    (hrow : IsRow row) (k : ℕ) : ∀ r < bwRows, IsRow (Function.update grid k row r) := by
  intro r hr
  rw [Function.update_apply]
  split_ifs
  · exact hrow
  · exact h r hr

theorem Printable.ne_zero {c : UInt8} (h : Printable c) : c ≠ 0 := by
  rintro rfl
  exact absurd h (by decide)

variable {s s' : Editor} {c : UInt8}

theorem put_eq {r i : ℕ} (hr : r < bwRows) (hi : i ≤ bwCols) (c : UInt8) :
    s.put r i c = some { s with grid := Function.update s.grid r (Function.update (s.grid r) i c) } := by
  simp only [put, Cells.load_of_lt hr, Cells.store_of_lt hr, Cells.store_of_lt (Nat.lt_succ_of_le hi),
    Option.bind_eq_bind, Option.bind_some]

theorem clearAll_inv (s : Editor) : s.clearAll.Inv where
  cursor := show 0 < bwRows by decide
  rows r hr := by
    simp only [clearAll, hr, if_true]
    exact clearRow_isRow _
  col := Nat.zero_le _

/-- What a move of the cursor to the next row leaves alone. -/
structure Moved (s s' : Editor) : Prop where
  curCol : s'.curCol = s.curCol
  executed : s'.executed = s.executed

theorem scrollBuffer_keeps (h : ∀ r < bwRows, IsRow (s.grid r)) : ∃ s', s.scrollBuffer = some s' ∧
    (∀ r < bwRows, IsRow (s'.grid r)) ∧ s.Moved s' := by
  have hlast : bwRows - 1 < bwRows := by decide
  simp only [scrollBuffer, Cells.closeGap_eq (show 0 + (bwRows - 1) < bwRows by decide),
    Option.bind_eq_bind, Option.bind_some, Cells.load_of_lt hlast, Cells.store_of_lt hlast]
  refine ⟨_, rfl, rows_update ?_ (clearRow_isRow _) _, rfl, rfl⟩
  intro r hr
  split_ifs with hin
  · exact h (r + 1) (by omega)
  · exact h r hr

theorem cursorDownOne_keeps (h : s.Inv) : ∃ s', s.cursorDownOne = some s' ∧ s'.Inv ∧ s.Moved s' := by
  unfold cursorDownOne
  split_ifs with hlast
  · obtain ⟨s', hs', hrows, hmoved⟩ :=
      scrollBuffer_keeps (s := { s with curRow := s.curRow + 1 }) h.rows
    rw [hs', Option.bind_eq_bind, Option.bind_some]
    have hcursor : bwRows - 1 < bwRows := by decide
    exact ⟨_, rfl, ⟨⟨hcursor, hrows⟩, hmoved.curCol.trans_le h.col⟩, hmoved.curCol, hmoved.executed⟩
  · exact ⟨_, rfl, ⟨⟨not_le.mp hlast, h.rows⟩, h.col⟩, rfl, rfl⟩

theorem home_inv (h : s.Inv) : { s with curCol := 0 }.Inv := ⟨⟨h.cursor, h.rows⟩, Nat.zero_le _⟩

theorem wrap_inv (h : s.Inv) : ∃ s', s.wrap = some s' ∧ s'.Inv ∧ s'.curCol < bwCols := by
  unfold wrap
  split_ifs with hfull
  · obtain ⟨t, ht, hinv, hmoved⟩ := cursorDownOne_keeps (home_inv h)
    exact ⟨t, ht, hinv, hmoved.curCol.trans_lt (show 0 < bwCols by decide)⟩
  · exact ⟨s, rfl, h, not_le.mp hfull⟩

theorem putc_inv (h : s.Inv) (c : UInt8) : ∃ s', s.putc c = some s' ∧ s'.Inv := by
  unfold putc
  split_ifs with hcr hlf hbs hcol hprint
  · exact ⟨_, rfl, home_inv h⟩
  · obtain ⟨s', hs', hinv, -⟩ := cursorDownOne_keeps (home_inv h)
    exact ⟨s', hs', hinv⟩
  · exact ⟨_, rfl, ⟨h.cursor, h.rows⟩, (Nat.sub_le _ _).trans h.col⟩
  · exact ⟨s, rfl, h⟩
  · obtain ⟨t, ht, hinv, hcol⟩ := wrap_inv h
    have hrow := isRow_update (hinv.rows _ hinv.cursor) hcol (Printable.ne_zero hprint)
    rw [ht, Option.bind_eq_bind, Option.bind_some, put_eq hinv.cursor hcol.le]
    exact ⟨_, rfl, ⟨hinv.cursor, rows_update hinv.rows hrow _⟩, hcol⟩
  · exact ⟨s, rfl, h⟩

theorem emit_inv (h : s.Inv) (text : List UInt8) : ∃ s', s.emit text = some s' ∧ s'.Inv := by
  induction text generalizing s with
  | nil => exact ⟨s, rfl, h⟩
  | cons c text ih =>
    obtain ⟨t, ht, hinv⟩ := putc_inv h c
    obtain ⟨s', hs', hinv'⟩ := ih hinv
    refine ⟨s', ?_, hinv'⟩
    rw [emit, List.foldlM_cons, ht]
    exact hs'

theorem cls_inv (h : s.Inv) (mode : BitVec 32) : (s.cls mode).Inv := by
  have htext : (if mode &&& 1 ≠ 0 then s.clearAll else s).Inv := by
    split_ifs
    · exact clearAll_inv s
    · exact h
  have hgfx : ∀ t : Editor, t.Inv → (if mode &&& 2 ≠ 0 then { t with gfxOn := true } else t).Inv := by
    intro t ht
    split_ifs
    · exact ⟨⟨ht.cursor, ht.rows⟩, ht.col⟩
    · exact ht
  by_cases hbare : mode = 0
  · simp only [cls, hbare, if_true]
    exact clearAll_inv _
  · simp only [cls, hbare, if_false]
    exact hgfx _ htext

theorem onClick_inv (h : s.Inv) (button : Option (Fin 7)) :
    ∃ s', s.onClick button = some s' ∧ s'.Inv := by
  cases button with
  | none => exact ⟨s, rfl, h⟩
  | some i =>
    obtain ⟨t, ht, hinv⟩ := emit_inv h (bwBtns.getD i [])
    obtain ⟨u, hu, hinv'⟩ := putc_inv hinv 0x0A
    simp only [onClick, ht, hu, Option.bind_eq_bind, Option.bind_some]
    exact ⟨_, rfl, ⟨hinv'.cursor, hinv'.rows⟩, hinv'.col⟩

theorem rowLength_le (row : ℕ → UInt8) : rowLength row ≤ bwCols := FixedLine.trimLength_le _ _ _

theorem navigate_inv (h : s.Inv) (c : UInt8) : ∃ s', s.navigate c = some s' ∧ s'.Inv := by
  have hrow : ∀ r < bwRows, { s with curRow := r }.Inv := fun r hr => ⟨⟨hr, h.rows⟩, h.col⟩
  have hcol : ∀ i ≤ bwCols, { s with curCol := i }.Inv := fun i hi => ⟨⟨h.cursor, h.rows⟩, hi⟩
  have hr := h.cursor
  have hc := h.col
  have hpage : bwRows - 20 < bwRows := by decide
  unfold navigate
  rw [Cells.load_of_lt h.cursor, Option.bind_eq_bind, Option.bind_some]
  by_cases hup : c = 0x41
  · rw [if_pos hup]
    exact ⟨_, rfl, hrow _ (by omega)⟩
  rw [if_neg hup]
  by_cases hdown : c = 0x42
  · rw [if_pos hdown]
    by_cases hlast : s.curRow < bwRows - 1
    · rw [if_pos hlast]
      exact ⟨_, rfl, hrow _ (by omega)⟩
    · rw [if_neg hlast]
      exact ⟨s, rfl, h⟩
  rw [if_neg hdown]
  by_cases hright : c = 0x43
  · rw [if_pos hright]
    by_cases hlast : s.curCol < bwCols - 1
    · rw [if_pos hlast]
      exact ⟨_, rfl, hcol _ (by omega)⟩
    · rw [if_neg hlast]
      exact ⟨s, rfl, h⟩
  rw [if_neg hright]
  by_cases hleft : c = 0x44
  · rw [if_pos hleft]
    exact ⟨_, rfl, hcol _ (by omega)⟩
  rw [if_neg hleft]
  by_cases hhome : c = 0x48
  · rw [if_pos hhome]
    exact ⟨_, rfl, hcol _ (Nat.zero_le _)⟩
  rw [if_neg hhome]
  by_cases hend : c = 0x46
  · rw [if_pos hend]
    exact ⟨_, rfl, hcol _ (rowLength_le _)⟩
  rw [if_neg hend]
  by_cases hpgup : c = 0x35
  · rw [if_pos hpgup]
    refine ⟨_, rfl, hrow _ ?_⟩
    split_ifs <;> omega
  rw [if_neg hpgup]
  by_cases hpgdn : c = 0x36
  · rw [if_pos hpgdn]
    refine ⟨_, rfl, hrow _ ?_⟩
    split_ifs <;> omega
  rw [if_neg hpgdn]
  exact ⟨s, rfl, h⟩

theorem draw_inv (h : s.Inv) (height fontScale : ℤ) : (s.draw height fontScale).Inv :=
  ⟨⟨h.cursor, h.rows⟩, h.col⟩

/-- What `row_text` copies is the row without its trailing blanks. -/
theorem rowText_eq (row : ℕ → UInt8) :
    rowText row (bwCols + 1) = (slice row 0 bwCols).rdropWhile (· = blank) := by
  have hle := rowLength_le row
  rw [rowText, if_neg (by omega)]
  exact FixedLine.slice_trimLength _ _ _

theorem doEnter_entered (h : s.Inv) : ∃ s', s.doEnter = some s' ∧ s'.Inv ∧ s.Entered s' := by
  obtain ⟨t, ht, hinv, hmoved⟩ := cursorDownOne_keeps (home_inv h)
  simp only [doEnter, Cells.load_of_lt h.cursor, ht, Option.bind_eq_bind, Option.bind_some, rowText_eq]
  refine ⟨_, rfl, ?_, ?_⟩
  · split_ifs
    · exact ⟨⟨hinv.cursor, hinv.rows⟩, hinv.col⟩
    · exact ⟨⟨hinv.cursor, hinv.rows⟩, hinv.col⟩
  · unfold Entered text
    by_cases hline : (slice (s.grid s.curRow) 0 bwCols).rdropWhile (· = blank) = []
    · simp only [hline, ne_eq, not_true_eq_false, if_false, if_true]
      exact hmoved.executed
    · simp only [hline, ne_eq, not_false_eq_true, if_false, if_true]
      exact congrArg (· ++ _) hmoved.executed

theorem insertChar_eq (h : s.Inv) (c : UInt8) : s.insertChar c =
    some { s with
      grid := Function.update s.grid s.curRow
        (FixedLine.inserted (s.grid s.curRow) bwCols s.curCol c)
      curCol := if s.curCol < bwCols - 1 then s.curCol + 1 else s.curCol } := by
  simp only [insertChar, Cells.load_of_lt h.cursor, Cells.store_of_lt h.cursor,
    Cells.openGap_eq (show bwCols - 1 < bwCols + 1 by decide),
    Cells.store_of_lt (Nat.lt_succ_of_le h.col), Option.bind_eq_bind, Option.bind_some]
  have hrow : Function.update (fun k => if s.curCol < k ∧ k ≤ bwCols - 1 then s.grid s.curRow (k - 1)
      else s.grid s.curRow k) s.curCol c =
        FixedLine.inserted (s.grid s.curRow) bwCols s.curCol c := by
    funext k
    rw [Function.update_apply, FixedLine.inserted]
    have hlast : k ≤ bwCols - 1 ↔ k < bwCols := Nat.le_sub_one_iff_lt (by decide)
    simp only [hlast]
  rw [hrow]

theorem backspace_eq (h : s.curRow < bwRows) (hcol : 0 < s.curCol) (hle : s.curCol ≤ bwCols) :
    s.backspace = some { s with
      grid := Function.update s.grid s.curRow
        (FixedLine.deleted blank (s.grid s.curRow) bwCols (s.curCol - 1))
      curCol := s.curCol - 1 } := by
  have hend : s.curCol - 1 + (bwCols - 1 - (s.curCol - 1)) = bwCols - 1 := by omega
  have hcap : bwCols - 1 < bwCols + 1 := by decide
  simp only [backspace, hcol, if_true, Cells.load_of_lt h, Cells.store_of_lt h,
    Cells.closeGap_eq (hend.trans_lt hcap), Cells.store_of_lt hcap, hend, Option.bind_eq_bind,
    Option.bind_some]
  have hrow : Function.update (fun k => if s.curCol - 1 ≤ k ∧ k < bwCols - 1 then
      s.grid s.curRow (k + 1) else s.grid s.curRow k) (bwCols - 1) blank =
        FixedLine.deleted blank (s.grid s.curRow) bwCols (s.curCol - 1) := by
    funext k
    rw [Function.update_apply, FixedLine.deleted]
    have hlast : k = bwCols - 1 ↔ k + 1 = bwCols := by
      simp only [bwCols]
      omega
    by_cases hk : k + 1 = bwCols
    · rw [if_pos (hlast.mpr hk), if_pos hk]
    · have hin : k < bwCols - 1 ↔ k < bwCols := by
        simp only [bwCols] at hk ⊢
        omega
      rw [if_neg (mt hlast.mp hk), if_neg hk]
      simp only [hin]
  rw [hrow]

theorem isRow_inserted {row : ℕ → UInt8} (h : IsRow row) {i : ℕ} (hi : i < bwCols) {c : UInt8}
    (hc : c ≠ 0) : IsRow (FixedLine.inserted row bwCols i c) := by
  constructor
  · intro k hk
    unfold FixedLine.inserted
    split_ifs
    · exact hc
    · exact h.1 _ (by omega)
    · exact h.1 k hk
  · rw [FixedLine.inserted, if_neg (Nat.ne_of_gt hi), if_neg (fun hk => lt_irrefl _ hk.2)]
    exact h.2

theorem isRow_deleted {row : ℕ → UInt8} (h : IsRow row) (i : ℕ) :
    IsRow (FixedLine.deleted blank row bwCols i) := by
  constructor
  · intro k hk
    unfold FixedLine.deleted
    split_ifs
    · decide
    · exact h.1 _ (by omega)
    · exact h.1 k hk
  · rw [FixedLine.deleted, if_neg (Nat.succ_ne_self _), if_neg (fun hk => lt_irrefl _ hk.2)]
    exact h.2

theorem backspace_inv (h : s.Inv) : ∃ s', s.backspace = some s' ∧ s'.Inv := by
  by_cases hcol : 0 < s.curCol
  · rw [backspace_eq h.cursor hcol h.col]
    refine ⟨_, rfl, ⟨h.cursor, ?_⟩, (Nat.sub_le _ _).trans h.col⟩
    exact rows_update h.rows (isRow_deleted (h.rows _ h.cursor) _) _
  · unfold backspace
    rw [if_neg hcol]
    split_ifs
    · exact ⟨_, rfl, ⟨(Nat.sub_le _ _).trans_lt h.cursor, h.rows⟩, Nat.zero_le _⟩
    · exact ⟨s, rfl, h⟩

/-- In front of the last column and in it a character goes into the row. -/
theorem insertChar_inv (h : s.Inv) (hcol : s.curCol < bwCols) (hc : c ≠ 0) :
    ∃ s', s.insertChar c = some s' ∧ s'.Inv := by
  rw [insertChar_eq h]
  refine ⟨_, rfl, ⟨h.cursor, ?_⟩, ?_⟩
  · exact rows_update h.rows (isRow_inserted (h.rows _ h.cursor) hcol hc) _
  · simp only
    split_ifs <;> omega

theorem handleKey_printable (hesc : s.escState = .none) (hc : Printable c) :
    s.handleKey c = s.insertChar c := by
  have hne : ∀ d : UInt8, ¬ Printable d → c ≠ d := fun d hd hcd => hd (hcd ▸ hc)
  have hbelow : c < 0x7F := 
    UInt8.lt_iff_toNat_lt.mpr (Nat.lt_succ_of_le (UInt8.le_iff_toNat_le.mp hc.2))
  unfold handleKey
  rw [hesc]
  simp only
  rw [if_neg (hne _ (by decide)), if_neg (hne _ (by decide)),
    if_neg (not_or.mpr ⟨hne _ (by decide), hne _ (by decide)⟩),
    if_neg (not_or.mpr ⟨hne _ (by decide), hne _ (by decide)⟩), if_pos ⟨hc.1, hbelow⟩]

theorem handleKey_enter (hesc : s.escState = .none) (hc : c = 0x0D ∨ c = 0x0A) :
    s.handleKey c = s.doEnter := by
  unfold handleKey
  rw [hesc]
  rcases hc with rfl | rfl <;> rfl

theorem Typable.col {s : Editor} (h : s.Typable (.key c)) (hesc : s.escState = .none)
    (hc : Printable c) : s.curCol < bwCols := by
  have hlast : bwCols - 1 < bwCols := by decide
  rcases h hesc hc with hcol | ⟨hcol, -⟩
  · exact hcol.trans hlast
  · exact hcol.trans_lt hlast

theorem handleKey_inv (h : s.Inv) (hok : s.Typable (.key c)) :
    ∃ s', s.handleKey c = some s' ∧ s'.Inv := by
  have hesc : ∀ e, { s with escState := e }.Inv := fun e => ⟨⟨h.cursor, h.rows⟩, h.col⟩
  by_cases hprint : s.escState = .none ∧ Printable c
  · rw [handleKey_printable hprint.1 hprint.2]
    exact insertChar_inv h (hok.col hprint.1 hprint.2) (Printable.ne_zero hprint.2)
  · unfold handleKey
    split
    · exact ⟨_, rfl, hesc _⟩
    · exact navigate_inv (hesc .none) c
    · next hnone =>
      by_cases h1b : c = 0x1B
      · rw [if_pos h1b]
        exact ⟨_, rfl, hesc _⟩
      rw [if_neg h1b]
      by_cases h03 : c = 0x03
      · rw [if_pos h03]
        obtain ⟨s', hs', hinv, -⟩ := cursorDownOne_keeps (home_inv h)
        exact ⟨s', hs', hinv⟩
      rw [if_neg h03]
      by_cases henter : c = 0x0D ∨ c = 0x0A
      · rw [if_pos henter]
        obtain ⟨s', hs', hinv, -⟩ := doEnter_entered h
        exact ⟨s', hs', hinv⟩
      rw [if_neg henter]
      by_cases hback : c = 0x08 ∨ c = 0x7F
      · rw [if_pos hback]
        exact backspace_inv h
      rw [if_neg hback, if_neg]
      · exact ⟨s, rfl, h⟩
      · rintro ⟨hlo, hhi⟩
        have hle : c ≤ 0x7E := UInt8.le_iff_toNat_le.mpr (Nat.le_of_lt_succ (UInt8.lt_iff_toNat_lt.mp hhi))
        exact hprint ⟨hnone, hlo, hle⟩

/-- A step that meets the condition stays in the grid. -/
theorem step_inv {e : EditorEvent} (h : s.Inv) (hok : s.Typable e) :
    ∃ s', s.step e = some s' ∧ s'.Inv := by
  cases e with
  | key c => exact handleKey_inv h hok
  | emit text => exact emit_inv h text
  | cls mode => exact ⟨_, rfl, cls_inv h mode⟩
  | graphics => exact ⟨_, rfl, ⟨h.cursor, h.rows⟩, h.col⟩
  | click button => exact onClick_inv h button
  | draw height fontScale => exact ⟨_, rfl, draw_inv h height fontScale⟩

theorem text_getLast? (s : Editor) (r : ℕ) : (s.text r).getLast? = some (s.grid r (bwCols - 1)) :=
  FixedLine.getLast?_slice (s.grid r) (bwCols - 1)

theorem backspace_key (s : Editor) (hesc : s.escState = .none) :
    s.step (.key 0x08) = s.backspace := by
  simp only [step, handleKey, hesc]
  rfl

/-- The row behind a character and a backspace. -/
def retyped (s : Editor) (c : UInt8) : ℕ → UInt8 :=
  FixedLine.deleted blank (FixedLine.inserted (s.grid s.curRow) bwCols s.curCol c) bwCols
    ((if s.curCol < bwCols - 1 then s.curCol + 1 else s.curCol) - 1)

theorem retype_eq (h : s.Inv) (hesc : s.escState = .none) (hs' : s.insertChar c = some s') :
    ∃ s'', s'.step (.key 0x08) = some s'' ∧
      s''.grid = Function.update s.grid s.curRow (s.retyped c) := by
  have hs := Option.some_inj.mp ((insertChar_eq h c).symm.trans hs')
  have hrow : s'.curRow = s.curRow := by rw [← hs]
  have hcol : s'.curCol = if s.curCol < bwCols - 1 then s.curCol + 1 else s.curCol := by rw [← hs]
  have hgrid : s'.grid = Function.update s.grid s.curRow
      (FixedLine.inserted (s.grid s.curRow) bwCols s.curCol c) := by rw [← hs]
  have hstate : s'.escState = .none := by rw [← hs, ← hesc]
  have hle := h.col
  have hlast : 0 < bwCols - 1 := by decide
  have hbounds : 0 < s'.curCol ∧ s'.curCol ≤ bwCols := by
    rw [hcol]
    split_ifs with hlt
    · exact ⟨Nat.succ_pos _, by omega⟩
    · exact ⟨by omega, hle⟩
  rw [backspace_key s' hstate, backspace_eq (hrow.trans_lt h.cursor) hbounds.1 hbounds.2]
  refine ⟨_, rfl, ?_⟩
  simp only [hrow, hgrid, hcol, Function.update_self, Function.update_idem]
  rfl

/-- The text of a row that has been typed in and deleted from. -/
theorem text_update (s : Editor) (row : ℕ → UInt8) {s' : Editor}
    (h : s'.grid = Function.update s.grid s.curRow row) (hrow : slice row 0 bwCols = s.text s.curRow) :
    ∀ r, s'.text r = s.text r := by
  intro r
  rw [text, h, Function.update_apply]
  split_ifs with hr
  · rw [hr]
    exact hrow
  · rfl

/-- In front of the last column the deletion undoes the insertion. -/
theorem retyped_before (hcol : s.curCol < bwCols - 1)
    (hblank : (s.text s.curRow).getLast? = some blank) :
    slice (s.retyped c) 0 bwCols = s.text s.curRow := by
  have hlt : s.curCol < bwCols := by omega
  rw [retyped, if_pos hcol, Nat.add_sub_cancel, FixedLine.slice_deleted hlt, FixedLine.slice_inserted]
  exact FixedLine.deleteAt_insertAt (hlt.trans_eq length_slice.symm) hblank c

/-- In the last column it is the character in front that is deleted. -/
theorem retyped_last (hcol : s.curCol = bwCols - 1) {k : ℕ} (hk : k < bwCols) : s.retyped c k =
    if k = bwCols - 1 then blank else if k = bwCols - 2 then c else s.grid s.curRow k := by
  rw [retyped, if_neg (by omega), hcol, FixedLine.deleted, FixedLine.inserted, FixedLine.inserted]
  have hwidth : bwCols = 96 := rfl
  rw [hwidth] at hk ⊢
  by_cases hlast : k = 96 - 1
  · rw [if_pos (by omega), if_pos hlast]
  rw [if_neg (by omega), if_neg hlast]
  by_cases hprev : k = 96 - 2
  · rw [if_pos (by omega), if_pos (by omega), if_neg hlast, if_pos hprev]
  · rw [if_neg (by omega), if_neg (by omega), if_neg (by omega), if_neg hprev]

/-- What is typed where the condition holds. -/
theorem insertChar_typed (h : s.Inv) (hesc : s.escState = .none) (hc : Printable c)
    (hok : s.Typable (.key c)) (hs' : s.insertChar c = some s') : s.Typed s' c := by
  obtain ⟨s'', hs'', hgrid⟩ := retype_eq h hesc hs'
  rw [insertChar_eq h] at hs'
  cases hs'
  refine ⟨fun r hr => Function.update_of_ne hr _ _, ?_, fun hblank => ⟨s'', hs'', ?_⟩⟩
  · simp only [text, Function.update_self]
    exact FixedLine.slice_inserted _ _ _ _
  · refine text_update s _ hgrid ?_
    rcases hok hesc hc with hcol | ⟨hcol, hrow⟩
    · exact retyped_before hcol hblank
    · rw [text_getLast?, Option.some_inj] at hblank
      refine slice_congr fun k _ hk => ?_
      rw [Nat.zero_add] at hk
      rw [retyped_last hcol hk]
      split_ifs with hlast hprev
      · rw [hlast, hblank]
      · rw [hprev, hrow.resolve_left (not_not.mpr hblank)]
      · rfl

/-- Where the condition fails, a row is not a string any more or is not given back. -/
theorem typable_of_typed (h : s.Inv) (hesc : s.escState = .none) (hc : Printable c)
    (hs' : s.insertChar c = some s') (htyped : s.Typed s' c) (hrows : s'.RowsKept) :
    s.curCol < bwCols - 1 ∨ s.curCol = bwCols - 1 ∧
      (s.grid s.curRow (bwCols - 1) ≠ blank ∨ s.grid s.curRow (bwCols - 2) = c) := by
  obtain ⟨s'', hs'', hgrid⟩ := retype_eq h hesc hs'
  rw [insertChar_eq h] at hs'
  cases hs'
  have hnul := (hrows.rows _ h.cursor).2
  simp only [Function.update_self, FixedLine.inserted] at hnul
  have hcol : s.curCol ≠ bwCols := by
    intro hcol
    rw [if_pos hcol.symm] at hnul
    exact Printable.ne_zero hc hnul
  have hle := h.col
  rcases lt_or_eq_of_le (Nat.le_sub_one_of_lt (lt_of_le_of_ne hle hcol)) with hbefore | hlast
  · exact .inl hbefore
  · refine .inr ⟨hlast, or_iff_not_imp_left.mpr fun hblank => ?_⟩
    rw [not_not] at hblank
    obtain ⟨t, ht, htext⟩ := htyped.restored (by rw [text_getLast?, hblank])
    cases hs''.symm.trans ht
    have hprev : bwCols - 2 < bwCols := by decide
    have hrow := congrArg (·[bwCols - 2]?) (htext s.curRow)
    simp only [text, hgrid, Function.update_self] at hrow
    rw [List.getElem?_eq_getElem (by rwa [length_slice]),
      List.getElem?_eq_getElem (by rwa [length_slice]), Option.some_inj, getElem_slice, getElem_slice,
      Nat.zero_add, retyped_last hlast hprev, if_neg (by decide), if_pos rfl] at hrow
    exact hrow.symm

theorem init_inv : init.Inv := clearAll_inv _

/-- Where the condition holds, a step does what it is for. -/
theorem edits_of_typable {e : EditorEvent} (h : s.Inv) (hok : s.Typable e) : s.Edits e := by
  obtain ⟨s', hs', -⟩ := step_inv h hok
  refine ⟨s', hs', ?_⟩
  rintro c rfl hesc
  constructor
  · intro hc
    exact insertChar_typed h hesc hc hok ((handleKey_printable hesc hc).symm.trans hs')
  · intro hc
    obtain ⟨t, ht, -, hentered⟩ := doEnter_entered h
    cases ht.symm.trans ((handleKey_enter hesc hc).symm.trans hs')
    exact hentered

theorem typable_of_edits {e : EditorEvent} (h : s.Inv) (hedits : s.Edits e)
    (hrows : ∀ s', s.step e = some s' → s'.RowsKept) : s.Typable e := by
  obtain ⟨s', hs', hkey⟩ := hedits
  cases e with
  | key c =>
    intro hesc hc
    have hins := (handleKey_printable hesc hc).symm.trans hs'
    exact typable_of_typed h hesc hc hins ((hkey c rfl hesc).1 hc) (hrows s' hs')
  | _ => trivial

/-- The rows stay strings and the keys do what they are for exactly when nothing is typed behind the
last column, nor in it where the backspace would take the character in front. -/
theorem screen_editor_iff (es : List EditorEvent) :
    Always step RowsKept init es ∧ EachStep step Edits init es ↔ EachStep step Typable init es := by
  refine always_and_eachStep_iff Inv RowsKept (fun s h => h.toRowsKept)
    (fun s e h hok => edits_of_typable h hok) ?_ (fun s e h => typable_of_edits h) init_inv es
  intro s e s' h hok hstep
  obtain ⟨t, ht, hinv⟩ := step_inv h hok
  cases ht.symm.trans hstep
  exact hinv

/-- A row full of output, and a key. -/
def fullRow : List EditorEvent := [.emit (List.replicate 96 0x41), .key 0x42]

theorem typed_over_nul :
    ¬ (Always step RowsKept init fullRow ∧ EachStep step Edits init fullRow) := by
  rintro ⟨hrows, -⟩
  have hcell : (exec step init fullRow).map (fun s => s.grid 0 96) = some 0x42 := by decide
  obtain ⟨s, hs, hnul⟩ := Option.map_eq_some_iff.mp hcell
  have hrow := ((hrows.of_exec hs).rows 0 (by decide)).2
  cases hnul.symm.trans hrow

end Editor

end XinuRpi4.Video
