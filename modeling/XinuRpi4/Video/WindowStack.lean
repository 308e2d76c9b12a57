import XinuRpi4.Foundation.LinkedSegment
import XinuRpi4.Foundation.Runs

/-!
# The window stack

One list links the windows in the order in which they are drawn, and a click raises a window to its
end. `wm_window_move` and its like count along this list, and a click tries the corners and the title
bars of all windows before it asks which window is on top at the pointer.
-/

namespace XinuRpi4.Video

open XinuRpi4.Foundation

def wmTitlebarH : ℤ := 12
def wmDesktopW : ℤ := 1280
def wmDesktopH : ℤ := 960
def wmResizeGrab : ℤ := 16
def wmMinW : ℤ := 96
def wmMinH : ℤ := wmTitlebarH + 24

structure WindowRect where
  x : ℤ
  y : ℤ
  width : ℤ
  height : ℤ
deriving DecidableEq

namespace WindowRect

variable (r : WindowRect) (dx dy : ℤ)

def contains : Bool := r.x ≤ dx ∧ dx < r.x + r.width ∧ r.y ≤ dy ∧ dy < r.y + r.height

def onTitlebar : Bool := r.x ≤ dx ∧ dx < r.x + r.width ∧ r.y ≤ dy ∧ dy < r.y + wmTitlebarH

/-- The square at the bottom right. -/
def onCorner : Bool :=
  let rx := r.x + r.width
  let ry := r.y + r.height
  rx - wmResizeGrab ≤ dx ∧ dx < rx ∧ ry - wmResizeGrab ≤ dy ∧ dy < ry

end WindowRect

inductive DragMode
  | none | move | resize
deriving DecidableEq

/-- The part of a window that was clicked. -/
inductive WindowPart
  | corner | titlebar | body
deriving DecidableEq

/-- The statics of `wm.c` and the fields of the windows, with the calls of `on_click` and the windows
that were added so far. -/
structure Wm (W : Type) where
  head : Option W
  next : W → Option W
  rect : W → WindowRect
  fontScale : W → ℤ
  /-- The windows with a handler. -/
  onClick : W → Bool
  active : Option W
  dragWin : Option W
  dragMode : DragMode
  dragOffX : ℤ
  dragOffY : ℤ
  prevLeft : Bool
  vpX : ℤ
  vpY : ℤ
  clicked : List (W × ℤ × ℤ)
  added : List W

/-- `while (w && idx-- > 0) w = w->next;` -/
def nthFrom {W : Type} (next : W → Option W) : ℕ → Option W → Option W
  | 0, w => w
  | _ + 1, none => none
  | n + 1, some w => nthFrom next n (next w)

namespace Wm

variable {W : Type} [DecidableEq W]

/-- No window was added yet. -/
def init (rect : W → WindowRect) (onClick : W → Bool) : Wm W where
  head := none
  next _ := none
  rect
  fontScale _ := 0
  onClick
  active := none
  dragWin := none
  dragMode := .none
  dragOffX := 0
  dragOffY := 0
  prevLeft := false
  vpX := 0
  vpY := 0
  clicked := []
  added := []

variable (s : Wm W)

/-- `while (t->next) t = t->next;`, for no more rounds than there are windows. -/
def tail (next : W → Option W) (t : W) : Option W :=
  walk next (fun t => (next t).isNone) s.added.length t

def wmAdd (w : W) : Option (Wm W) :=
  let next := Function.update s.next w none
  match s.head with
  | none => some { s with next, head := some w, added := s.added ++ [w] }
  | some h => do
    let t ← s.tail next h
    some { s with next := Function.update next t (some w), added := s.added ++ [w] }

def wmNth (idx : ℤ) : Option W := nthFrom s.next idx.toNat s.head

def setRect (w : W) (r : WindowRect) : Wm W := { s with rect := Function.update s.rect w r }

/-- The value that is returned and the windows behind the call. -/
def wmWindowMove (idx x y : ℤ) : ℤ × Wm W :=
  match s.wmNth idx with
  | none => (-1, s)
  | some w =>
    let x := if x < 0 then 0 else x
    let x := if x > wmDesktopW - 16 then wmDesktopW - 16 else x
    let y := if y < 0 then 0 else y
    let y := if y > wmDesktopH - 16 then wmDesktopH - 16 else y
    (0, s.setRect w { s.rect w with x, y })

def wmWindowResize (idx wd ht : ℤ) : ℤ × Wm W :=
  match s.wmNth idx with
  | none => (-1, s)
  | some w =>
    let r := s.rect w
    (0, s.setRect w { r with
      width := if wd ≥ 24 then wd else r.width
      height := if ht ≥ 24 then ht else r.height })

def wmWindowFont (idx scale : ℤ) : ℤ × Wm W :=
  match s.wmNth idx with
  | none => (-1, s)
  | some w =>
    let scale := if scale < 1 then 1 else scale
    let scale := if scale > 4 then 4 else scale
    (0, { s with fontScale := Function.update s.fontScale w scale })

/-- The last window in the list that passes a test. -/
def windowAt (test : WindowRect → Bool) : Option (Option W) :=
  lastHit s.next (fun w => test (s.rect w)) s.added.length s.head none

def windowAtTitlebar (dx dy : ℤ) : Option (Option W) := s.windowAt fun r => r.onTitlebar dx dy

def windowAtResize (dx dy : ℤ) : Option (Option W) := s.windowAt fun r => r.onCorner dx dy

/-- The scan of a click inside a window body. -/
def windowAtBody (dx dy : ℤ) : Option (Option W) := s.windowAt fun r => r.contains dx dy

/-- Which branch a click takes: corners are tried first, then title bars. -/
def hitWindow (dx dy : ℤ) : Option (Option (WindowPart × W)) := do
  match ← s.windowAtResize dx dy with
  | some w => some (some (.corner, w))
  | none =>
    match ← s.windowAtTitlebar dx dy with
    | some w => some (some (.titlebar, w))
    | none => some ((← s.windowAtBody dx dy).map fun w => (.body, w))

/-- `wm_raise` -/
def wmRaise (w : W) : Option (Wm W) :=
  match s.head with
  | none => some s
  | some h =>
    if h = w then
      match s.next w with
      | none => some s
      | some u => do
        let t ← s.tail s.next u
        some { s with
          head := some u
          next := Function.update (Function.update s.next t (some w)) w none }
    else do
      let p ← walk s.next (fun p => (s.next p).isNone || s.next p = some w) s.added.length h
      match s.next p with
      | none => some s
      | some _ =>
        let next := Function.update s.next p (s.next w)
        let t ← s.tail next h
        some { s with next := Function.update (Function.update next t (some w)) w none }

def grab (w : W) (mode : DragMode) (offX offY : ℤ) : Wm W :=
  { s with
    dragWin := some w
    dragMode := mode
    dragOffX := offX
    dragOffY := offY
    active := some w }

/-- The button is down and no window is dragged. -/
def press (dx dy : ℤ) (edge : Bool) : Option (Wm W) := do
  match ← s.hitWindow dx dy with
  | some (.corner, w) =>
    let r := s.rect w
    (s.grab w .resize (dx - (r.x + r.width)) (dy - (r.y + r.height))).wmRaise w
  | some (.titlebar, w) => (s.grab w .move (dx - (s.rect w).x) (dy - (s.rect w).y)).wmRaise w
  | some (.body, w) =>
    let s ← ({ s with active := some w } : Wm W).wmRaise w
    if edge && s.onClick w then
      some { s with clicked := s.clicked ++ [(w, dx - (s.rect w).x, dy - (s.rect w).y)] }
    else some s
  | none => some s

/-- The button is down and the window is dragged. -/
def drag (w : W) (dx dy : ℤ) : Wm W :=
  let r := s.rect w
  if s.dragMode = .resize then
    let nw := dx - s.dragOffX - r.x
    let nh := dy - s.dragOffY - r.y
    let nw := if nw < wmMinW then wmMinW else nw
    let nh := if nh < wmMinH then wmMinH else nh
    let nw := if r.x + nw > wmDesktopW then wmDesktopW - r.x else nw
    let nh := if r.y + nh > wmDesktopH then wmDesktopH - r.y else nh
    s.setRect w { r with width := nw, height := nh }
  else
    let x := dx - s.dragOffX
    let y := dy - s.dragOffY
    let x := if x < 0 then 0 else x
    let y := if y < 0 then 0 else y
    let x := if x > wmDesktopW - 16 then wmDesktopW - 16 else x
    let y := if y > wmDesktopH - 16 then wmDesktopH - 16 else y
    s.setRect w { r with x, y }

def wmPointer (sx sy : ℤ) (left : Bool) : Option (Wm W) :=
  let dx := sx + s.vpX
  let dy := sy + s.vpY
  let edge := left && !s.prevLeft
  let s := { s with prevLeft := left }
  if left then
    match s.dragWin with
    | none => s.press dx dy edge
    | some w => some (s.drag w dx dy)
  else some { s with dragWin := none, dragMode := .none }

/-- `clamp_viewport` -/
def clampViewport (sw sh : ℤ) : Wm W :=
  let maxX := if wmDesktopW - sw < 0 then 0 else wmDesktopW - sw
  let maxY := if wmDesktopH - sh < 0 then 0 else wmDesktopH - sh
  let x := if s.vpX < 0 then 0 else s.vpX
  let y := if s.vpY < 0 then 0 else s.vpY
  { s with vpX := if x > maxX then maxX else x, vpY := if y > maxY then maxY else y }

end Wm

inductive WmEvent (W : Type)
  | add (w : W)
  | pointer (sx sy : ℤ) (left : Bool)
  | move (idx x y : ℤ)
  | resize (idx wd ht : ℤ)
  | font (idx scale : ℤ)
  | setViewport (x y : ℤ)
  | clampViewport (sw sh : ℤ)

/-- The windows that an event adds. -/
def WmEvent.adds {W : Type} : WmEvent W → List W
  | .add w => [w]
  | _ => []

namespace Wm

variable {W : Type} [DecidableEq W]

/-- A window is added once only. -/
def step (s : Wm W) : WmEvent W → Option (Wm W)
  | .add w => if w ∈ s.added then none else s.wmAdd w
  | .pointer sx sy left => s.wmPointer sx sy left
  | .move idx x y => some (s.wmWindowMove idx x y).2
  | .resize idx wd ht => some (s.wmWindowResize idx wd ht).2
  | .font idx scale => some (s.wmWindowFont idx scale).2
  | .setViewport x y => some { s with vpX := x, vpY := y }
  | .clampViewport sw sh => some (s.clampViewport sw sh)

variable (s s' : Wm W) (l l' : List W) (e : WmEvent W)

/-- The windows in the order in which they are drawn. -/
def Lists : Prop := Segment s.next s.head l none

/-- Each added window is in the list exactly once. -/
structure Stacked : Prop where
  lists : s.Lists l
  perm : l.Perm s.added
  nodup : s.added.Nodup

/-- What an event may do to the list. -/
def Reorders : WmEvent W → Prop
  | .add w => l' = l ++ [w]
  | .pointer _ _ _ => l' = l ∨ ∃ w ∈ l, l' = l.erase w ++ [w]
  | _ => l' = l

/-- A step returns, unless it adds a window again, and at most one window is moved, to the end. -/
def Restacks : Prop :=
  (∀ w, e = .add w → w ∉ s.added) → ∀ l, s.Lists l →
    ∃ s' l', s.step e = some s' ∧ s'.Lists l' ∧ Reorders l l' e

/-- `Windows are addressed by their add order`. -/
def InAddOrder : Prop := ∀ idx : ℕ, s.wmNth idx = s.added[idx]?

/-- The window that is seen at a point. -/
def topmost (dx dy : ℤ) : Option W := (l.filter fun w => (s.rect w).contains dx dy).getLast?

/-- What a press may do. -/
structure PressActs (dx dy : ℤ) (edge : Bool) : Prop where
  active : s'.active = s.active ∨ ∃ w, s.topmost l dx dy = some w ∧ s'.active = some w
  raised : s'.Lists l ∨ ∃ w, s.topmost l dx dy = some w ∧ s'.Lists (l.erase w ++ [w])
  started : ∀ w, s'.dragWin = some w → s.topmost l dx dy = some w ∧ edge = true ∧
    ((s.rect w).onTitlebar dx dy = true ∨ (s.rect w).onCorner dx dy = true)
  clicked : s'.clicked = s.clicked ∨ ∃ w, s.topmost l dx dy = some w ∧ edge = true ∧
    s'.clicked = s.clicked ++ [(w, dx - (s.rect w).x, dy - (s.rect w).y)]
  rect : s'.rect = s.rect

def Presses : WmEvent W → Prop
  | .pointer sx sy true => s.dragWin = none → ∀ l s', s.Lists l →
      s.step (.pointer sx sy true) = some s' →
        PressActs s s' l (sx + s.vpX) (sy + s.vpY) (!s.prevLeft)
  | _ => True

/-- The window that is raised is the last one already. -/
def RaisesTop : WmEvent W → Prop
  | .pointer sx sy true => s.dragWin = none → ∀ part w,
      s.hitWindow (sx + s.vpX) (sy + s.vpY) = some (some (part, w)) → s.next w = none
  | _ => True

/-- The corner or title bar that is found is seen at the pointer, and the button has just gone
down. -/
def Visible : WmEvent W → Prop
  | .pointer sx sy true => s.dragWin = none → ∀ part w,
      s.hitWindow (sx + s.vpX) (sy + s.vpY) = some (some (part, w)) → part ≠ .body →
        s.windowAtBody (sx + s.vpX) (sy + s.vpY) = some (some w) ∧ s.prevLeft = false
  | _ => True

variable {s s' l l' e} {w : W}

omit [DecidableEq W] in
theorem nthFrom_eq {next : W → Option W} {p : Option W} (h : Segment next p l none) (n : ℕ) :
    nthFrom next n p = l[n]? := by
  induction l generalizing p n with
  | nil =>
    cases (show p = none from h)
    cases n <;> rfl
  | cons a l ih =>
    cases h.1
    cases n with
    | zero => rfl
    | succ n => exact ih h.2 n

omit [DecidableEq W] in
/-- The loops at the end of `wm_add` and `wm_raise`. -/
theorem tail_eq {next : W → Option W} {h : W} {z : W} (hl : Segment next (some h) (l ++ [z]) none)
    (hlen : l.length < s.added.length) : s.tail next h = some z := by
  refine Segment.walk_eq hl (fun c hc => ?_) ?_ hlen
  · obtain ⟨d, -, hd⟩ := hl.next_mem hc
    rw [hd]
    rfl
  · rw [(Segment.concat_iff.mp hl).2]
    rfl

/-- A window that is in no list is linked behind the last one. -/
theorem link_last {next : W → Option W} {h : W} (hl : Segment next (some h) l none)
    (hnodup : l.Nodup) (hw : w ∉ l) (hlen : l.length ≤ s.added.length) : ∃ t, s.tail next h = some t ∧ t ≠ w ∧
      Segment (Function.update (Function.update next t (some w)) w none) (some h) (l ++ [w]) none := by
  obtain rfl | ⟨l₀, z, rfl⟩ := l.eq_nil_or_concat'
  · cases hl
  have hnodes : w ∉ l₀ ∧ w ≠ z := by simpa using hw
  have hz : z ∉ l₀ := (List.nodup_concat l₀ z).mp (by rwa [List.concat_eq_append]) |>.1
  rw [List.length_append, List.length_singleton] at hlen
  refine ⟨z, tail_eq hl hlen, hnodes.2.symm, Segment.append_iff.mpr ⟨some w, ?_, rfl, ?_⟩⟩
  · rw [Segment.update_of_notMem hw]
    exact hl.relink hz
  · exact Function.update_self ..

/-- What `wm_raise` leaves alone is the rest of the state. -/
theorem wmRaise_spec (hl : s.Lists l) (hnodup : l.Nodup) (hlen : l.length ≤ s.added.length)
    (hw : w ∈ l) : ∃ head next, s.wmRaise w = some { s with head, next } ∧
      Segment next head (l.erase w ++ [w]) none := by
  obtain ⟨l₁, l₂, rfl, hw₁⟩ := List.eq_append_cons_of_mem hw
  obtain ⟨hw', hnodup'⟩ := List.nodup_cons.mp (List.nodup_middle.mp hnodup)
  rw [List.erase_append_right _ hw₁, List.erase_cons_head]
  obtain rfl | ⟨l₀, p, rfl⟩ := l₁.eq_nil_or_concat'
  · obtain ⟨hhead, hrest⟩ := hl
    unfold wmRaise
    rw [hhead]
    simp only [if_true]
    cases hnext : s.next w with
    | none =>
      rw [hnext] at hrest
      obtain rfl : l₂ = [] := List.head?_eq_none_iff.mp hrest.head?_eq.symm
      exact ⟨some w, s.next, by rw [← hhead], rfl, hnext⟩
    | some u =>
      rw [hnext] at hrest
      obtain ⟨t, ht, -, hlinked⟩ := link_last (s := s) hrest hnodup' hw' ((Nat.le_succ _).trans hlen)
      simp only [ht, Option.bind_eq_bind, Option.bind_some]
      exact ⟨some u, _, rfl, hlinked⟩
  · obtain ⟨r, hfront, hr, hrest⟩ := Segment.append_iff.mp hl
    cases hr
    obtain ⟨h, hhead, hh⟩ : ∃ h, s.head = some h ∧ h ∈ l₀ ++ [p] := by
      cases l₀ with
      | nil => exact ⟨p, hfront.1, List.mem_singleton_self p⟩
      | cons h l₀ => exact ⟨h, hfront.1, List.mem_cons_self⟩
    have hne : ∀ d ∈ l₀ ++ [p], d ≠ w := fun d hd hdw => hw₁ (hdw ▸ hd)
    have hp : s.next p = some w := (Segment.concat_iff.mp hfront).2
    have hsplit : l₀ ++ [p] ++ w :: l₂ = l₀ ++ p :: w :: l₂ := List.append_assoc l₀ [p] _
    have hjoin : l₀ ++ [p] ++ l₂ = l₀ ++ p :: l₂ := List.append_assoc l₀ [p] _
    have hl' := hl
    rw [Lists, hsplit, hhead] at hl'
    have hwalk : walk s.next (fun p => (s.next p).isNone || s.next p = some w) s.added.length h =
        some p := by
      refine Segment.walk_eq hl' (fun c hc => ?_) ?_ ?_
      · obtain ⟨d, hd, hnext⟩ := hfront.next_mem hc
        simp [hnext, hne d hd]
      · simp [hp]
      · rw [hsplit, List.length_append, List.length_cons] at hlen
        omega
    have hpnot : p ∉ l₀ ++ w :: l₂ := (List.nodup_cons.mp (List.nodup_middle.mp (hsplit ▸ hnodup))).1
    have hbypass := hl'.bypass hpnot
    obtain ⟨t, ht, -, hlinked⟩ := link_last (s := s) hbypass (hjoin ▸ hnodup') (hjoin ▸ hw') (by
      rw [hsplit] at hlen
      simp only [List.length_append, List.length_cons] at hlen ⊢
      omega)
    unfold wmRaise
    rw [hhead]
    simp only [hne h hh, if_false, hwalk, Option.bind_eq_bind, Option.bind_some, hp, ht]
    exact ⟨some h, _, rfl, hjoin ▸ hlinked⟩

theorem wmAdd_spec (hl : s.Lists l) (hnodup : l.Nodup) (hlen : l.length ≤ s.added.length)
    (hw : w ∉ l) : ∃ head next, s.wmAdd w = some { s with head, next, added := s.added ++ [w] } ∧
      Segment next head (l ++ [w]) none := by
  have hl' := (Segment.update_of_notMem (r := none) hw).mpr hl
  unfold wmAdd
  cases hhead : s.head with
  | none =>
    rw [Lists, hhead] at hl
    obtain rfl : l = [] := List.head?_eq_none_iff.mp hl.head?_eq.symm
    exact ⟨some w, _, rfl, rfl, Function.update_self ..⟩
  | some h =>
    rw [hhead] at hl'
    obtain ⟨t, ht, htw, hlinked⟩ := link_last (s := s) hl' hnodup hw hlen
    simp only [ht, Option.bind_eq_bind, Option.bind_some]
    refine ⟨some h, _, rfl, ?_⟩
    rwa [Function.update_comm htw.symm, Function.update_idem, Function.update_comm htw] at hlinked

omit [DecidableEq W] in
theorem windowAt_eq (h : s.Stacked l) (test : WindowRect → Bool) :
    s.windowAt test = some (l.filter fun w => test (s.rect w)).getLast? := by
  rw [windowAt, h.lists.lastHit_eq _ h.perm.length_eq.le, Option.or_none]

omit [DecidableEq W] in
theorem windowAtBody_eq (h : s.Stacked l) (dx dy : ℤ) :
    s.windowAtBody dx dy = some (s.topmost l dx dy) := windowAt_eq h _

omit [DecidableEq W] in
theorem mem_of_getLast?_filter {test : W → Bool} (h : (l.filter test).getLast? = some w) :
    w ∈ l ∧ test w = true := List.mem_filter.mp (List.mem_of_getLast? h)

/-- The window of a click is in the list, and the click is on the part that was tested. -/
def Hits (s : Wm W) (dx dy : ℤ) : WindowPart → W → Prop
  | .corner, w => (s.rect w).onCorner dx dy = true
  | .titlebar, w => (s.rect w).onTitlebar dx dy = true
  | .body, w => (s.rect w).contains dx dy = true

omit [DecidableEq W] in
theorem hitWindow_cases (h : s.Stacked l) (dx dy : ℤ) : s.hitWindow dx dy = some none ∨
    ∃ part w, s.hitWindow dx dy = some (some (part, w)) ∧ w ∈ l ∧ s.Hits dx dy part w ∧
      (part = .body → s.topmost l dx dy = some w) := by
  unfold hitWindow
  rw [windowAtResize, windowAtTitlebar, windowAtBody_eq h, windowAt_eq h, windowAt_eq h]
  simp only [Option.bind_eq_bind, Option.bind_some]
  cases hcorner : (l.filter fun w => (s.rect w).onCorner dx dy).getLast? with
  | some w =>
    obtain ⟨hw, hon⟩ := mem_of_getLast?_filter hcorner
    exact .inr ⟨.corner, w, rfl, hw, hon, nofun⟩
  | none =>
    cases htitle : (l.filter fun w => (s.rect w).onTitlebar dx dy).getLast? with
    | some w =>
      obtain ⟨hw, hon⟩ := mem_of_getLast?_filter htitle
      exact .inr ⟨.titlebar, w, rfl, hw, hon, nofun⟩
    | none =>
      cases hbody : s.topmost l dx dy with
      | some w =>
        obtain ⟨hw, hon⟩ := mem_of_getLast?_filter hbody
        exact .inr ⟨.body, w, rfl, hw, hon, fun _ => rfl⟩
      | none => exact .inl rfl

/-- What a click on a part of a window leaves behind. -/
structure Clicked (s s' : Wm W) (l : List W) (dx dy : ℤ) (edge : Bool) (part : WindowPart) (w : W) :
    Prop where
  lists : s'.Lists (l.erase w ++ [w])
  added : s'.added = s.added
  active : s'.active = some w
  dragWin : s'.dragWin = if part = .body then s.dragWin else some w
  clicked : s'.clicked = if part = .body ∧ (edge && s.onClick w) = true then
    s.clicked ++ [(w, dx - (s.rect w).x, dy - (s.rect w).y)] else s.clicked
  rect : s'.rect = s.rect

theorem press_spec (h : s.Stacked l) {dx dy : ℤ} {part : WindowPart}
    (hhit : s.hitWindow dx dy = some (some (part, w))) (hw : w ∈ l) (edge : Bool) :
    ∃ s', s.press dx dy edge = some s' ∧ Clicked s s' l dx dy edge part w := by
  have hnodup : l.Nodup := h.perm.nodup_iff.mpr h.nodup
  have hlen := h.perm.length_eq.le
  unfold press
  rw [hhit, Option.bind_eq_bind, Option.bind_some]
  cases part with
  | corner =>
    obtain ⟨head, next, heq, hl⟩ := wmRaise_spec (s := s.grab w .resize (dx - ((s.rect w).x +
      (s.rect w).width)) (dy - ((s.rect w).y + (s.rect w).height))) h.lists hnodup hlen hw
    exact ⟨_, heq, hl, rfl, rfl, rfl, rfl, rfl⟩
  | titlebar =>
    obtain ⟨head, next, heq, hl⟩ := wmRaise_spec (s := s.grab w .move (dx - (s.rect w).x)
      (dy - (s.rect w).y)) h.lists hnodup hlen hw
    exact ⟨_, heq, hl, rfl, rfl, rfl, rfl, rfl⟩
  | body =>
    obtain ⟨head, next, heq, hl⟩ := wmRaise_spec (s := { s with active := some w }) h.lists hnodup
      hlen hw
    simp only [heq, Option.bind_eq_bind, Option.bind_some]
    by_cases hclick : (edge && s.onClick w) = true
    · rw [if_pos hclick]
      exact ⟨_, rfl, hl, rfl, rfl, rfl, by rw [if_pos ⟨rfl, hclick⟩], rfl⟩
    · rw [if_neg hclick]
      exact ⟨_, rfl, hl, rfl, rfl, rfl, by rw [if_neg fun hk => hclick hk.2], rfl⟩

theorem press_none {dx dy : ℤ} (hhit : s.hitWindow dx dy = some none) (edge : Bool) :
    s.press dx dy edge = some s := by
  unfold press
  rw [hhit]
  rfl

theorem Stacked.raised (h : s.Stacked l) (hw : w ∈ l) (hl : s'.Lists (l.erase w ++ [w]))
    (hadded : s'.added = s.added) : s'.Stacked (l.erase w ++ [w]) := by
  refine ⟨hl, ?_, hadded ▸ h.nodup⟩
  rw [hadded]
  have hlast : (l.erase w ++ [w]).Perm (w :: l.erase w) := List.perm_append_singleton w _
  exact hlast.trans ((List.perm_cons_erase hw).symm.trans h.perm)

omit [DecidableEq W] in
theorem Stacked.kept (h : s.Stacked l) (hhead : s'.head = s.head) (hnext : s'.next = s.next)
    (hadded : s'.added = s.added) : s'.Stacked l := by
  refine ⟨?_, hadded ▸ h.perm, hadded ▸ h.nodup⟩
  rw [Lists, hhead, hnext]
  exact h.lists

/-- A press without a drag. -/
theorem pointer_press (h : s.Stacked l) (hdrag : s.dragWin = none) (sx sy : ℤ) :
    let dx := sx + s.vpX
    let dy := sy + s.vpY
    (s.hitWindow dx dy = some none ∧ s.wmPointer sx sy true = some { s with prevLeft := true }) ∨
      ∃ part w s', s.hitWindow dx dy = some (some (part, w)) ∧ w ∈ l ∧ s.Hits dx dy part w ∧
        (part = .body → s.topmost l dx dy = some w) ∧ s.wmPointer sx sy true = some s' ∧
        Clicked s s' l dx dy (!s.prevLeft) part w := by
  intro dx dy
  have hpointer : s.wmPointer sx sy true =
      ({ s with prevLeft := true } : Wm W).press dx dy (!s.prevLeft) := by
    simp only [wmPointer, hdrag, if_true, Bool.true_and]
    rfl
  have hstack : ({ s with prevLeft := true } : Wm W).Stacked l := h.kept rfl rfl rfl
  rcases hitWindow_cases h dx dy with hnone | ⟨part, w, hhit, hw, hon, htop⟩
  · exact .inl ⟨hnone, hpointer.trans (press_none (s := { s with prevLeft := true }) hnone _)⟩
  · obtain ⟨s', hs', hclicked⟩ := press_spec hstack hhit hw (!s.prevLeft)
    refine .inr ⟨part, w, s', hhit, hw, hon, htop, hpointer.trans hs', ?_⟩
    exact ⟨hclicked.lists, hclicked.added, hclicked.active, hclicked.dragWin, hclicked.clicked,
      hclicked.rect⟩

/-- The other reports leave the list alone. -/
theorem pointer_other (h : s.Stacked l) (sx sy : ℤ) {left : Bool}
    (hother : left = false ∨ s.dragWin ≠ none) :
    ∃ s', s.wmPointer sx sy left = some s' ∧ s'.Stacked l ∧ s'.added = s.added := by
  cases left with
  | false => exact ⟨_, rfl, h.kept rfl rfl rfl, rfl⟩
  | true =>
    obtain ⟨w, hw⟩ := Option.ne_none_iff_exists'.mp (hother.resolve_left nofun)
    simp only [wmPointer, hw, if_true]
    refine ⟨_, rfl, ?_⟩
    unfold drag setRect
    split_ifs
    · exact ⟨h.kept rfl rfl rfl, rfl⟩
    · exact ⟨h.kept rfl rfl rfl, rfl⟩

/-- The calls that count along the list keep it. -/
theorem window_calls (s : Wm W) (idx x y : ℤ) :
    ∀ s' ∈ [(s.wmWindowMove idx x y).2, (s.wmWindowResize idx x y).2, (s.wmWindowFont idx x).2],
      s'.head = s.head ∧ s'.next = s.next ∧ s'.added = s.added := by
  simp only [List.forall_mem_cons, List.not_mem_nil, false_imp_iff, implies_true, and_true]
  unfold wmWindowMove wmWindowResize wmWindowFont
  cases s.wmNth idx with
  | none => exact ⟨⟨rfl, rfl, rfl⟩, ⟨rfl, rfl, rfl⟩, rfl, rfl, rfl⟩
  | some w => exact ⟨⟨rfl, rfl, rfl⟩, ⟨rfl, rfl, rfl⟩, rfl, rfl, rfl⟩

theorem step_stacked (h : s.Stacked l) (hfresh : ∀ w, e = .add w → w ∉ s.added) :
    ∃ s' l', s.step e = some s' ∧ s'.Stacked l' ∧ Reorders l l' e ∧ s'.added = s.added ++ e.adds := by
  have hnodup : l.Nodup := h.perm.nodup_iff.mpr h.nodup
  have hnone : s.added = s.added ++ [] := (List.append_nil _).symm
  cases e with
  | add w =>
    have hw := hfresh w rfl
    have hwl : w ∉ l := fun hk => hw (h.perm.mem_iff.mp hk)
    obtain ⟨head, next, heq, hl⟩ := wmAdd_spec h.lists hnodup h.perm.length_eq.le hwl
    refine ⟨{ s with head, next, added := s.added ++ [w] }, l ++ [w], ?_,
      ⟨hl, h.perm.append_right [w], ?_⟩, rfl, rfl⟩
    · rw [step, if_neg hw, heq]
    · exact List.nodup_append'.mpr ⟨h.nodup, List.nodup_singleton w, by simpa using hw⟩
  | pointer sx sy left =>
    by_cases hpress : left = true ∧ s.dragWin = none
    · obtain ⟨rfl, hdrag⟩ := hpress
      rcases pointer_press h hdrag sx sy with ⟨-, hs'⟩ | ⟨part, w, s', -, hw, -, -, hs', hclicked⟩
      · exact ⟨_, l, hs', h.kept rfl rfl rfl, .inl rfl, hnone⟩
      · exact ⟨s', _, hs', h.raised hw hclicked.lists hclicked.added, .inr ⟨w, hw, rfl⟩,
          hclicked.added.trans hnone⟩
    · have hother : left = false ∨ s.dragWin ≠ none := by
        rw [← Bool.not_eq_true]
        exact not_and_or.mp hpress
      obtain ⟨s', hs', hstack, hadded⟩ := pointer_other h sx sy hother
      exact ⟨s', l, hs', hstack, .inl rfl, hadded.trans hnone⟩
  | move idx x y =>
    obtain ⟨hh, hn, ha⟩ := window_calls s idx x y (s.wmWindowMove idx x y).2 (by simp)
    exact ⟨_, l, rfl, h.kept hh hn ha, rfl, ha.trans hnone⟩
  | resize idx wd ht =>
    obtain ⟨hh, hn, ha⟩ := window_calls s idx wd ht (s.wmWindowResize idx wd ht).2 (by simp)
    exact ⟨_, l, rfl, h.kept hh hn ha, rfl, ha.trans hnone⟩
  | font idx scale =>
    obtain ⟨hh, hn, ha⟩ := window_calls s idx scale 0 (s.wmWindowFont idx scale).2 (by simp)
    exact ⟨_, l, rfl, h.kept hh hn ha, rfl, ha.trans hnone⟩
  | setViewport x y => exact ⟨_, l, rfl, h.kept rfl rfl rfl, rfl, hnone⟩
  | clampViewport sw sh => exact ⟨_, l, rfl, h.kept rfl rfl rfl, rfl, hnone⟩

omit [DecidableEq W] in
theorem init_stacked (rect : W → WindowRect) (onClick : W → Bool) : (init rect onClick).Stacked [] :=
  ⟨rfl, .nil, .nil⟩

omit [DecidableEq W] in
theorem Lists.unique (h : s.Lists l) (h' : s.Lists l') : l = l' := Segment.unique h h'

/-- A raise leaves the list as it is only for the window on top. -/
theorem raise_eq_iff (hl : s.Lists l) (hnodup : l.Nodup) (hw : w ∈ l) :
    l.erase w ++ [w] = l ↔ s.next w = none := by
  obtain ⟨l₁, l₂, rfl, hw₁⟩ := List.eq_append_cons_of_mem hw
  obtain ⟨hw', -⟩ := List.nodup_cons.mp (List.nodup_middle.mp hnodup)
  rw [hl.next_eq_none_iff, List.erase_append_right _ hw₁, List.erase_cons_head, List.append_assoc,
    List.append_cancel_left_eq]
  constructor
  · intro heq
    cases l₂ with
    | nil => rfl
    | cons u l₂ =>
      obtain ⟨rfl, -⟩ := List.cons.inj heq
      exact absurd (List.mem_append_right l₁ List.mem_cons_self) hw'
  · rintro rfl
    rfl

omit [DecidableEq W] in
theorem inAddOrder_iff (h : s.Stacked l) : s.InAddOrder ↔ l = s.added := by
  have hnth : ∀ idx : ℕ, s.wmNth idx = l[idx]? := fun idx => nthFrom_eq h.lists idx
  constructor
  · intro horder
    apply List.ext_getElem?
    intro idx
    rw [← hnth, horder]
  · rintro rfl idx
    exact hnth idx

/-- The window that is acted on is the one on top of the others and of the pointer. -/
theorem Clicked.pressActs {dx dy : ℤ} {edge : Bool} {part : WindowPart}
    (h : Clicked s s' l dx dy edge part w) (hdrag : s.dragWin = none) (hon : s.Hits dx dy part w)
    (htop : s.topmost l dx dy = some w) (hedge : part ≠ .body → edge = true) :
    PressActs s s' l dx dy edge where
  active := .inr ⟨w, htop, h.active⟩
  raised := .inr ⟨w, htop, h.lists⟩
  started := by
    intro w' hw'
    rw [h.dragWin] at hw'
    split_ifs at hw' with hbody
    · cases hdrag.symm.trans hw'
    · obtain rfl := Option.some_inj.mp hw'
      refine ⟨htop, hedge hbody, ?_⟩
      cases part with
      | corner => exact .inr hon
      | titlebar => exact .inl hon
      | body => exact absurd rfl hbody
  clicked := by
    rw [h.clicked]
    split_ifs with hclick
    · exact .inr ⟨w, htop, (Bool.and_eq_true_iff.mp hclick.2).1, rfl⟩
    · exact .inl rfl
  rect := h.rect

theorem presses_iff (h : s.Stacked l) (e : WmEvent W) : s.Presses e ↔ s.Visible e := by
  match e with
  | .pointer sx sy true =>
    simp only [Presses, Visible]
    refine forall_congr' fun hdrag => ?_
    rcases pointer_press h hdrag sx sy with ⟨hnone, hs'⟩ |
      ⟨part, w, s', hhit, hw, hon, hbody, hs', hclicked⟩
    · constructor
      · intro _ part w hhit
        cases hnone.symm.trans hhit
      · intro _ l' t hl' ht
        cases hs'.symm.trans ht
        exact ⟨.inl rfl, .inl hl', fun w hw => (nomatch hdrag.symm.trans hw), .inl rfl, rfl⟩
    · constructor
      · intro hacts part' w' hhit' hpart
        cases hhit.symm.trans hhit'
        have hstart := (hacts l s' h.lists hs').started w (hclicked.dragWin.trans (if_neg hpart))
        exact ⟨(windowAtBody_eq h _ _).trans (congrArg some hstart.1), by simpa using hstart.2.1⟩
      · intro hvisible l' t hl' ht
        cases hs'.symm.trans ht
        obtain rfl := h.lists.unique hl'
        refine hclicked.pressActs hdrag hon ?_ fun hpart => ?_
        · by_cases hpart : part = .body
          · exact hbody hpart
          · have htop := (hvisible part w hhit hpart).1
            rwa [windowAtBody_eq h, Option.some_inj] at htop
        · simpa using (hvisible part w hhit hpart).2
  | .pointer _ _ false | .add _ | .move _ _ _ | .resize _ _ _ | .font _ _ | .setViewport _ _
  | .clampViewport _ _ => exact Iff.rfl

theorem stacked_restacks (h : s.Stacked l) (e : WmEvent W) : s.Restacks e := by
  intro hfresh l' hl'
  obtain rfl := h.lists.unique hl'
  obtain ⟨s', l', hs', hstack, hmoves, -⟩ := step_stacked h hfresh
  exact ⟨s', l', hs', hstack.lists, hmoves⟩

theorem step_fresh (hs' : s.step e = some s') : ∀ w, e = .add w → w ∉ s.added := by
  rintro w rfl hw
  rw [step, if_pos hw] at hs'
  cases hs'

/-- A press that keeps the order raises the window on top. -/
theorem press_order (h : s.Stacked s.added) (hdrag : s.dragWin = none) {sx sy : ℤ}
    (hs' : s.wmPointer sx sy true = some s') (hstack : s'.Stacked l') :
    l' = s.added ↔ s.RaisesTop (.pointer sx sy true) := by
  simp only [RaisesTop, hdrag, forall_const]
  rcases pointer_press h hdrag sx sy with ⟨hnone, ht⟩ | ⟨part, w, t, hhit, hw, -, -, ht, hclicked⟩
  · cases hs'.symm.trans ht
    refine iff_of_true (hstack.lists.unique h.lists) fun part w hhit => ?_
    cases hnone.symm.trans hhit
  · cases hs'.symm.trans ht
    obtain rfl := hstack.lists.unique hclicked.lists
    rw [raise_eq_iff h.lists h.nodup hw]
    constructor
    · intro htop part' w' hhit'
      cases hhit.symm.trans hhit'
      exact htop
    · exact fun htop => htop part w hhit

/-- Whether the list is in the order of the calls of `wm_add` behind a step. -/
theorem step_order (h : s.Stacked s.added) (hs' : s.step e = some s') :
    ∃ l', s'.Stacked l' ∧ (l' = s'.added ↔ s.RaisesTop e) := by
  obtain ⟨t, l', ht, hstack, hmoves, hadded⟩ := step_stacked h (step_fresh hs')
  cases hs'.symm.trans ht
  refine ⟨l', hstack, ?_⟩
  rw [hadded]
  match e with
  | .pointer sx sy true =>
    have hadds : (WmEvent.pointer sx sy true : WmEvent W).adds = [] := rfl
    rw [hadds, List.append_nil]
    by_cases hdrag : s.dragWin = none
    · exact press_order h hdrag hs' hstack
    · obtain ⟨t, ht, hkept, -⟩ := pointer_other h sx sy (.inr hdrag : true = false ∨ _)
      cases hs'.symm.trans ht
      exact iff_of_true (hstack.lists.unique hkept.lists) fun hnone => absurd hnone hdrag
  | .pointer sx sy false =>
    obtain ⟨t, ht, hkept, -⟩ := pointer_other h sx sy (.inl rfl : false = false ∨ _)
    cases hs'.symm.trans ht
    exact iff_of_true ((hstack.lists.unique hkept.lists).trans (List.append_nil _).symm) trivial
  | .add w => exact iff_of_true hmoves trivial
  | .move _ _ _ | .resize _ _ _ | .font _ _ | .setViewport _ _ | .clampViewport _ _ =>
    exact iff_of_true (hmoves.trans (List.append_nil _).symm) trivial

/-- Each window is in the list once and a click moves one window at most; the calls count in the
order of `wm_add` as long as only the window on top is raised; and a press is right when a corner or
title bar that it finds is the one that is seen there. -/
theorem window_stack (rect : W → WindowRect) (onClick : W → Bool) (es : List (WmEvent W)) :
    (Always step (fun s => ∃ l, s.Stacked l) (init rect onClick) es ∧
      EachStep step Restacks (init rect onClick) es) ∧
    (Always step InAddOrder (init rect onClick) es ↔
      EachStep step RaisesTop (init rect onClick) es) ∧
    (EachStep step Presses (init rect onClick) es ↔
      EachStep step Visible (init rect onClick) es) := by
  have hkeep (s : Wm W) (e : WmEvent W) (s' : Wm W) (h : ∃ l, s.Stacked l)
      (hs' : s.step e = some s') : ∃ l, s'.Stacked l := by
    obtain ⟨l, hl⟩ := h
    obtain ⟨t, l', ht, hstack, -⟩ := step_stacked hl (step_fresh hs')
    cases hs'.symm.trans ht
    exact ⟨l', hstack⟩
  have hinit : ∃ l, (init rect onClick).Stacked l := ⟨[], init_stacked rect onClick⟩
  have hany : EachStep step (fun _ _ => True) (init rect onClick) es :=
    EachStep.of_forall (fun _ _ _ => trivial) _
  refine ⟨⟨always_of_invariant _ _ (fun _ h => h) hkeep hinit es, ?_⟩, ?_, ?_⟩
  · refine (eachStep_congr _ hkeep (fun s e ⟨l, h⟩ => ?_) hinit).mp hany
    exact iff_of_true trivial (stacked_restacks h e)
  · refine Iff.trans ⟨fun h => ⟨h, hany⟩, And.left⟩ (always_and_eachStep_iff
      (fun s => s.Stacked s.added) InAddOrder (fun s h => (inAddOrder_iff h).mpr rfl)
      (fun _ _ _ _ => trivial) ?_ ?_ (init_stacked rect onClick) es)
    · intro s e s' h hok hs'
      obtain ⟨l', hstack, horder⟩ := step_order h hs'
      exact horder.mpr hok ▸ hstack
    · intro s e h _ hafter
      by_cases hfresh : ∀ w, e = .add w → w ∉ s.added
      · obtain ⟨s', -, hs', -⟩ := step_stacked h hfresh
        obtain ⟨l', hstack, horder⟩ := step_order h hs'
        exact horder.mp ((inAddOrder_iff hstack).mp (hafter s' hs'))
      · obtain ⟨w, hw⟩ := not_forall.mp hfresh
        obtain ⟨rfl, -⟩ := Classical.not_imp.mp hw
        trivial
  · exact eachStep_congr _ hkeep (fun s e ⟨l, h⟩ => presses_iff h e) hinit

/-- Two windows side by side, and a click inside the first one. -/
def sideBySide : ℕ → WindowRect := fun w => ⟨200 * w, 0, 100, 100⟩

def clickFirst : List (WmEvent ℕ) := [.add 0, .add 1, .pointer 50 50 true]

theorem calls_follow_raise :
    ¬ Always step InAddOrder (init sideBySide fun _ => false) clickFirst := by
  intro h
  have hfirst : (exec step (init sideBySide fun _ => false) clickFirst).map
      (fun s => (s.wmNth 0, s.added[0]?)) = some (some 1, some 0) := by decide
  obtain ⟨s, hs, heq⟩ := Option.map_eq_some_iff.mp hfirst
  have horder := h.of_exec hs 0
  obtain ⟨hnth, hadd⟩ := Prod.mk.inj heq
  cases hnth.symm.trans (horder.trans hadd)

end Wm

end XinuRpi4.Video
