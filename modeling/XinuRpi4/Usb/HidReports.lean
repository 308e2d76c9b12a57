import XinuRpi4.Foundation.Runs
import Mathlib.Tactic

/-!
# Reports of a mouse and a keyboard

The driver keeps two interrupt transfers armed for each endpoint, and `xhci_mouse_pump`
handles what has completed. Both transfers of an endpoint fill the same buffer, which
the pump reads when it gets to the event. A report that completes before an earlier one
has been read takes its place.

The pump runs as single steps. A handler may run a program that pumps again, so calls
nest. Other events share the ring. The mode that polls over the control pipe is never
turned on and is left out.

A boot report of a keyboard has the modifiers in its first byte and up to six usages
of pressed keys from the third on. `x_deliver_key` turns a usage into characters; a key
that is held was delivered with an earlier report.
-/

namespace XinuRpi4.Usb

open Foundation

/-- The eight bytes of an interrupt transfer; a mouse fills the first ones only. -/
abbrev Report := Fin 8 → UInt8

instance neZeroReport : NeZero 8 := ⟨by decide⟩

/-- The characters of the usages from `0x04` on, `none` where the table has zero. -/
def xKmRows : List (Option Char) :=
  ['a', 'b', 'c', 'd', 'e', 'f', 'g', 'h', 'i', 'j', 'k', 'l', 'm', 'n', 'o', 'p', 'q', 'r', 's',
    't', 'u', 'v', 'w', 'x', 'y', 'z', '1', '2', '3', '4', '5', '6', '7', '8', '9', '0'].map some ++
    -- Enter, Escape, Backspace, Tab, Space
    [some '\n', none, some (Char.ofNat 0x08), some '\t', some ' ',
      some '-', some '=', some (Char.ofNat 0x5b), some (Char.ofNat 0x5d), some (Char.ofNat 0x5c),
      none, some ';', some (Char.ofNat 0x27), some (Char.ofNat 0x60), some ',', some '.', some '/']

/-- `x_km`. -/
def xKm (u : ℕ) : Option Char := if u < 0x04 then none else (xKmRows[u - 0x04]?).join

/-- `x_shift_char`. -/
def xShiftChar (c : Char) : Char :=
  if 97 ≤ c.toNat ∧ c.toNat ≤ 122 then Char.ofNat (c.toNat - 32)
  else
    match c.toNat with
    | 0x31 => '!' | 0x32 => '@' | 0x33 => '#'
    | 0x34 => '$' | 0x35 => '%' | 0x36 => '^'
    | 0x37 => '&' | 0x38 => '*' | 0x39 => Char.ofNat 0x28
    | 0x30 => Char.ofNat 0x29 | 0x2d => '_' | 0x3d => '+'
    | 0x5b => Char.ofNat 0x7b | 0x5d => Char.ofNat 0x7d | 0x5c => '|'
    | 0x3b => ':' | 0x27 => Char.ofNat 0x22 | 0x60 => '~'
    | 0x2c => '<' | 0x2e => '>' | 0x2f => '?'
    | _ => c

/-- The last character of the escape sequence of a navigation key. -/
def navKey (u : ℕ) : Option Char :=
  match u with
  | 0x4a => some 'H'
  | 0x4d => some 'F'
  | 0x4b => some '5'
  | 0x4e => some '6'
  | 0x4f => some 'C'
  | 0x50 => some 'D'
  | 0x51 => some 'B'
  | 0x52 => some 'A'
  | _ => none

/-- `x_deliver_key`: the characters it hands to `xhci_keyboard_event`. -/
def xDeliverKey (u : ℕ) (shift ctrl : Bool) : List Char :=
  if u = 0x4c then [Char.ofNat 0x7f]
  else
    match navKey u with
    | some nav => [Char.ofNat 0x1b, Char.ofNat 0x5b, nav]
    | none =>
      if 0x40 ≤ u then []
      else
        match xKm u with
        | none => []
        | some c =>
          if ctrl ∧ 97 ≤ c.toNat ∧ c.toNat ≤ 122 then [Char.ofNat (c.toNat &&& 0x1f)]
          else if shift then [xShiftChar c]
          else [c]

namespace Report

/-- `(b[0] & 0x22) != 0`. -/
def shift (r : Report) : Bool := r 0 &&& 0x22 != 0

/-- `(b[0] & 0x11) != 0`. -/
def ctrl (r : Report) : Bool := r 0 &&& 0x11 != 0

/-- The usages from the third byte on. -/
def usages (r : Report) : List UInt8 := [r 2, r 3, r 4, r 5, r 6, r 7]

/-- The keys that a report says are pressed. -/
def pressed (r : Report) : List UInt8 := r.usages.filter (· ≠ 0)

/-- A report that holds nothing. -/
def none : Report := fun _ => 0

end Report

/-- The characters of the keys that are pressed in `r` and not in the report before. -/
def typedBy (prev r : Report) : List Char :=
  (r.pressed.filter (· ∉ prev.pressed)).flatMap fun u => xDeliverKey u.toNat r.shift r.ctrl

/-- The characters of a sequence of reports, behind the report `prev`. -/
def typed : Report → List Report → List Char
  | _, [] => []
  | prev, r :: rs => typedBy prev r ++ typed r rs

@[simp] theorem typed_nil (prev : Report) : typed prev [] = [] := rfl

@[simp] theorem typed_cons (prev r : Report) (rs : List Report) :
    typed prev (r :: rs) = typedBy prev r ++ typed r rs := rfl

theorem typed_concat (prev : Report) (rs : List Report) (r : Report) :
    typed prev (rs ++ [r]) = typed prev rs ++ typedBy (rs.getLastD prev) r := by
  induction rs generalizing prev with
  | nil => simp
  | cons s rs ih =>
    rw [List.cons_append, typed_cons, ih, typed_cons, List.append_assoc, List.getLastD_cons]

/-- The two letters of the shell's answer, as one press after the other. -/
example : typed Report.none [![0, 0, 0x12, 0, 0, 0, 0, 0], Report.none, ![0x02, 0, 0x0e, 0, 0, 0, 0, 0]] =
    ['o', 'K'] := by decide

/-- A key of the report is new: the test of the loop over the previous report. -/
def newKey (prev : Report) (u : UInt8) (shift ctrl : Bool) : List Char :=
  if u = 0 then []
  else if u ∈ prev.usages then []
  else xDeliverKey u.toNat shift ctrl

/-- The loop over the six usages delivers the keys that are new. -/
theorem flatMap_newKey (prev r : Report) :
    r.usages.flatMap (newKey prev · r.shift r.ctrl) = typedBy prev r := by
  have hloop : ∀ us : List UInt8, us.flatMap (newKey prev · r.shift r.ctrl) =
      ((us.filter (· ≠ 0)).filter (· ∉ prev.pressed)).flatMap
        fun u => xDeliverKey u.toNat r.shift r.ctrl := by
    intro us
    induction us with
    | nil => rfl
    | cons u us ih =>
      rw [List.flatMap_cons, ih]
      by_cases h0 : u = 0
      · simp [newKey, h0]
      · by_cases hu : u ∈ prev.usages
        · simp [newKey, h0, hu, Report.pressed]
        · simp [newKey, h0, hu, Report.pressed]
  exact hloop r.usages

/-- The endpoints that `xhci_hid_setup` arms. -/
inductive Hid
  | mouse
  | kbd
  deriving DecidableEq

/-- An entry of the event ring: a completion of an endpoint, or anything else. -/
inductive HidEvent
  | transfer (h : Hid)
  | other
  deriving DecidableEq

/-- The arguments of `xhci_mouse_event`. -/
structure MouseEvent where
  buttons : UInt8
  dx : ℤ
  dy : ℤ
  deriving DecidableEq

/-- `btn`, `dx` and `dy` of a report. -/
def Report.mouseEvent (r : Report) : MouseEvent where
  buttons := r 0
  dx := (r 1).toInt8.toInt
  dy := (r 2).toInt8.toInt

/-- `dx || dy || btn`. -/
def MouseEvent.Moves (e : MouseEvent) : Prop := e.dx ≠ 0 ∨ e.dy ≠ 0 ∨ e.buttons ≠ 0

instance MouseEvent.Moves.decidable (e : MouseEvent) : Decidable e.Moves :=
  inferInstanceAs (Decidable (_ ∨ _ ∨ _))

/-- Where a call of the pump stands, with the iterations it has left. -/
inductive Frame
  | loop (guard : ℕ)
  | mouse (guard : ℕ)
  | kbd (guard : ℕ)
  /-- `i` usages are done. -/
  | keys (guard : ℕ) (shift ctrl : Bool) (i : ℕ)
  | rearm (guard : ℕ) (h : Hid)
  deriving DecidableEq

structure HidState where
  /-- `x_hid_buf` of the slots of mouse and keyboard -/
  hidBuf : Hid → Report
  kbdPrev : Report
  ctrlCPending : Bool
  /-- transfers that wait for a report -/
  armed : Hid → ℕ
  events : List HidEvent
  /-- calls of the pump, the innermost one first -/
  calls : List Frame
  mouseEvents : List MouseEvent
  keyEvents : List Char
  /-- ghost: the reports the devices sent, in order -/
  sent : Hid → List Report

inductive HidOp
  /-- a device sends a report, into a transfer that is armed -/
  | report (h : Hid) (r : Report)
  | other
  | call
  | cpu

namespace HidState

/-- The state behind `xhci_hid_setup` of both devices. -/
def init : HidState where
  hidBuf _ := Report.none
  kbdPrev := Report.none
  ctrlCPending := false
  armed _ := 2
  events := []
  calls := []
  mouseEvents := []
  keyEvents := []
  sent _ := []

/-- The next step of a call of `xhci_mouse_pump`; `fs` are the calls around it. -/
def cpu (s : HidState) (fs : List Frame) : Frame → HidState
  | .loop 0 => { s with calls := fs }
  | .loop (n + 1) =>
    match s.events with
    | [] => { s with calls := fs }
    | .other :: es => { s with events := es, calls := .loop n :: fs }
    | .transfer .mouse :: es => { s with events := es, calls := .mouse n :: fs }
    | .transfer .kbd :: es => { s with events := es, calls := .kbd n :: fs }
  | .mouse n =>
    let e := (s.hidBuf .mouse).mouseEvent
    { s with
      mouseEvents := if e.Moves then s.mouseEvents ++ [e] else s.mouseEvents
      calls := .rearm n .mouse :: fs }
  | .kbd n =>
    let b := s.hidBuf .kbd
    { s with
      ctrlCPending := if b.ctrl ∧ 0x06 ∈ b.usages then true else s.ctrlCPending
      calls := .keys n b.shift b.ctrl 0 :: fs }
  | .keys n shift ctrl i =>
    match (s.hidBuf .kbd).usages[i]? with
    | some u =>
      { s with
        keyEvents := s.keyEvents ++ newKey s.kbdPrev u shift ctrl
        calls := .keys n shift ctrl (i + 1) :: fs }
    | none => { s with kbdPrev := s.hidBuf .kbd, calls := .rearm n .kbd :: fs }
  | .rearm n h =>
    { s with armed := Function.update s.armed h (s.armed h + 1), calls := .loop n :: fs }

def step (s : HidState) : HidOp → Option HidState
  | .report h r =>
    if 0 < s.armed h then
      some { s with
        hidBuf := Function.update s.hidBuf h r
        armed := Function.update s.armed h (s.armed h - 1)
        events := s.events ++ [.transfer h]
        sent := Function.update s.sent h (s.sent h ++ [r]) }
    else none
  | .other => some { s with events := s.events ++ [.other] }
  | .call => some { s with calls := .loop 32 :: s.calls }
  | .cpu =>
    match s.calls with
    | [] => none
    | f :: fs => some (s.cpu fs f)

end HidState

/-- The endpoint whose buffer the call has still to read. -/
def Frame.reads : Frame → Option Hid
  | .mouse _ => some .mouse
  | .kbd _ => some .kbd
  | .keys .. => some .kbd
  | _ => none

/-- The calls that have an event of `h` and are not through with its report. -/
def reading (h : Hid) (fs : List Frame) : List Frame := fs.filter (·.reads = some h)

namespace HidState

/-- Completions of `h` whose report has not been read. -/
def pending (s : HidState) (h : Hid) : ℕ :=
  s.events.count (.transfer h) + (reading h s.calls).length

/-- A report only completes when the one before it has been read, or says the same of the
mouse, and buttons are not released in a report without motion. -/
def Separate (s : HidState) : HidOp → Prop
  | .report .mouse r =>
    (s.pending .mouse = 0 ∨ r.mouseEvent = (s.hidBuf .mouse).mouseEvent) ∧
      (r.mouseEvent.Moves ∨ s.hidBuf .mouse 0 = 0)
  | .report .kbd _ => s.pending .kbd = 0
  | _ => True

instance Separate.decidable (s : HidState) : ∀ op, Decidable (s.Separate op)
  | .report .mouse r => inferInstanceAs (Decidable
      ((s.pending .mouse = 0 ∨ r.mouseEvent = (s.hidBuf .mouse).mouseEvent) ∧
        (r.mouseEvent.Moves ∨ s.hidBuf .mouse 0 = 0)))
  | .report .kbd _ => inferInstanceAs (Decidable (_ = 0))
  | .other | .call | .cpu => .isTrue trivial

end HidState

/-- The values of a sequence where it changes, behind the value `b`. -/
def changes : UInt8 → List UInt8 → List UInt8
  | _, [] => []
  | b, x :: xs => if x = b then changes b xs else x :: changes x xs

namespace HidState

/-- The reports of the mouse that have been read. -/
def handled (s : HidState) : List Report :=
  (s.sent .mouse).take ((s.sent .mouse).length - s.pending .mouse)

/-- Nothing is lost or repeated: the motions add up, the states of the buttons come in
order, and the characters are those of the keys that each report adds. -/
structure Delivered (s : HidState) : Prop where
  motion_x : (s.mouseEvents.map (·.dx)).sum = (s.handled.map (·.mouseEvent.dx)).sum
  motion_y : (s.mouseEvents.map (·.dy)).sum = (s.handled.map (·.mouseEvent.dy)).sum
  buttons : changes 0 (s.mouseEvents.map (·.buttons)) = changes 0 (s.handled.map (· 0))
  keys : s.keyEvents <+: typed Report.none (s.sent .kbd)
  all_keys : s.pending .kbd = 0 → s.keyEvents = typed Report.none (s.sent .kbd)

end HidState

end XinuRpi4.Usb
