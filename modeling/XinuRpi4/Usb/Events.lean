import XinuRpi4.Foundation.Runs

/-!
# The event ring and those who wait on it

Completions of commands, completions of control transfers and reports of the HID
endpoints come in one event ring. `x_event_wait` takes events off it until one has the
type that it wants; it does not look at the command or the slot that the event is for.
`xhci_mouse_pump` takes everything and arms an endpoint again for each of its reports.

Driver calls run in single steps, and the controller posts between any two of them.
-/

namespace XinuRpi4.Usb

/-- An interrupt endpoint. The context index 1 is that of the control endpoint. -/
structure HidEp where
  slot : ℕ
  dci : ℕ
  dci_gt : 1 < dci
  deriving DecidableEq

/-- The two endpoints that the pump knows. -/
inductive HidRole
  | mouse
  | kbd
  deriving DecidableEq

/-- A command, or a control transfer of a slot; ghost: the number tells issues apart. -/
structure Request where
  id : ℕ
  slot : Option ℕ
  deriving DecidableEq

/-- The type that the caller waits for. -/
def Request.want (q : Request) : ℕ := if q.slot = none then 33 else 32

inductive BusEvent
  | completion (q : Request)
  | report (ep : HidEp)
  /-- a port status change or another event of the controller -/
  | notice
  deriving DecidableEq

/-- The TRB type. -/
def BusEvent.type : BusEvent → ℕ
  | .completion q => q.want
  | .report _ => 32
  | .notice => 34

/-- `x_event_wait` takes the event for the one that it waits for. -/
def BusEvent.Matches (e : BusEvent) (want : ℕ) : Prop := want = 0 ∨ e.type = want

instance BusEvent.Matches.decidable (e : BusEvent) (want : ℕ) : Decidable (e.Matches want) :=
  inferInstanceAs (Decidable (_ ∨ _))

/-- Where a driver call stands. -/
inductive BusCall
  /-- `x_event_wait` for a request: the spins so far and what is in `ev` -/
  | wait (q : Request) (spin : ℕ) (ev : Option BusEvent)
  /-- the end of `xhci_hid_setup`, with the transfers that are still to arm -/
  | arming (ep : HidEp) (role : HidRole) (left : ℕ)
  | pump (guard : ℕ)
  /-- the pump handles a report of `ep` -/
  | handle (guard : ℕ) (ep : HidEp)
  deriving DecidableEq

structure Bus where
  events : List BusEvent
  /-- requests that the controller has not completed -/
  outstanding : List Request
  armed : HidEp → ℕ
  /-- the endpoints that `xhci_hid_setup` got to -/
  configured : List HidEp
  /-- `x_mouse_slot` with `x_mouse_dci`, and those of the keyboard -/
  registered : HidRole → Option HidEp
  /-- driver calls, the innermost one first -/
  calls : List BusCall
  issued : ℕ
  /-- ghost: what `x_event_wait` returned for each request, where it returned an event -/
  returned : List (Request × BusEvent)

inductive BusOp
  /-- a request is pushed, and `x_event_wait` is called for it -/
  | issue (slot : Option ℕ)
  | setup (ep : HidEp) (role : HidRole)
  | pump
  | cpu
  | complete (q : Request)
  | report (ep : HidEp)
  | notice

namespace Bus

/-- The state behind `xhci_vl805_init`. -/
def init : Bus where
  events := []
  outstanding := []
  armed _ := 0
  configured := []
  registered _ := none
  calls := []
  issued := 0
  returned := []

/-- `x_event_wait` returns what is in `ev`. -/
def giveUp (s : Bus) (q : Request) : Option BusEvent → Bus
  | some e => { s with calls := [], returned := s.returned ++ [(q, e)] }
  | none => { s with calls := [] }

/-- The next step of a driver call; `cs` are the calls around it. -/
def cpu (s : Bus) (cs : List BusCall) : BusCall → Bus
  | .wait q spin ev =>
    match s.events with
    | e :: es =>
      if e.Matches q.want then
        { s with events := es, calls := cs, returned := s.returned ++ [(q, e)] }
      -- `spin = 0; continue` in a `for` loop
      else { s with events := es, calls := .wait q 1 (some e) :: cs }
    | [] =>
      if spin + 1 < 500 then { s with calls := .wait q (spin + 1) ev :: cs } else s.giveUp q ev
  | .arming ep role 0 =>
    { s with registered := Function.update s.registered role (some ep), calls := cs }
  | .arming ep role (left + 1) =>
    { s with
      armed := Function.update s.armed ep (s.armed ep + 1)
      calls := .arming ep role left :: cs }
  | .pump 0 => { s with calls := cs }
  | .pump (n + 1) =>
    match s.events with
    | [] => { s with calls := cs }
    | .report ep :: es =>
      if s.registered .mouse = some ep ∨ s.registered .kbd = some ep then
        { s with events := es, calls := .handle n ep :: cs }
      else { s with events := es, calls := .pump n :: cs }
    | _ :: es => { s with events := es, calls := .pump n :: cs }
  | .handle n ep =>
    { s with armed := Function.update s.armed ep (s.armed ep + 1), calls := .pump n :: cs }

/-- A handler of a report may run a program that pumps. -/
def Pumps : List BusCall → Prop
  | [] => True
  | .handle _ _ :: _ => True
  | _ => False

instance Pumps.decidable : ∀ cs, Decidable (Pumps cs)
  | [] => .isTrue trivial
  | .handle _ _ :: _ => .isTrue trivial
  | .wait _ _ _ :: _ => .isFalse id
  | .arming _ _ _ :: _ => .isFalse id
  | .pump _ :: _ => .isFalse id

def step (s : Bus) : BusOp → Option Bus
  | .issue slot =>
    if s.calls = [] then
      let q : Request := ⟨s.issued, slot⟩
      some { s with
        outstanding := s.outstanding ++ [q], issued := s.issued + 1, calls := [.wait q 0 none] }
    else none
  | .setup ep role =>
    if s.calls = [] then
      some { s with configured := s.configured ++ [ep], calls := [.arming ep role 2] }
    else none
  | .pump =>
    if Pumps s.calls then
      if s.registered .mouse = none ∧ s.registered .kbd = none then some s
      else some { s with calls := .pump 32 :: s.calls }
    else none
  | .cpu =>
    match s.calls with
    | [] => none
    | c :: cs => some (s.cpu cs c)
  | .complete q =>
    if q ∈ s.outstanding then
      some { s with
        events := s.events ++ [.completion q], outstanding := s.outstanding.erase q }
    else none
  | .report ep =>
    if 0 < s.armed ep then
      some { s with
        events := s.events ++ [.report ep]
        armed := Function.update s.armed ep (s.armed ep - 1) }
    else none
  | .notice => some { s with events := s.events ++ [.notice] }

/-- A wait that returns an event returns the completion of its own request, and between
driver calls every endpoint has two transfers that are armed or wait in the ring. -/
structure Routed (s : Bus) : Prop where
  own : ∀ p ∈ s.returned, p.2 = .completion p.1
  two : s.calls = [] → ∀ ep ∈ s.configured, s.armed ep + s.events.count (.report ep) = 2

instance Routed.decidable (s : Bus) : Decidable s.Routed :=
  decidable_of_iff ((∀ p ∈ s.returned, p.2 = .completion p.1) ∧
    (s.calls = [] → ∀ ep ∈ s.configured, s.armed ep + s.events.count (.report ep) = 2))
    ⟨fun h => ⟨h.1, h.2⟩, fun h => ⟨h.1, h.2⟩⟩

/-- The event can be dropped by a wait for the type. -/
def Harmless (want : ℕ) : BusEvent → Prop
  | .report _ => False
  | e => e.type ≠ want

instance Harmless.decidable (want : ℕ) : ∀ e, Decidable (Harmless want e)
  | .report _ => .isFalse id
  | .completion q => inferInstanceAs (Decidable (BusEvent.type (.completion q) ≠ want))
  | .notice => inferInstanceAs (Decidable (BusEvent.type .notice ≠ want))

/-- The request whose completion has not come while its caller waits. -/
def awaited (s : Bus) : Option Request :=
  match s.calls with
  | .wait q _ _ :: _ => if .completion q ∈ s.events then none else some q
  | _ => none

/-- The controller posts nothing else that the awaited request could take or lose. -/
def Undisturbed (s : Bus) (e : BusEvent) : Prop :=
  ∀ q ∈ s.awaited, e = .completion q ∨ Harmless q.want e

instance Undisturbed.decidable (s : Bus) (e : BusEvent) : Decidable (s.Undisturbed e) :=
  match h : s.awaited with
  | none => .isTrue (by simp [Undisturbed, h])
  | some q => decidable_of_iff (e = .completion q ∨ Harmless q.want e) (by simp [Undisturbed, h])

/-- The next step ends a wait that has passed over an event. -/
def RunsOut (s : Bus) : Prop :=
  match s.events, s.calls with
  | [], .wait _ spin (some _) :: _ => 500 ≤ spin + 1
  | _, _ => False

instance RunsOut.decidable (s : Bus) : Decidable s.RunsOut := by
  unfold RunsOut
  split
  · exact inferInstanceAs (Decidable (_ ≤ _))
  · exact .isFalse id

/-- Requests are issued with nothing in the ring that their wait could take or lose, and
nothing of the kind comes before their own completion; a wait that passed over an event
does not run out; each role has one endpoint. -/
def Orderly (s : Bus) : BusOp → Prop
  | .issue slot => ∀ e ∈ s.events, Harmless (Request.want ⟨s.issued, slot⟩) e
  | .setup ep role => ep ∉ s.configured ∧ s.registered role = none
  | .complete q => s.Undisturbed (.completion q)
  | .report ep => s.Undisturbed (.report ep)
  | .notice => s.Undisturbed .notice
  | .cpu => ¬ s.RunsOut
  | .pump => True

instance Orderly.decidable (s : Bus) : ∀ op, Decidable (s.Orderly op)
  | .issue slot =>
    inferInstanceAs (Decidable (∀ e ∈ s.events, Harmless (Request.want ⟨s.issued, slot⟩) e))
  | .setup _ _ => inferInstanceAs (Decidable (_ ∧ _))
  | .complete q => Undisturbed.decidable s (.completion q)
  | .report ep => Undisturbed.decidable s (.report ep)
  | .notice => Undisturbed.decidable s .notice
  | .cpu => inferInstanceAs (Decidable (¬ _))
  | .pump => .isTrue trivial

end Bus

end XinuRpi4.Usb
