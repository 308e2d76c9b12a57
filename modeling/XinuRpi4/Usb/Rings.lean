import XinuRpi4.Foundation.CycleRing
import XinuRpi4.Foundation.Runs

/-!
# The producer rings of the USB host controller

`x_cmd_push`, `x_ep0_push`, `xs_ep0_push` and `x_hid_arm` fill rings that the controller
reads at the same time. A push stores the four words of an entry, the one with the
cycle bit last, and rewrites the link behind the last entry of a lap. The controller
may run between any two of these stores.
-/

namespace XinuRpi4.Usb

open Foundation

/-- `struct xhci_trb`. -/
structure Trb where
  p0 : BitVec 32
  p1 : BitVec 32
  status : BitVec 32
  control : BitVec 32
  deriving DecidableEq

/-- `(control & ~1u) | (cycle & 1u)`. -/
def withCycle (control : BitVec 32) (cycle : Bool) : BitVec 32 :=
  (control &&& ~~~1#32) ||| (if cycle then 1#32 else 0#32)

namespace Trb

def cycleBit (t : Trb) : Bool := t.control.getLsbD 0

/-- The type field says Link. -/
def isLink (t : Trb) : Bool := (t.control >>> 10) &&& 0x3f#32 == 6#32

/-- The Toggle Cycle flag of a Link TRB. -/
def toggles (t : Trb) : Bool := t.control.getLsbD 1

/-- The TRB apart from its cycle bit. -/
def request (t : Trb) : Trb := { t with control := t.control &&& ~~~1#32 }

end Trb

/-- What the driver pushes: anything but a link. -/
structure WorkTrb where
  trb : Trb
  notLink : trb.isLink = false

/-- The stores of a push, in order. -/
inductive Word
  | p0
  | p1
  | status
  | control
  | link
  deriving DecidableEq

/-- A ring and the statics of the driver that go with it. -/
structure DriverRing where
  entries : ℕ → Trb
  /-- `x_cmd_idx`, `x_ep0_idx`, `x_ep0idx_s`, `x_int_idx` -/
  idx : ℕ
  /-- `x_cmd_cycle`, `x_ep0_cycle`, `x_ep0cyc_s`, `x_int_cyc` -/
  cycle : Bool

namespace DriverRing

/-- A ring of `size` entries at the address `base`, as it is set up. -/
def init (size : ℕ) (base : BitVec 64) : DriverRing where
  entries j :=
    if j = size - 1 then
      { p0 := base.truncate 32, p1 := (base >>> 32).truncate 32, status := 0
        control := (6#32 <<< 10) ||| (1#32 <<< 1) ||| 1#32 }
    else { p0 := 0, p1 := 0, status := 0, control := 0 }
  idx := 0
  cycle := true

def write (d : DriverRing) (j : ℕ) (f : Trb → Trb) : DriverRing :=
  { d with entries := Function.update d.entries j (f (d.entries j)) }

/-- The part of a push behind its four stores. -/
def advance (size : ℕ) (d : DriverRing) : DriverRing :=
  if d.idx + 1 = size - 1 then
    { d.write (size - 1) fun e => { e with control := withCycle e.control d.cycle } with
      idx := 0, cycle := !d.cycle }
  else { d with idx := d.idx + 1 }

/-- A push that nobody interrupts. -/
def push (size : ℕ) (d : DriverRing) (t : Trb) : DriverRing :=
  (d.write d.idx fun _ => { t with control := withCycle t.control d.cycle }).advance size

/-- `x_cmd_push`; `XCMD_N` is 64. -/
def xCmdPush (d : DriverRing) (p0 p1 status control : BitVec 32) : DriverRing :=
  d.push 64 ⟨p0, p1, status, control⟩

/-- `x_ep0_push`. -/
def xEp0Push (d : DriverRing) (p0 p1 status control : BitVec 32) : DriverRing :=
  d.push 16 ⟨p0, p1, status, control⟩

/-- `xs_ep0_push`, with a ring for each slot. -/
def xsEp0Push (ds : ℕ → DriverRing) (slot : ℕ) (p0 p1 status control : BitVec 32) :
    ℕ → DriverRing :=
  Function.update ds slot ((ds slot).push 16 ⟨p0, p1, status, control⟩)

/-- `x_hid_arm`, with the address of `x_hid_buf[slot]`. The cycle bit goes to a clear
bit, so nothing is masked out. -/
def xHidArm (ds : ℕ → DriverRing) (hidBuf : ℕ → BitVec 64) (slot : ℕ) : ℕ → DriverRing :=
  let d := ds slot
  Function.update ds slot
    ((d.write d.idx fun _ =>
      { p0 := (hidBuf slot).truncate 32, p1 := (hidBuf slot >>> 32).truncate 32, status := 8
        control := (1#32 <<< 10) ||| (1#32 <<< 5) ||| (if d.cycle then 1#32 else 0#32) }).advance
      16)

end DriverRing

/-- A ring that is shared, with the next store of the push in progress. -/
structure Ring extends DriverRing where
  busy : Option (WorkTrb × Word)
  /-- the entry the controller reads next -/
  pos : ℕ
  /-- the cycle state of the controller -/
  own : Bool
  /-- ghost: what was pushed and what was consumed, in order -/
  pushed : List Trb
  consumed : List Trb

inductive RingOp
  | push (t : WorkTrb)
  | store
  | controller

namespace Ring

def init (size : ℕ) (base : BitVec 64) : Ring where
  toDriverRing := DriverRing.init size base
  busy := none
  pos := 0
  own := true
  pushed := []
  consumed := []

def write (r : Ring) (j : ℕ) (f : Trb → Trb) : Ring :=
  { r with toDriverRing := r.toDriverRing.write j f }

/-- The next store of a push. -/
def store (size : ℕ) (r : Ring) : Option Ring :=
  match r.busy with
  | none => none
  | some (t, .p0) =>
    some { r.write r.idx fun e => { e with p0 := t.trb.p0 } with busy := some (t, .p1) }
  | some (t, .p1) =>
    some { r.write r.idx fun e => { e with p1 := t.trb.p1 } with busy := some (t, .status) }
  | some (t, .status) =>
    some { r.write r.idx fun e => { e with status := t.trb.status } with
      busy := some (t, .control) }
  | some (t, .control) =>
    some { r.write r.idx fun e => { e with control := withCycle t.trb.control r.cycle } with
      idx := r.idx + 1
      busy := if r.idx + 1 = size - 1 then some (t, .link) else none
      pushed := r.pushed ++ [t.trb.request] }
  | some (_, .link) =>
    some { r.write (size - 1) fun e => { e with control := withCycle e.control r.cycle } with
      idx := 0, cycle := !r.cycle, busy := none }

/-- The controller takes an entry that it owns, or follows a link that it owns. -/
def controller (r : Ring) : Option Ring :=
  let e := r.entries r.pos
  if e.cycleBit = r.own then
    if e.isLink then some { r with pos := 0, own := r.own ^^ e.toggles }
    else some { r with pos := r.pos + 1, consumed := r.consumed ++ [e.request] }
  else none

def step (size : ℕ) (r : Ring) : RingOp → Option Ring
  | .push t => if r.busy.isNone then some { r with busy := some (t, .p0) } else none
  | .store => r.store size
  | .controller => r.controller

/-- At most `size - 2` entries are pushed and not consumed. -/
def HasRoom (size : ℕ) (r : Ring) : Prop := r.pushed.length ≤ r.consumed.length + (size - 2)

instance HasRoom.decidable (size : ℕ) (r : Ring) : Decidable (r.HasRoom size) :=
  inferInstanceAs (Decidable (_ ≤ _))

end Ring

@[simp] theorem getLsbD_withCycle (c : BitVec 32) (b : Bool) : (withCycle c b).getLsbD 0 = b := by
  cases b <;> simp [withCycle]

/-- The other bits of a word are kept. -/
theorem withCycle_and (c : BitVec 32) (b : Bool) : withCycle c b &&& ~~~1#32 = c &&& ~~~1#32 := by
  cases b with
  | false => simp [withCycle, BitVec.and_assoc]
  | true =>
    ext i hi
    by_cases h0 : i = 0
    · subst h0
      simp [withCycle]
    · simp [withCycle, h0]

theorem type_and (c : BitVec 32) :
    ((c &&& ~~~1#32) >>> 10) &&& 0x3f#32 = (c >>> 10) &&& 0x3f#32 := by
  rw [BitVec.ushiftRight_and_distrib, BitVec.and_assoc]
  rfl

/-- The type field does not see the cycle bit. -/
theorem type_withCycle (c : BitVec 32) (b : Bool) :
    (withCycle c b >>> 10) &&& 0x3f#32 = (c >>> 10) &&& 0x3f#32 := by
  rw [← type_and (withCycle c b), withCycle_and, type_and]

theorem Trb.isLink_congr {t t' : Trb} (h : t.request = t'.request) : t.isLink = t'.isLink := by
  have hcontrol : t.control &&& ~~~1#32 = t'.control &&& ~~~1#32 := congrArg Trb.control h
  rw [Trb.isLink, Trb.isLink, ← type_and t.control, ← type_and t'.control, hcontrol]

theorem getLsbD_one_withCycle (c : BitVec 32) (b : Bool) :
    (withCycle c b).getLsbD 1 = c.getLsbD 1 := by
  cases b <;> simp [withCycle]

/-- The words of an entry that are stored before `word`. -/
def Prepared (t e : Trb) : Word → Prop
  | .p0 => True
  | .p1 => e.p0 = t.p0
  | .status => e.p0 = t.p0 ∧ e.p1 = t.p1
  | .control => e.p0 = t.p0 ∧ e.p1 = t.p1 ∧ e.status = t.status
  | .link => True

namespace Ring

/-- Driver and controller agree: the entries `w` hold what is pushed and not consumed. -/
structure Agrees (size : ℕ) (r : Ring) (w : List ℕ) : Prop where
  inStep : InStep (size - 1) Trb.cycleBit r.entries r.idx r.cycle r.pos r.own w
  handed : r.pushed = r.consumed ++ w.map fun j => (r.entries j).request
  work : ∀ j ∈ w, (r.entries j).isLink = false
  link : (r.entries (size - 1)).isLink = true ∧ (r.entries (size - 1)).toggles = true
  closing : (∃ t, r.busy = some (t, .link)) ↔ r.idx = size - 1
  prepared : ∀ t word, r.busy = some (t, word) → Prepared t.trb (r.entries r.idx) word

variable {size : ℕ} {r r' : Ring} {w : List ℕ} {t : WorkTrb}

namespace Agrees

theorem idx_lt (h : Agrees size r w) {word : Word} (hbusy : r.busy = some (t, word))
    (hword : word ≠ .link) : r.idx < size - 1 := by
  apply lt_of_le_of_ne h.inStep.idx_le
  intro hidx
  obtain ⟨t', ht'⟩ := h.closing.mpr hidx
  rw [hbusy] at ht'
  cases ht'
  exact hword rfl

/-- Stores to the entry that is being filled, with its bit left alone. -/
theorem fill (h : Agrees size r w) {word : Word} (hbusy : r.busy = some (t, word))
    (hword : word ≠ .link) {f : Trb → Trb} {word' : Word} (hword' : word' ≠ .link)
    (hbit : (f (r.entries r.idx)).cycleBit = (r.entries r.idx).cycleBit)
    (hprep : Prepared t.trb (f (r.entries r.idx)) word') :
    Agrees size { r.write r.idx f with busy := some (t, word') } w := by
  have hidx := h.idx_lt hbusy hword
  have hkeep : ∀ j, j ≠ r.idx → (r.write r.idx f).entries j = r.entries j := by
    intro j hj
    exact Function.update_of_ne hj ..
  have hw : ∀ j ∈ w, j ≠ r.idx := by
    rintro j hj rfl
    exact h.inStep.notMem hj
  constructor
  · apply h.inStep.congr
    intro j hj
    by_cases hji : j = r.idx
    · subst hji
      simpa [write, DriverRing.write] using hbit
    · exact congrArg Trb.cycleBit (hkeep j hji)
  · refine h.handed.trans (congrArg _ (List.map_congr_left fun j hj => ?_))
    exact (congrArg Trb.request (hkeep j (hw j hj))).symm
  · intro j hj
    exact (congrArg Trb.isLink (hkeep j (hw j hj))).trans (h.work j hj)
  · have hlink := hkeep (size - 1) hidx.ne'
    exact ⟨(congrArg Trb.isLink hlink).trans h.link.1, (congrArg Trb.toggles hlink).trans h.link.2⟩
  · constructor
    · rintro ⟨t', ht'⟩
      cases ht'
      exact absurd rfl hword'
    · intro heq
      exact absurd heq hidx.ne
  · rintro t' word'' ht'
    cases ht'
    simpa [write, DriverRing.write] using hprep

/-- The store of the control word hands the entry over. -/
theorem control (h : Agrees size r w) (hbusy : r.busy = some (t, .control))
    (hstep : r.store size = some r') (hroom : HasRoom size r') :
    Agrees size r' (w ++ [r.idx]) := by
  have hidx := h.idx_lt hbusy (by decide)
  obtain ⟨hp0, hp1, hstatus⟩ := h.prepared t .control hbusy
  simp only [store, hbusy] at hstep
  cases hstep
  have hlen : w.length + 1 < size - 1 := by
    have hpushed := congrArg List.length h.handed
    simp only [HasRoom, List.length_append, List.length_map, List.length_singleton, write] at *
    omega
  have hw : ∀ j ∈ w, j ≠ r.idx := by
    rintro j hj rfl
    exact h.inStep.notMem hj
  have hnew : Trb.request { r.entries r.idx with control := withCycle t.trb.control r.cycle } =
      t.trb.request := by
    simp only [Trb.request, withCycle_and, hp0, hp1, hstatus]
  have hlinkNe : size - 1 ≠ r.idx := hidx.ne'
  constructor
  · exact h.inStep.publish hidx (getLsbD_withCycle ..) hlen
  · have hmap : ∀ j ∈ w, ((r.write r.idx fun e =>
        { e with control := withCycle t.trb.control r.cycle }).entries j).request =
          (r.entries j).request := by
      intro j hj
      simp [write, DriverRing.write, hw j hj]
    simp only [List.map_append, List.map_cons, List.map_nil]
    rw [List.map_congr_left hmap, h.handed, List.append_assoc]
    simp [write, DriverRing.write, hnew]
  · intro j hj
    rcases List.mem_append.mp hj with hj | hj
    · simpa [write, DriverRing.write, hw j hj] using h.work j hj
    · rw [List.mem_singleton.mp hj]
      simpa [write, DriverRing.write] using (Trb.isLink_congr hnew).trans t.notLink
  · simpa [write, DriverRing.write, hlinkNe] using h.link
  · by_cases hlast : r.idx + 1 = size - 1
    · simp [hlast]
    · simp [hlast]
  · intro t' word' ht'
    simp only at ht'
    split_ifs at ht' with hlast
    cases ht'
    trivial

/-- The store to the link ends the lap. -/
theorem closeLap (h : Agrees size r w) (hsize : 2 ≤ size) (hbusy : r.busy = some (t, .link))
    (hstep : r.store size = some r') (hroom : HasRoom size r') : Agrees size r' w := by
  have hidx : r.idx = size - 1 := h.closing.mp ⟨t, hbusy⟩
  simp only [store, hbusy] at hstep
  cases hstep
  have hlen : w.length < size - 1 := by
    have hpushed := congrArg List.length h.handed
    simp only [HasRoom, List.length_append, List.length_map, write] at *
    omega
  have hw : ∀ j ∈ w, j ≠ size - 1 := fun j hj => (h.inStep.lt_of_mem hj).ne
  have hin := h.inStep
  rw [hidx] at hin
  constructor
  · exact hin.close (getLsbD_withCycle ..) hlen
  · refine h.handed.trans (congrArg _ (List.map_congr_left fun j hj => ?_))
    simp [write, DriverRing.write, hw j hj]
  · intro j hj
    simpa [write, DriverRing.write, hw j hj] using h.work j hj
  · have htype := type_withCycle (r.entries (size - 1)).control r.cycle
    have htog := getLsbD_one_withCycle (r.entries (size - 1)).control r.cycle
    constructor
    · simpa [write, DriverRing.write, Trb.isLink, htype] using h.link.1
    · simpa only [write, DriverRing.write, Function.update_self, Trb.toggles, htog] using h.link.2
  · simp only [reduceCtorEq, exists_false, false_iff]
    omega
  · intro t' word' ht'
    cases ht'

/-- The controller takes the first entry that is handed over, or follows the link. -/
theorem controller (h : Agrees size r w) (hsize : 2 ≤ size) (hstep : r.controller = some r') :
    (r.pos = size - 1 ∧ r'.pos = 0 ∧ r'.pushed = r.pushed ∧ Agrees size r' w) ∨
      ∃ w', w = r.pos :: w' ∧ r'.pushed = r.pushed ∧ Agrees size r' w' := by
  simp only [Ring.controller] at hstep
  split_ifs at hstep with hbit hlink
  · have hpos : r.pos = size - 1 := by
      apply le_antisymm h.inStep.pos_le
      by_contra hlt
      obtain ⟨w', rfl, -⟩ := h.inStep.take (not_le.mp hlt) hbit
      simp [h.work r.pos (by simp)] at hlink
    cases hstep
    have hin := h.inStep
    rw [hpos] at hin
    have htog : (r.own ^^ (r.entries r.pos).toggles) = !r.own := by
      rw [hpos, h.link.2, Bool.xor_true]
    refine Or.inl ⟨hpos, rfl, rfl, ?_, h.handed, h.work, h.link, h.closing, h.prepared⟩
    simp only [htog]
    exact hin.follow (by omega)
  · have hpos : r.pos < size - 1 := by
      apply lt_of_le_of_ne h.inStep.pos_le
      intro heq
      rw [heq] at hlink
      exact hlink h.link.1
    obtain ⟨w', rfl, hin⟩ := h.inStep.take hpos hbit
    cases hstep
    refine Or.inr ⟨w', rfl, rfl, hin, ?_, fun j hj => h.work j (by simp [hj]), h.link, h.closing,
      h.prepared⟩
    simp [h.handed]

/-- One step of the driver or of the controller. -/
theorem step (h : Agrees size r w) (hsize : 2 ≤ size) {op : RingOp}
    (hstep : Ring.step size r op = some r') (hroom : HasRoom size r') :
    ∃ w', Agrees size r' w' := by
  cases op with
  | push t =>
    simp only [Ring.step, Option.ite_none_right_eq_some, Option.isNone_iff_eq_none] at hstep
    obtain ⟨hidle, hr'⟩ := hstep
    cases hr'
    refine ⟨w, h.inStep, h.handed, h.work, h.link, ?_, ?_⟩
    · rw [← h.closing, hidle]
      simp
    · rintro t' word ht'
      cases ht'
      trivial
  | store =>
    cases hbusy : r.busy with
    | none => simp [Ring.step, store, hbusy] at hstep
    | some b =>
      obtain ⟨t, word⟩ := b
      have hprep := h.prepared t word hbusy
      cases word with
      | p0 =>
        simp only [Ring.step, store, hbusy] at hstep
        cases hstep
        exact ⟨w, h.fill hbusy (by decide) (by decide) rfl rfl⟩
      | p1 =>
        simp only [Ring.step, store, hbusy] at hstep
        cases hstep
        exact ⟨w, h.fill hbusy (by decide) (by decide) rfl ⟨hprep, rfl⟩⟩
      | status =>
        simp only [Ring.step, store, hbusy] at hstep
        cases hstep
        exact ⟨w, h.fill hbusy (by decide) (by decide) rfl ⟨hprep.1, hprep.2, rfl⟩⟩
      | control => exact ⟨_, h.control hbusy hstep hroom⟩
      | link => exact ⟨w, h.closeLap hsize hbusy hstep hroom⟩
  | controller =>
    rcases h.controller hsize hstep with ⟨-, -, -, h'⟩ | ⟨w', -, -, h'⟩
    · exact ⟨w, h'⟩
    · exact ⟨w', h'⟩

/-- The controller alone consumes all that is handed over. -/
theorem drain (h : Agrees size r w) (hsize : 2 ≤ size) :
    ∃ m r', exec (Ring.step size) r (List.replicate m .controller) = some r' ∧
      r'.consumed = r.pushed := by
  induction w generalizing r with
  | nil => exact ⟨0, r, rfl, by simpa using h.handed.symm⟩
  | cons j w ih =>
    have hsome : ∀ {r : Ring}, Agrees size r (j :: w) → ∃ r', r.controller = some r' := by
      intro r h
      have hbit := h.inStep.ready (List.cons_ne_nil j w)
      simp only [Ring.controller, if_pos hbit]
      split_ifs
      · exact ⟨_, rfl⟩
      · exact ⟨_, rfl⟩
    have htake : ∀ {r : Ring}, Agrees size r (j :: w) → r.pos ≠ size - 1 →
        ∃ m r', exec (Ring.step size) r (List.replicate m .controller) = some r' ∧
          r'.consumed = r.pushed := by
      intro r h hpos
      obtain ⟨r₁, hr₁⟩ := hsome h
      rcases h.controller hsize hr₁ with ⟨hlink, -⟩ | ⟨w', hw, hpushed, h₁⟩
      · exact absurd hlink hpos
      · cases hw
        obtain ⟨m, r', hrun, hdone⟩ := ih h₁
        exact ⟨m + 1, r', by simp [List.replicate_succ, exec, Ring.step, hr₁, hrun],
          hdone.trans hpushed⟩
    by_cases hpos : r.pos = size - 1
    · -- first the link, then the entry behind it
      obtain ⟨r₁, hr₁⟩ := hsome h
      rcases h.controller hsize hr₁ with ⟨-, hzero, hpushed, h₁⟩ | ⟨w', hw, -, h₁⟩
      · obtain ⟨m, r', hrun, hdone⟩ := htake h₁ (by omega)
        exact ⟨m + 1, r', by simp [List.replicate_succ, exec, Ring.step, hr₁, hrun],
          hdone.trans hpushed⟩
      · cases hw
        have hlt := h.inStep.lt_of_mem List.mem_cons_self
        omega
    · exact htake h hpos

end Agrees

theorem init_agrees (hsize : 2 ≤ size) (base : BitVec 64) : Agrees size (init size base) [] where
  inStep := InStep.init fun j hj => by
    have hne : j ≠ size - 1 := hj.ne
    simp [init, DriverRing.init, hne, Trb.cycleBit]
  handed := rfl
  work := by simp
  link := by
    simp [init, DriverRing.init, Trb.isLink, Trb.toggles]
  closing := by
    simp only [init, DriverRing.init, reduceCtorEq, exists_false, false_iff]
    omega
  prepared := by
    intro t word ht
    cases ht

/-- The entry that a push in progress has not handed over yet. -/
def inProgress (r : Ring) : List Trb :=
  match r.busy with
  | some (_, .link) => []
  | some (t, _) => [t.trb.request]
  | none => []

end Ring

/-- What the pushes of a run ask for. -/
def requests : List RingOp → List Trb
  | [] => []
  | .push t :: ops => t.trb.request :: requests ops
  | _ :: ops => requests ops

namespace Ring

variable {size : ℕ} {r r' : Ring}

/-- What was pushed is what the run asked for, less the push in progress. -/
theorem exec_pushed {ops : List RingOp} (hrun : exec (step size) r ops = some r') :
    r'.pushed ++ r'.inProgress = r.pushed ++ r.inProgress ++ requests ops := by
  induction ops generalizing r with
  | nil =>
    cases hrun
    simp [requests]
  | cons op ops ih =>
    obtain ⟨r₁, hstep, hrest⟩ := Option.bind_eq_some_iff.mp hrun
    rw [ih hrest]
    cases op with
    | push t =>
      simp only [step, Option.ite_none_right_eq_some, Option.isNone_iff_eq_none] at hstep
      obtain ⟨hidle, hr₁⟩ := hstep
      cases hr₁
      simp [inProgress, hidle, requests]
    | store =>
      cases hbusy : r.busy with
      | none => simp [step, store, hbusy] at hstep
      | some b =>
        obtain ⟨t, word⟩ := b
        cases word with
        | control =>
          simp only [step, store, hbusy] at hstep
          cases hstep
          by_cases hlast : r.idx + 1 = size - 1
          · simp [inProgress, requests, hbusy, hlast]
          · simp [inProgress, requests, hbusy, hlast]
        | _ =>
          simp only [step, store, hbusy] at hstep
          cases hstep
          simp [inProgress, requests, hbusy, write]
    | controller =>
      simp only [step, controller] at hstep
      split_ifs at hstep
      · cases hstep
        rfl
      · cases hstep
        rfl

/-- The ring is a queue, for every size. -/
theorem queue_of_hasRoom (hsize : 2 ≤ size) (base : BitVec 64) {ops : List RingOp}
    (hrun : exec (step size) (init size base) ops = some r)
    (hroom : Always (step size) (HasRoom size) (init size base) ops) :
    r.consumed <+: r.pushed ∧ r.pushed ++ r.inProgress = requests ops ∧
      ∃ m r', exec (step size) r (List.replicate m .controller) = some r' ∧
        r'.consumed = r.pushed := by
  obtain ⟨w, h⟩ : ∃ w, Agrees size r w := by
    refine hroom.invariant (fun r => ∃ w, Agrees size r w) ?_ ⟨[], init_agrees hsize base⟩ hrun
    rintro r op r' ⟨w, h⟩ hroom hstep
    exact h.step hsize hstep hroom
  refine ⟨⟨_, h.handed.symm⟩, ?_, h.drain hsize⟩
  simpa [init, inProgress] using exec_pushed hrun

theorem exec_words {t : WorkTrb} (hbusy : r.busy = some (t, .p0)) :
    ∃ r', exec (step size) r (List.replicate 4 .store) = some r' ∧
      r'.toDriverRing = { r.toDriverRing.write r.idx fun _ =>
        { t.trb with control := withCycle t.trb.control r.cycle } with idx := r.idx + 1 } ∧
      r'.busy = if r.idx + 1 = size - 1 then some (t, .link) else none := by
  refine ⟨_, by simp only [List.replicate, exec, step, store, hbusy, Option.bind_some]; rfl, ?_, rfl⟩
  simp [write, DriverRing.write]

/-- A push whose stores follow each other is the push of the driver. -/
theorem exec_push (hidle : r.busy = none) (t : WorkTrb) :
    ∃ k r', exec (step size) r (.push t :: List.replicate k .store) = some r' ∧
      r'.busy = none ∧ r'.toDriverRing = r.toDriverRing.push size t.trb := by
  have hbusy : ({ r with busy := some (t, .p0) } : Ring).busy = some (t, .p0) := rfl
  obtain ⟨r₁, hrun, hring, hnext⟩ := @exec_words size _ t hbusy
  have hpush : exec (step size) r (.push t :: List.replicate 4 .store) = some r₁ := by
    simpa [exec, step, hidle] using hrun
  by_cases hlast : r.idx + 1 = size - 1
  · have hlink : r₁.busy = some (t, .link) := hnext.trans (if_pos hlast)
    refine ⟨5, { r₁.write (size - 1) fun e => { e with control := withCycle e.control r₁.cycle } with
      idx := 0, cycle := !r₁.cycle, busy := none }, ?_, rfl, ?_⟩
    · have hsplit : RingOp.push t :: List.replicate 5 .store =
          (RingOp.push t :: List.replicate 4 .store) ++ [RingOp.store] := rfl
      rw [hsplit, exec_append, hpush]
      simp [exec, step, store, hlink]
    · simp [write, DriverRing.push, DriverRing.advance, DriverRing.write, hring, hlast]
  · refine ⟨4, r₁, hpush, hnext.trans (if_neg hlast), ?_⟩
    simp [DriverRing.push, DriverRing.advance, DriverRing.write, hring, hlast]

end Ring

theorem DriverRing.xHidArm_eq (ds : ℕ → DriverRing) (hidBuf : ℕ → BitVec 64) (slot : ℕ) :
    xHidArm ds hidBuf slot = Function.update ds slot ((ds slot).push 16
      ⟨(hidBuf slot).truncate 32, (hidBuf slot >>> 32).truncate 32, 8,
        (1#32 <<< 10) ||| (1#32 <<< 5)⟩) := by
  have hcontrol : ∀ b : Bool, withCycle ((1#32 <<< 10) ||| (1#32 <<< 5)) b =
      (1#32 <<< 10) ||| (1#32 <<< 5) ||| (if b then 1#32 else 0#32) := by
    decide
  rw [xHidArm, push, hcontrol]

/-- The rings of the driver. -/
inductive RingKind
  | command
  | ep0
  | slotEp0 (slot : ℕ)
  | interrupt (slot : ℕ)

/-- `XCMD_N` entries for commands, 16 for transfers. -/
def RingKind.size : RingKind → ℕ
  | .command => 64
  | .ep0 => 16
  | .slotEp0 _ => 16
  | .interrupt _ => 16

theorem RingKind.two_le_size (k : RingKind) : 2 ≤ k.size := by
  cases k <;> simp [RingKind.size]

/-- As long as at most `size - 2` entries are outstanding, each ring is a queue: what the
controller consumes is what was pushed, in order and complete as far as it goes, and the
rest is consumed when the controller goes on. -/
theorem rings_fifo (k : RingKind) (base : BitVec 64) {ops : List RingOp} {r : Ring}
    (hrun : exec (Ring.step k.size) (Ring.init k.size base) ops = some r)
    (hroom : Always (Ring.step k.size) (Ring.HasRoom k.size) (Ring.init k.size base) ops) :
    r.consumed <+: r.pushed ∧ r.pushed ++ r.inProgress = requests ops ∧
      ∃ m r', exec (Ring.step k.size) r (List.replicate m .controller) = some r' ∧
        r'.consumed = r.pushed :=
  Ring.queue_of_hasRoom k.two_le_size base hrun hroom

/-- A transfer that is pushed and taken. -/
def taken (t : WorkTrb) : List RingOp := [.push t, .store, .store, .store, .store, .controller]

/-- A ring of 16 entries is filled up to its link, the last push stores it, and the controller
follows it; the next transfer is the first entry of the new lap. Of the one behind it the first
word is stored. -/
def wrappingRun (t u : WorkTrb) : List RingOp :=
  (List.replicate 14 (taken t)).flatten ++
    [RingOp.push t, .store, .store, .store, .store, .store, .controller, .controller] ++ taken u ++
    [RingOp.push t, .store]

theorem rings_fifo_wrap :
    let t : WorkTrb := ⟨⟨0, 0, 8, 0x420⟩, by decide⟩
    let u : WorkTrb := ⟨⟨64, 0, 8, 0x420⟩, by decide⟩
    ∃ r, exec (Ring.step 16) (Ring.init 16 0) (wrappingRun t u) = some r ∧
      r.consumed.length = 16 ∧ r.consumed.getLast? = some u.trb.request ∧
      r.consumed <+: r.pushed ∧ r.pushed ++ r.inProgress = requests (wrappingRun t u) ∧
      ∃ m r', exec (Ring.step 16) r (List.replicate m .controller) = some r' ∧
        r'.consumed = r.pushed := by
  intro t u
  obtain ⟨r, hr⟩ := Option.isSome_iff_exists.mp
    (by decide +kernel : (exec (Ring.step 16) (Ring.init 16 0) (wrappingRun t u)).isSome)
  have hlast : (exec (Ring.step 16) (Ring.init 16 0) (wrappingRun t u)).map
      (fun r => (r.consumed.length, r.consumed.getLast?)) = some (16, some u.trb.request) := by
    decide +kernel
  rw [hr, Option.map_some, Option.some.injEq, Prod.mk.injEq] at hlast
  exact ⟨r, hr, hlast.1, hlast.2, rings_fifo (.interrupt 0) 0 hr (by decide +kernel)⟩

/-- With as many entries outstanding as the ring holds, the controller waits at a link
that is a lap ahead of it. -/
example :
    let t : WorkTrb := ⟨⟨0, 0, 0, 9#32 <<< 10⟩, by decide⟩
    let push : List RingOp := [.push t, .store, .store, .store, .store]
    ((exec (Ring.step 3) (Ring.init 3 0) (push ++ push ++
      [RingOp.store, .controller, .controller] ++ push ++ push ++ [RingOp.store])).bind (Ring.step 3 · .controller)).isNone := by
  decide

end XinuRpi4.Usb
