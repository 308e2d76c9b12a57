import XinuRpi4.Foundation.DescriptorQueue
import XinuRpi4.Foundation.Runs

/-!
# The transmit ring of the Ethernet controller

The hardware sends the descriptor at `CONS` until it equals `PROD`. A call
copies its frame into the one buffer, writes the descriptor at an index of the
software, advances `PROD` and waits for the hardware for a while. The hardware
may go on at any point of a call.
-/

namespace XinuRpi4.Genet

open XinuRpi4.Foundation

def txDescs : ℕ := 256

/-- The buffers a descriptor can point to: `tx_buf` and `tx_buf_pool`. -/
inductive TxBuffer
  | arp
  | pool
deriving DecidableEq

/-- The address of a descriptor and the length in its status word. -/
structure TxDesc where
  buf : TxBuffer
  length : ℕ
deriving DecidableEq

/-- The contents of `tx_buf`: a broadcast request for 192.168.1.1. -/
def txBuf : List UInt8 :=
  List.replicate 6 0xFF ++ List.replicate 6 0 ++
    [0x08, 0x06, 0x00, 0x01, 0x08, 0x00, 0x06, 0x04, 0x00, 0x01] ++
    List.replicate 16 0 ++ [192, 168, 1, 1] ++ List.replicate 22 0

/-- The frame that `genet_send_one_arp` asks for. -/
def arpFrame : List UInt8 := txBuf.take 60

structure TxRing where
  prodIndex : UInt16
  consIndex : UInt16
  descs : ℕ → TxDesc
  txBufPool : ℕ → UInt8
  gTxIndexSw : ℕ
  gTxInited : Bool
  gTxTimeouts : ℕ

/-- Where a call is: in the loop that copies the frame, behind it, behind the write
of the descriptor, or in the loop that waits. -/
inductive TxPc
  | idle
  | copying (frame : List UInt8) (i : ℕ)
  | armed
  | waiting (prod : UInt16)
  | arpRead (curCons : UInt16)
  | arpReset (curCons : UInt16)
  | arpArmed (curCons : UInt16)
  | arpWaiting (newProd : UInt16)
deriving DecidableEq

/-- The ring and the call, with the frames of the calls so far and what the
hardware has sent. -/
structure Transmitter where
  ring : TxRing
  pc : TxPc
  called : Bool
  asked : List (List UInt8)
  sent : List (List UInt8)

inductive TxLabel
  | hardware
  | txFrame (frame : List UInt8)
  | sendArp
  | go
  | timeout
deriving DecidableEq

namespace TxRing

variable (g : TxRing)

/-- The bytes that a descriptor points to. -/
def render (i : ℕ) : List UInt8 :=
  let desc := g.descs i
  match desc.buf with
  | .arp => txBuf.take desc.length
  | .pool => (List.range desc.length).map g.txBufPool

/-- The software index stands at the descriptor that `PROD` names. -/
def InStep : Prop := g.gTxIndexSw % txDescs = g.prodIndex.toNat % txDescs

instance : Decidable g.InStep := inferInstanceAs (Decidable (_ = _))

/-- The seeding of the index and the write of the descriptor. -/
def writeDescriptor (length : ℕ) : TxRing :=
  let gTxIndexSw := if g.gTxInited then g.gTxIndexSw else g.consIndex.toNat &&& 0xFF
  { g with
    gTxInited := true
    gTxIndexSw := gTxIndexSw
    descs := Function.update g.descs (gTxIndexSw % txDescs) ⟨.pool, length⟩ }

/-- The descriptor is handed over. -/
def advance : TxRing :=
  { g with
    prodIndex := g.prodIndex + 1
    gTxIndexSw := (g.gTxIndexSw + 1) &&& 0xFFFF }

end TxRing

/-- The lengths that `genet_tx_frame` takes. -/
def Sendable (frame : List UInt8) : Prop := 0 < frame.length ∧ frame.length ≤ 1518

instance (frame : List UInt8) : Decidable (Sendable frame) := inferInstanceAs (Decidable (_ ∧ _))

namespace Transmitter

variable (s : Transmitter)

/-- The hardware sends a descriptor. -/
def hardware : Option Transmitter :=
  if s.ring.consIndex = s.ring.prodIndex then none
  else
    some
      { s with
        ring := { s.ring with consIndex := s.ring.consIndex + 1 }
        sent := s.sent ++ [s.ring.render (s.ring.consIndex.toNat % txDescs)] }

/-- A call of `genet_tx_frame`; it fails at once when the length is out of range. -/
def txFrame (frame : List UInt8) : Option Transmitter :=
  if s.pc ≠ .idle then none
  else if Sendable frame then
    some { s with pc := .copying frame 0, called := true, asked := s.asked ++ [frame] }
  else some { s with called := true }

/-- A call of `genet_send_one_arp`, up to the read of `CONS`. -/
def sendArp : Option Transmitter :=
  if s.pc ≠ .idle then none
  else
    some
      { s with pc := .arpRead s.ring.consIndex, called := true, asked := s.asked ++ [arpFrame] }

/-- The next piece of the call. -/
def go : Option Transmitter :=
  match s.pc with
  | .idle => none
  | .copying frame i =>
    if h : i < frame.length then
      some
        { s with
          ring.txBufPool := Function.update s.ring.txBufPool i frame[i]
          pc := .copying frame (i + 1) }
    else some { s with ring := s.ring.writeDescriptor frame.length, pc := .armed }
  | .armed => some { s with ring := s.ring.advance, pc := .waiting (s.ring.prodIndex + 1) }
  | .waiting prod => if s.ring.consIndex = prod then some { s with pc := .idle } else some s
  | .arpRead curCons => some { s with ring.prodIndex := curCons, pc := .arpReset curCons }
  | .arpReset curCons =>
    some
      { s with
        ring.descs := Function.update s.ring.descs (curCons.toNat &&& 0xFF) ⟨.arp, 60⟩
        pc := .arpArmed curCons }
  | .arpArmed curCons =>
    some { s with ring.prodIndex := curCons + 1, pc := .arpWaiting (curCons + 1) }
  | .arpWaiting newProd => if s.ring.consIndex = newProd then some { s with pc := .idle } else some s

/-- The time for waiting is over; the frame may have gone out since the last look. -/
def timeout : Option Transmitter :=
  match s.pc with
  | .waiting _ => some { s with ring.gTxTimeouts := s.ring.gTxTimeouts + 1, pc := .idle }
  | .arpWaiting _ => some { s with pc := .idle }
  | _ => none

def step : TxLabel → Option Transmitter
  | .hardware => s.hardware
  | .txFrame frame => s.txFrame frame
  | .sendArp => s.sendArp
  | .go => s.go
  | .timeout => s.timeout

/-- An empty ring, wherever its indices stand, and no call yet. -/
def start (cons : UInt16) (descs : ℕ → TxDesc) (pool : ℕ → UInt8) : Transmitter where
  ring :=
    { prodIndex := cons
      consIndex := cons
      descs := descs
      txBufPool := pool
      gTxIndexSw := 0
      gTxInited := false
      gTxTimeouts := 0 }
  pc := .idle
  called := false
  asked := []
  sent := []

/-- The hardware has sent frames of calls, each at most once and in their order. -/
def InOrder : Prop := s.sent.Sublist s.asked

/-- Between two calls the index stands with `PROD`, from the first call that has
seeded it on. -/
def SeededInStep : Prop := s.pc = .idle → s.ring.gTxInited = true → s.ring.InStep

/-- The same from the first call of any kind on. -/
def CalledInStep : Prop := s.pc = .idle → s.called = true → s.ring.InStep

/-- A call finds the frames of the calls before it sent, and the request of
`genet_send_one_arp` comes before any frame of `genet_tx_frame`. -/
def Settled : TxLabel → Prop
  | .txFrame frame => Sendable frame → s.ring.prodIndex = s.ring.consIndex
  | .sendArp => s.ring.prodIndex = s.ring.consIndex ∧ s.ring.gTxInited = false
  | _ => True

/-- A call that leaves the index alone leaves it at `PROD`. -/
def Indexed : TxLabel → Prop
  | .txFrame frame => ¬ Sendable frame → s.ring.InStep
  | .sendArp => s.ring.gTxIndexSw % txDescs = (s.ring.consIndex + 1).toNat % txDescs
  | _ => True

/-- All frames are sent, or the last one is still in the ring. -/
def Pending : Prop :=
  s.ring.prodIndex = s.ring.consIndex ∧ s.asked = s.sent ∨
    s.ring.prodIndex = s.ring.consIndex + 1 ∧
      s.asked = s.sent ++ [s.ring.render (s.ring.consIndex.toNat % txDescs)]

/-- The ring is empty and one frame is asked for. -/
def Asks (frame : List UInt8) : Prop :=
  s.ring.prodIndex = s.ring.consIndex ∧ s.asked = s.sent ++ [frame]

/-- What holds at each place of a call. -/
def Stands : TxPc → Prop
  | .idle => s.Pending
  | .copying frame i => s.Asks frame ∧ i ≤ frame.length ∧
    ∀ j (h : j < frame.length), j < i → s.ring.txBufPool j = frame[j]
  | .armed => s.Asks (s.ring.render (s.ring.consIndex.toNat % txDescs)) ∧ s.ring.gTxInited = true
  | .waiting _ => s.Pending ∧ s.ring.gTxInited = true
  | .arpRead curCons =>
    s.Asks arpFrame ∧ curCons = s.ring.consIndex ∧ s.ring.gTxInited = false
  | .arpReset curCons =>
    s.Asks arpFrame ∧ curCons = s.ring.consIndex ∧ s.ring.gTxInited = false
  | .arpArmed curCons =>
    s.Asks arpFrame ∧ curCons = s.ring.consIndex ∧ s.ring.gTxInited = false ∧
      s.ring.render (s.ring.consIndex.toNat % txDescs) = arpFrame
  | .arpWaiting _ => s.Pending ∧ s.ring.gTxInited = false

structure Inv : Prop where
  stands : s.Stands s.pc
  inStep : s.ring.gTxInited = true → s.ring.InStep

variable {s}

theorem start_inv (cons : UInt16) (descs : ℕ → TxDesc) (pool : ℕ → UInt8) :
    (start cons descs pool).Inv := ⟨.inl ⟨rfl, rfl⟩, nofun⟩

theorem Pending.inOrder (h : s.Pending) : s.InOrder := by
  rcases h with ⟨-, hasked⟩ | ⟨-, hasked⟩
  · rw [InOrder, hasked]
  · rw [InOrder, hasked]
    exact List.sublist_append_left _ _

theorem Asks.inOrder {frame : List UInt8} (h : s.Asks frame) : s.InOrder := by
  rw [InOrder, h.2]
  exact List.sublist_append_left _ _

theorem Stands.inOrder {pc : TxPc} (h : s.Stands pc) : s.InOrder := by
  cases pc with
  | idle => exact Pending.inOrder h
  | waiting prod => exact h.1.inOrder
  | arpWaiting newProd => exact h.1.inOrder
  | copying frame i => exact h.1.inOrder
  | _ => exact h.1.inOrder

theorem Inv.inOrder (h : s.Inv) : s.InOrder := Stands.inOrder h.stands

theorem succ_ne (c : UInt16) : c + 1 ≠ c := by
  intro h
  have hc := congrArg UInt16.toNat h
  have hlt := c.toNat_lt
  rw [UInt16.toNat_add] at hc
  simp at hc
  omega

theorem hardware_keeps {s' : Transmitter} (hstep : s.hardware = some s') :
    s'.pc = s.pc ∧ s'.ring.gTxInited = s.ring.gTxInited ∧ (s.ring.InStep → s'.ring.InStep) := by
  unfold Transmitter.hardware at hstep
  split_ifs at hstep
  cases hstep
  exact ⟨rfl, rfl, id⟩

/-- A frame in the ring goes out as it was asked for. -/
theorem Pending.hardware {s' : Transmitter} (h : s.Pending) (hstep : s.hardware = some s') :
    s'.Pending := by
  unfold Transmitter.hardware at hstep
  split_ifs at hstep with hempty
  cases hstep
  rcases h with ⟨hprod, -⟩ | ⟨hprod, hasked⟩
  · exact absurd hprod.symm hempty
  · exact .inl ⟨hprod, hasked⟩

/-- The hardware has nothing to send before the frame is handed over. -/
theorem Asks.hardware {frame : List UInt8} (h : s.Asks frame) : s.hardware = none :=
  if_pos h.1.symm

theorem Stands.hardware {pc : TxPc} {s' : Transmitter} (h : s.Stands pc)
    (hstep : s.hardware = some s') : s'.Stands pc := by
  obtain ⟨-, hinited, -⟩ := hardware_keeps hstep
  cases pc with
  | idle => exact Pending.hardware h hstep
  | waiting prod => exact ⟨h.1.hardware hstep, hinited.trans h.2⟩
  | arpWaiting newProd => exact ⟨h.1.hardware hstep, hinited.trans h.2⟩
  | _ => exact absurd (h.1.hardware.symm.trans hstep) nofun

theorem hardware_inv {s' : Transmitter} (h : s.Inv) (hstep : s.hardware = some s') : s'.Inv := by
  obtain ⟨hpc, hinited, hkeep⟩ := hardware_keeps hstep
  refine ⟨?_, fun hi => hkeep (h.inStep (hinited ▸ hi))⟩
  rw [hpc]
  exact Stands.hardware h.stands hstep

/-- An empty ring has no frame pending. -/
theorem Pending.settled (h : s.Pending) (hempty : s.ring.prodIndex = s.ring.consIndex) :
    s.asked = s.sent := by
  rcases h with ⟨-, hasked⟩ | ⟨hprod, -⟩
  · exact hasked
  · exact absurd (hprod.symm.trans hempty) (succ_ne _)

theorem txFrame_inv {frame : List UInt8} {s' : Transmitter} (h : s.Inv)
    (hok : Sendable frame → s.ring.prodIndex = s.ring.consIndex)
    (hstep : s.txFrame frame = some s') : s'.Inv := by
  obtain ⟨hstands, hinStep⟩ := h
  unfold txFrame at hstep
  split_ifs at hstep with hpc hlen
  · cases hstep
    rw [not_not.mp hpc] at hstands
    have hasked := Pending.settled hstands (hok hlen)
    refine ⟨⟨⟨hok hlen, ?_⟩, Nat.zero_le _, fun j _ hj => absurd hj (Nat.not_lt_zero j)⟩, hinStep⟩
    rw [hasked]
  · cases hstep
    exact ⟨hstands, hinStep⟩

theorem sendArp_inv {s' : Transmitter} (h : s.Inv)
    (hok : s.ring.prodIndex = s.ring.consIndex ∧ s.ring.gTxInited = false)
    (hstep : s.sendArp = some s') : s'.Inv := by
  obtain ⟨hstands, hinStep⟩ := h
  unfold sendArp at hstep
  split_ifs at hstep with hpc
  cases hstep
  rw [not_not.mp hpc] at hstands
  have hasked := Pending.settled hstands hok.1
  refine ⟨⟨⟨hok.1, ?_⟩, rfl, hok.2⟩, hinStep⟩
  rw [hasked]

theorem mask_low (n : ℕ) : n &&& 0xFF = n % txDescs := by
  rw [show 0xFF = 2 ^ 8 - 1 from rfl, Nat.and_two_pow_sub_one_eq_mod]
  rfl

theorem mask_word (n : ℕ) : (n &&& 0xFFFF) % txDescs = n % txDescs := by
  rw [show 0xFFFF = 2 ^ 16 - 1 from rfl, Nat.and_two_pow_sub_one_eq_mod]
  exact Nat.mod_mod_of_dvd n (by decide)

/-- The copied bytes are the frame. -/
theorem copied {pool : ℕ → UInt8} {frame : List UInt8}
    (h : ∀ j (h : j < frame.length), pool j = frame[j]) :
    (List.range frame.length).map pool = frame := by
  apply List.ext_getElem
  · simp
  · intro j hj hj'
    simp [h j hj']

/-- The descriptor is written where the hardware reads next, and the index stands
with `PROD` whether it was seeded now or before. -/
theorem writeDescriptor_spec {g : TxRing} {frame : List UInt8} (hempty : g.prodIndex = g.consIndex)
    (hinStep : g.gTxInited = true → g.InStep)
    (hpool : ∀ j (h : j < frame.length), g.txBufPool j = frame[j]) :
    (g.writeDescriptor frame.length).InStep ∧
      (g.writeDescriptor frame.length).render (g.consIndex.toNat % txDescs) = frame := by
  have hslot : (if g.gTxInited then g.gTxIndexSw else g.consIndex.toNat &&& 0xFF) % txDescs =
      g.consIndex.toNat % txDescs := by
    split_ifs with hinit
    · rw [← hempty]
      exact hinStep hinit
    · rw [mask_low, Nat.mod_mod]
  refine ⟨?_, ?_⟩
  · change _ % txDescs = g.prodIndex.toNat % txDescs
    rw [hempty]
    exact hslot
  · simp only [TxRing.render, TxRing.writeDescriptor, hslot, Function.update_self]
    exact copied hpool

theorem advance_inStep {g : TxRing} (h : g.InStep) : g.advance.InStep := by
  change ((g.gTxIndexSw + 1) &&& 0xFFFF) % txDescs = (g.prodIndex + 1).toNat % txDescs
  rw [mask_word, index_succ_mod _ (by decide), Nat.add_mod, h, ← Nat.add_mod]

theorem go_copying {frame : List UInt8} {i : ℕ} {s' : Transmitter} (h : s.Inv)
    (hpc : s.pc = .copying frame i) (hstep : s.go = some s') : s'.Inv := by
  obtain ⟨hstands, hinStep⟩ := h
  rw [hpc] at hstands
  obtain ⟨hasks, hi, hpool⟩ := hstands
  rw [go, hpc] at hstep
  simp only at hstep
  split_ifs at hstep with hmore
  · cases hstep
    refine ⟨⟨hasks, hmore, fun j hj hji => ?_⟩, hinStep⟩
    by_cases hlast : j = i
    · subst hlast
      exact Function.update_self _ _ _
    · exact (Function.update_of_ne hlast _ _).trans (hpool j hj (by omega))
  · cases hstep
    have hcopied : ∀ j (hj : j < frame.length), s.ring.txBufPool j = frame[j] :=
      fun j hj => hpool j hj (by omega)
    obtain ⟨hkeep, hrender⟩ := writeDescriptor_spec hasks.1 hinStep hcopied
    refine ⟨⟨⟨hasks.1, ?_⟩, rfl⟩, fun _ => hkeep⟩
    exact hasks.2.trans (congrArg (s.sent ++ [·]) hrender.symm)

theorem go_armed {s' : Transmitter} (h : s.Inv) (hpc : s.pc = .armed) (hstep : s.go = some s') :
    s'.Inv := by
  obtain ⟨hstands, hinStep⟩ := h
  rw [hpc] at hstands
  obtain ⟨⟨hempty, hasked⟩, hinit⟩ := hstands
  rw [go, hpc] at hstep
  cases hstep
  refine ⟨⟨.inr ⟨?_, hasked⟩, hinit⟩, fun _ => advance_inStep (hinStep hinit)⟩
  exact congrArg (· + 1) hempty

theorem go_waiting {prod : UInt16} {s' : Transmitter} (h : s.Inv) (hpc : s.pc = .waiting prod)
    (hstep : s.go = some s') : s'.Inv := by
  obtain ⟨hstands, hinStep⟩ := id h
  rw [hpc] at hstands
  rw [go, hpc] at hstep
  simp only at hstep
  split_ifs at hstep with hsent
  · cases hstep
    exact ⟨hstands.1, hinStep⟩
  · cases hstep
    exact h

theorem go_arpRead {curCons : UInt16} {s' : Transmitter} (h : s.Inv) (hpc : s.pc = .arpRead curCons)
    (hstep : s.go = some s') : s'.Inv := by
  obtain ⟨hstands, hinStep⟩ := h
  rw [hpc] at hstands
  obtain ⟨⟨hempty, hasked⟩, rfl, hinit⟩ := hstands
  rw [go, hpc] at hstep
  cases hstep
  exact ⟨⟨⟨rfl, hasked⟩, rfl, hinit⟩, fun hi => absurd (hinit.symm.trans hi) (by decide)⟩

theorem go_arpReset {curCons : UInt16} {s' : Transmitter} (h : s.Inv)
    (hpc : s.pc = .arpReset curCons) (hstep : s.go = some s') : s'.Inv := by
  obtain ⟨hstands, hinStep⟩ := h
  rw [hpc] at hstands
  obtain ⟨hasks, rfl, hinit⟩ := hstands
  rw [go, hpc] at hstep
  cases hstep
  refine ⟨⟨hasks, rfl, hinit, ?_⟩, hinStep⟩
  simp only [TxRing.render, mask_low, Function.update_self]
  rfl

theorem go_arpArmed {curCons : UInt16} {s' : Transmitter} (h : s.Inv)
    (hpc : s.pc = .arpArmed curCons) (hstep : s.go = some s') : s'.Inv := by
  obtain ⟨hstands, hinStep⟩ := h
  rw [hpc] at hstands
  obtain ⟨hasks, rfl, hinit, hrender⟩ := hstands
  rw [go, hpc] at hstep
  cases hstep
  refine ⟨⟨.inr ⟨rfl, ?_⟩, hinit⟩, fun hi => absurd (hinit.symm.trans hi) (by decide)⟩
  exact hasks.2.trans (congrArg (s.sent ++ [·]) hrender.symm)

theorem go_arpWaiting {newProd : UInt16} {s' : Transmitter} (h : s.Inv)
    (hpc : s.pc = .arpWaiting newProd) (hstep : s.go = some s') : s'.Inv := by
  obtain ⟨hstands, hinStep⟩ := id h
  rw [hpc] at hstands
  rw [go, hpc] at hstep
  simp only at hstep
  split_ifs at hstep with hsent
  · cases hstep
    exact ⟨hstands.1, hinStep⟩
  · cases hstep
    exact h

theorem go_inv {s' : Transmitter} (h : s.Inv) (hstep : s.go = some s') : s'.Inv := by
  cases hpc : s.pc with
  | idle =>
    rw [go, hpc] at hstep
    cases hstep
  | copying frame i => exact go_copying h hpc hstep
  | armed => exact go_armed h hpc hstep
  | waiting prod => exact go_waiting h hpc hstep
  | arpRead curCons => exact go_arpRead h hpc hstep
  | arpReset curCons => exact go_arpReset h hpc hstep
  | arpArmed curCons => exact go_arpArmed h hpc hstep
  | arpWaiting newProd => exact go_arpWaiting h hpc hstep

theorem timeout_inv {s' : Transmitter} (h : s.Inv) (hstep : s.timeout = some s') : s'.Inv := by
  obtain ⟨hstands, hinStep⟩ := h
  unfold timeout at hstep
  split at hstep
  · next prod hpc =>
    rw [hpc] at hstands
    cases hstep
    exact ⟨hstands.1, hinStep⟩
  · next newProd hpc =>
    rw [hpc] at hstands
    cases hstep
    exact ⟨hstands.1, hinStep⟩
  · cases hstep

theorem step_inv {l : TxLabel} {s' : Transmitter} (h : s.Inv) (hok : s.Settled l)
    (hstep : s.step l = some s') : s'.Inv := by
  cases l with
  | hardware => exact hardware_inv h hstep
  | txFrame frame => exact txFrame_inv h hok hstep
  | sendArp => exact sendArp_inv h hok hstep
  | go => exact go_inv h hstep
  | timeout => exact timeout_inv h hstep

/-- Where the index is, at each place of a call, when every call so far has left it
at `PROD`. -/
def IndexStands (s : Transmitter) : TxPc → Prop
  | .idle => s.called = true → s.ring.InStep
  | .arpRead curCons => s.ring.gTxIndexSw % txDescs = (curCons + 1).toNat % txDescs
  | .arpReset curCons => s.ring.gTxIndexSw % txDescs = (curCons + 1).toNat % txDescs
  | .arpArmed curCons => s.ring.gTxIndexSw % txDescs = (curCons + 1).toNat % txDescs
  | .arpWaiting _ => s.ring.InStep
  | _ => True

theorem go_index {s' : Transmitter} (h : s.Inv) (hindex : s.IndexStands s.pc)
    (hstep : s.go = some s') : s'.IndexStands s'.pc := by
  obtain ⟨hstands, hinStep⟩ := h
  cases hpc : s.pc with
  | idle =>
    rw [go, hpc] at hstep
    cases hstep
  | copying frame i =>
    rw [go, hpc] at hstep
    simp only at hstep
    split_ifs at hstep <;> cases hstep <;> trivial
  | armed =>
    rw [go, hpc] at hstep
    cases hstep
    trivial
  | waiting prod =>
    rw [hpc] at hstands
    rw [go, hpc] at hstep
    simp only at hstep
    split_ifs at hstep <;> cases hstep
    · exact fun _ => hinStep hstands.2
    · rw [hpc]
      trivial
  | arpRead curCons =>
    rw [hpc] at hindex
    rw [go, hpc] at hstep
    cases hstep
    exact hindex
  | arpReset curCons =>
    rw [hpc] at hindex
    rw [go, hpc] at hstep
    cases hstep
    exact hindex
  | arpArmed curCons =>
    rw [hpc] at hindex
    rw [go, hpc] at hstep
    cases hstep
    exact hindex
  | arpWaiting newProd =>
    rw [hpc] at hindex
    rw [go, hpc] at hstep
    simp only at hstep
    split_ifs at hstep <;> cases hstep
    · exact fun _ => hindex
    · rw [hpc]
      exact hindex

theorem timeout_index {s' : Transmitter} (h : s.Inv) (hindex : s.IndexStands s.pc)
    (hstep : s.timeout = some s') : s'.IndexStands s'.pc := by
  obtain ⟨hstands, hinStep⟩ := h
  unfold timeout at hstep
  split at hstep
  · next prod hpc =>
    rw [hpc] at hstands
    cases hstep
    exact fun _ => hinStep hstands.2
  · next newProd hpc =>
    rw [hpc] at hindex
    cases hstep
    exact fun _ => hindex
  · cases hstep

theorem step_index {l : TxLabel} {s' : Transmitter} (h : s.Inv) (hindex : s.IndexStands s.pc)
    (hok : s.Indexed l) (hstep : s.step l = some s') : s'.IndexStands s'.pc := by
  cases l with
  | hardware =>
    simp only [step, hardware] at hstep
    split_ifs at hstep
    cases hstep
    cases hpc : s.pc <;> rw [hpc] at hindex <;> exact hindex
  | txFrame frame =>
    simp only [step, txFrame] at hstep
    split_ifs at hstep with hpc hlen
    · cases hstep
      trivial
    · cases hstep
      rw [not_not.mp hpc]
      exact fun _ => hok hlen
  | sendArp =>
    simp only [step, sendArp] at hstep
    split_ifs at hstep
    cases hstep
    exact hok
  | go => exact go_index h hindex hstep
  | timeout => exact timeout_index h hindex hstep

/-- In a settled run the hardware sends the frames of the calls in their order, and
the index stands with `PROD` once it is seeded; and from the first call on when no
call before that leaves it elsewhere. -/
theorem settled_sends (cons : UInt16) (descs : ℕ → TxDesc) (pool : ℕ → UInt8)
    (ls : List TxLabel) :
    (EachStep step Settled (start cons descs pool) ls →
      Always step (fun s => s.InOrder ∧ s.SeededInStep) (start cons descs pool) ls) ∧
    (EachStep step (fun s l => s.Settled l ∧ s.Indexed l) (start cons descs pool) ls →
      Always step (fun s => s.InOrder ∧ s.CalledInStep) (start cons descs pool) ls) := by
  constructor
  · exact always_of_eachStep Inv _ (fun s h => ⟨h.inOrder, fun _ => h.inStep⟩)
      (fun _ _ _ => step_inv) (start_inv cons descs pool)
  · refine always_of_eachStep (fun s => s.Inv ∧ s.IndexStands s.pc) _ ?_ ?_
      ⟨start_inv cons descs pool, nofun⟩
    · rintro s ⟨h, hindex⟩
      refine ⟨h.inOrder, fun hpc hcalled => ?_⟩
      rw [hpc] at hindex
      exact hindex hcalled
    · rintro s l s' ⟨h, hindex⟩ ⟨hsettled, hindexed⟩ hstep
      exact ⟨step_inv h hsettled hstep, step_index h hindex hindexed hstep⟩

/-- A call that times out, the next call, and then the hardware. -/
def lateFrames : List TxLabel :=
  [.txFrame [1], .go, .go, .go, .timeout, .txFrame [2], .go, .go, .go, .hardware, .hardware]

/-- The second frame goes out twice and the first one not at all. -/
theorem late_frame_overwritten :
    ¬ Always step (fun s => s.InOrder ∧ s.CalledInStep) (start 0 (fun _ => ⟨.arp, 0⟩) fun _ => 0)
      lateFrames := by
  intro halways
  have hend : (exec step (start 0 (fun _ => ⟨.arp, 0⟩) fun _ => 0) lateFrames).map
      (fun t => (t.sent, t.asked)) = some ([[2], [2]], [[1], [2]]) := by
    decide
  obtain ⟨t, hrun, hlists⟩ := Option.map_eq_some_iff.mp hend
  obtain ⟨hsent, hasked⟩ := Prod.mk.inj hlists
  have horder := (halways.of_exec hrun).1
  rw [InOrder, hsent, hasked] at horder
  exact absurd horder (by decide)

end Transmitter

end XinuRpi4.Genet
