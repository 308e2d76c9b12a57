import XinuRpi4.Foundation.DescriptorQueue

/-!
# The receive ring of the Ethernet controller

The hardware counts the frames it has written, the driver those it has given
back, in registers of sixteen bits. Descriptor `i` belongs to buffer `i` from
`genet_init_rx` on.
-/

namespace XinuRpi4.Genet

open XinuRpi4.Foundation

def rxRingDescs : ℕ := 256

/-- A frame that the hardware can receive. -/
structure RxFrame where
  bytes : List UInt8
  pos : 0 < bytes.length
  le : bytes.length ≤ 2048
deriving DecidableEq

structure RxRing where
  prodIndex : UInt16
  consIndex : UInt16
  lengthStatus : ℕ → UInt32
  rxBufs : ℕ → ℕ → UInt8
  gRxInited : Bool
  gRxCons : ℕ
  gRxPackets : UInt64
  gRxBytes : UInt64
  gRxOverruns : UInt64
  gRxRecoveries : UInt64

namespace RxRing

/-- The length and status word of a descriptor that the hardware may fill. -/
def armed : UInt32 := ((2048 : UInt32) <<< 16) ||| 0x8000

variable (g : RxRing)

/-- The frames that the driver has not given back fill the ring. -/
def Full : Prop := g.prodIndex - g.consIndex = 256

instance : Decidable g.Full := inferInstanceAs (Decidable (_ = _))

/-- The hardware writes a frame with some status bits; while the ring is full it
drops it. -/
def receive (f : RxFrame) (status : UInt16) : RxRing :=
  if g.Full then g
  else
    let slot := g.prodIndex.toNat % rxRingDescs
    { g with
      rxBufs := Function.update g.rxBufs slot fun j => f.bytes.getD j (g.rxBufs slot j)
      lengthStatus :=
        Function.update g.lengthStatus slot
          ((UInt32.ofNat f.bytes.length <<< 16) ||| status.toUInt32)
      prodIndex := g.prodIndex + 1 }

def genetInitRx : RxRing :=
  let gRxCons := g.prodIndex.toNat &&& 0xFF
  { g with
    rxBufs := fun i j => if i < rxRingDescs ∧ j < 32 then 0xAA else g.rxBufs i j
    lengthStatus := fun i => if i < rxRingDescs then armed else g.lengthStatus i
    consIndex := g.prodIndex
    gRxCons := if rxRingDescs ≤ gRxCons then gRxCons % rxRingDescs else gRxCons
    gRxInited := true }

def genetRxRecover : RxRing :=
  if g.gRxInited then
    { g with
      lengthStatus := fun i => if i < rxRingDescs then armed else g.lengthStatus i
      consIndex := g.prodIndex
      gRxCons := g.prodIndex.toNat % rxRingDescs
      gRxRecoveries := g.gRxRecoveries + 1 }
  else g

/-- The descriptor of the next frame and its length, if there is one. -/
def genetRxPoll : RxRing × Option (ℕ × ℕ) :=
  if g.gRxInited then
    if g.prodIndex = g.consIndex then (g, none)
    else if 256 < g.prodIndex - g.consIndex then
      (genetRxRecover { g with gRxOverruns := g.gRxOverruns + 1 }, none)
    else
      let length := (g.lengthStatus g.gRxCons >>> 16) &&& 0x0FFF
      ({ g with
          gRxPackets := g.gRxPackets + 1
          gRxBytes := g.gRxBytes + length.toUInt64 },
        some (g.gRxCons, length.toNat))
  else (g, none)

def genetRxRelease : RxRing :=
  if g.gRxInited then
    { g with
      lengthStatus := Function.update g.lengthStatus g.gRxCons armed
      consIndex := g.consIndex + 1
      gRxCons := (g.gRxCons + 1) % rxRingDescs }
  else g

/-- The length that the driver reads from a descriptor. -/
def lengthAt (i : ℕ) : ℕ := ((g.lengthStatus i >>> 16) &&& 0x0FFF).toNat

/-- The bytes that a handler is given. -/
def packet (i len : ℕ) : List UInt8 := (List.range len).map (g.rxBufs i)

end RxRing

/-- A frame and the descriptor that the hardware has written it to. -/
structure Arrival where
  slot : ℕ
  frame : RxFrame

namespace RxRing

/-- Descriptor and buffer hold the frame that arrived there. -/
def Holds (g : RxRing) (i : ℕ) (a : Arrival) : Prop :=
  i = a.slot ∧ g.packet i a.frame.bytes.length = a.frame.bytes ∧
    g.lengthAt i = a.frame.bytes.length

/-- The indices stand together, and the ring holds the frames that are not given
back yet. -/
structure Carries (g : RxRing) (queue : List Arrival) : Prop where
  inited : g.gRxInited = true
  cons : g.gRxCons = g.consIndex.toNat % rxRingDescs
  prod : g.prodIndex = g.consIndex + UInt16.ofNat queue.length
  room : queue.length ≤ rxRingDescs
  held : Queued rxRingDescs g.Holds g.consIndex.toNat queue

variable {g : RxRing} {queue : List Arrival} {a : Arrival}

/-- The length of a frame fits into its field whatever the status bits are. -/
theorem length_field {len : ℕ} (hlen : len ≤ 2048) (status : UInt16) :
    ((((UInt32.ofNat len <<< 16) ||| status.toUInt32) >>> 16) &&& 0x0FFF).toNat = len := by
  have hlow : status.toNat >>> 16 = 0 := by
    rw [Nat.shiftRight_eq_div_pow]
    exact Nat.div_eq_of_lt status.toNat_lt
  have hhigh : (len <<< 16) % 2 ^ 32 = len <<< 16 := by
    rw [Nat.shiftLeft_eq]
    omega
  have hmask : len &&& 0x0FFF = len := by
    rw [show 0x0FFF = 2 ^ 12 - 1 from rfl, Nat.and_two_pow_sub_one_eq_mod]
    omega
  have hword : (UInt32.ofNat len).toNat = len := by
    rw [UInt32.toNat_ofNat']
    omega
  simp only [UInt32.toNat_and, UInt32.toNat_shiftRight, UInt32.toNat_or, UInt32.toNat_shiftLeft,
    UInt16.toNat_toUInt32, hword, UInt32.reduceToNat, Nat.reduceMod, hhigh,
    Nat.shiftRight_or_distrib, hlow]
  simp [hmask]

namespace Carries

/-- The indices tell how many frames there are. -/
theorem avail_toNat (h : g.Carries queue) : (g.prodIndex - g.consIndex).toNat = queue.length := by
  have hroom : queue.length ≤ 256 := h.room
  have hcons := g.consIndex.toNat_lt
  rw [h.prod, UInt16.toNat_sub, UInt16.toNat_add, UInt16.toNat_ofNat']
  omega

theorem full_iff (h : g.Carries queue) : g.Full ↔ queue.length = rxRingDescs := by
  rw [Full, ← UInt16.toNat_inj, h.avail_toNat]
  rfl

theorem empty_iff (h : g.Carries queue) : g.prodIndex = g.consIndex ↔ queue = [] := by
  rw [← List.length_eq_zero_iff, ← h.avail_toNat, ← UInt16.toNat_inj, UInt16.toNat_sub]
  have hprod := g.prodIndex.toNat_lt
  have hcons := g.consIndex.toNat_lt
  omega

/-- The descriptor that the hardware writes next. -/
theorem next_slot (h : g.Carries queue) :
    g.prodIndex.toNat % rxRingDescs = (g.consIndex.toNat + queue.length) % rxRingDescs := by
  rw [h.prod, index_add_mod _ _ (by decide)]

/-- The hardware leaves the descriptors of frames that are not given back. -/
theorem next_slot_ne (h : g.Carries queue) (hfull : ¬ g.Full) (ha : a ∈ queue) :
    a.slot ≠ g.prodIndex.toNat % rxRingDescs := by
  obtain ⟨k, hk, rfl⟩ := List.mem_iff_getElem.mp ha
  have hroom : queue.length < rxRingDescs :=
    lt_of_le_of_ne h.room fun heq => hfull (h.full_iff.mpr heq)
  rw [h.next_slot, ← (h.held k _ (List.getElem?_eq_getElem hk)).1]
  exact Queued.slot_ne hk hroom

theorem holds_receive (f : RxFrame) (status : UInt16) (hfull : ¬ g.Full) :
    (g.receive f status).Holds (g.prodIndex.toNat % rxRingDescs)
      ⟨g.prodIndex.toNat % rxRingDescs, f⟩ := by
  refine ⟨rfl, ?_, ?_⟩
  · rw [receive, if_neg hfull]
    apply List.ext_getElem
    · simp [packet]
    · intro k hk hk'
      simp [packet, List.getD_eq_getElem?_getD, List.getElem?_eq_getElem hk']
  · rw [receive, if_neg hfull]
    simp only [lengthAt, Function.update_self]
    exact length_field f.le status

theorem holds_receive_of_ne (f : RxFrame) (status : UInt16) {i : ℕ} (hfull : ¬ g.Full)
    (hi : i ≠ g.prodIndex.toNat % rxRingDescs) (h : g.Holds i a) :
    (g.receive f status).Holds i a := by
  rw [receive, if_neg hfull]
  simpa [Holds, packet, lengthAt, hi] using h

/-- The hardware appends a frame. -/
theorem receive (h : g.Carries queue) (f : RxFrame) (status : UInt16) (hfull : ¬ g.Full) :
    (g.receive f status).Carries
      (queue ++ [⟨g.prodIndex.toNat % rxRingDescs, f⟩]) := by
  have hroom : queue.length < rxRingDescs :=
    lt_of_le_of_ne h.room fun heq => hfull (h.full_iff.mpr heq)
  have hcons : (g.receive f status).consIndex = g.consIndex := by
    rw [RxRing.receive, if_neg hfull]
  refine ⟨?_, ?_, ?_, ?_, ?_⟩
  · rw [RxRing.receive, if_neg hfull]
    exact h.inited
  · rw [RxRing.receive, if_neg hfull]
    exact h.cons
  · rw [hcons, RxRing.receive, if_neg hfull]
    simp only [h.prod, List.length_append, List.length_singleton]
    rw [UInt16.add_assoc, UInt16.ofNat_add]
    rfl
  · rw [List.length_append]
    exact hroom
  · rw [hcons]
    refine h.held.append hroom (fun i y hi hy => ?_) ?_
    · exact holds_receive_of_ne f status hfull (by rwa [h.next_slot]) hy
    · rw [← h.next_slot]
      exact holds_receive f status hfull

/-- A poll of an empty ring finds nothing. -/
theorem poll_nil (h : g.Carries []) : g.genetRxPoll = (g, none) := by
  rw [genetRxPoll, if_pos h.inited, if_pos (h.empty_iff.mpr rfl)]

/-- A poll finds the first frame. -/
theorem poll_cons (h : g.Carries (a :: queue)) :
    g.genetRxPoll.2 = some (a.slot, a.frame.bytes.length) := by
  have hne : g.prodIndex ≠ g.consIndex := by
    rw [Ne, h.empty_iff]
    exact List.cons_ne_nil a queue
  have hle : ¬ 256 < g.prodIndex - g.consIndex := by
    rw [UInt16.lt_iff_toNat_lt, h.avail_toNat]
    exact Nat.not_lt.mpr h.room
  obtain ⟨hslot, -, hlen⟩ := h.held.head
  rw [genetRxPoll, if_pos h.inited, if_neg hne, if_neg hle]
  rw [← h.cons] at hslot hlen
  exact congrArg some (Prod.ext hslot hlen)

/-- A poll changes counters only. -/
theorem poll (h : g.Carries queue) : g.genetRxPoll.1.Carries queue ∧
    g.genetRxPoll.1.gRxCons = g.gRxCons := by
  cases queue with
  | nil =>
    rw [h.poll_nil]
    exact ⟨h, rfl⟩
  | cons a queue =>
    have hne : g.prodIndex ≠ g.consIndex := by
      rw [Ne, h.empty_iff]
      exact List.cons_ne_nil a queue
    have hle : ¬ 256 < g.prodIndex - g.consIndex := by
      rw [UInt16.lt_iff_toNat_lt, h.avail_toNat]
      exact Nat.not_lt.mpr h.room
    rw [genetRxPoll, if_pos h.inited, if_neg hne, if_neg hle]
    exact ⟨⟨h.inited, h.cons, h.prod, h.room, h.held⟩, rfl⟩

/-- The driver gives the first descriptor back. -/
theorem release (h : g.Carries (a :: queue)) : g.genetRxRelease.Carries queue := by
  have hcons : (g.consIndex + 1).toNat % rxRingDescs = (g.consIndex.toNat + 1) % rxRingDescs :=
    index_succ_mod _ (by decide)
  have hlen : queue.length < rxRingDescs := h.room
  rw [genetRxRelease, if_pos h.inited]
  refine ⟨h.inited, ?_, ?_, hlen.le, ?_⟩
  · simp only [hcons, h.cons, Nat.mod_add_mod]
  · simp only [h.prod, List.length_cons]
    rw [UInt16.add_assoc, Nat.add_comm, UInt16.ofNat_add]
    rfl
  · refine Queued.congr (h.held.tail_keep hlen fun i y hi hy => ?_) hcons
    rw [← h.cons] at hi
    simpa [Holds, packet, lengthAt, hi] using hy

theorem init (g : RxRing) : g.genetInitRx.Carries [] where
  inited := rfl
  cons := by
    have hmask : g.prodIndex.toNat &&& 0xFF = g.prodIndex.toNat % 256 := by
      rw [show 0xFF = 2 ^ 8 - 1 from rfl, Nat.and_two_pow_sub_one_eq_mod]
    simp only [genetInitRx, hmask]
    rw [if_neg]
    · rfl
    · exact Nat.not_le.mpr (Nat.mod_lt _ (by decide))
  prod := (UInt16.add_zero _).symm
  room := Nat.zero_le _
  held := Queued.nil

/-- The ring is in order and empty after a recovery from any state. -/
theorem recover (h : g.gRxInited = true) : g.genetRxRecover.Carries [] := by
  rw [genetRxRecover, if_pos h]
  exact ⟨h, rfl, (UInt16.add_zero _).symm, Nat.zero_le _, Queued.nil⟩

end Carries

end RxRing

end XinuRpi4.Genet
