import XinuRpi4.Genet.ReceiveRing
import XinuRpi4.Foundation.Runs

/-!
# Delivery of received frames

The hardware and the network process in any order. Each frame that the hardware
accepts is handed to the protocol handlers once, in the order of arrival, and it
stays in its buffer until the process gives it back.
-/

namespace XinuRpi4.Genet

open XinuRpi4.Foundation

/-- Where the network process is in `genet_rx_tick`, with what is left of the
budget and the packet at hand. -/
inductive RxTickPc
  | idle
  | loop (budget : ℕ)
  | polled (budget idx len : ℕ)
  | handled (budget idx : ℕ)
deriving DecidableEq

/-- The loop goes on when the poll has returned a length. -/
def afterPoll (budget : ℕ) : Option (ℕ × ℕ) → RxTickPc
  | some (idx, len) => if 0 < len then .polled budget idx len else .idle
  | none => .idle

/-- The ring and the network process, with the frames given back, the frames
still in the ring, and what the handlers were given. -/
structure Receiver where
  ring : RxRing
  pc : RxTickPc
  released : List Arrival
  queue : List Arrival
  handed : List (List UInt8)

inductive RxLabel
  | hardware (f : RxFrame) (status : UInt16)
  | process
deriving DecidableEq

namespace Receiver

variable (s : Receiver)

def accepted : List Arrival := s.released ++ s.queue

/-- A frame comes in. -/
def hardware (f : RxFrame) (status : UInt16) : Receiver :=
  { s with
    ring := s.ring.receive f status
    queue :=
      if s.ring.Full then s.queue
      else s.queue ++ [⟨s.ring.prodIndex.toNat % rxRingDescs, f⟩] }

/-- `genet_rx_release`, by whatever process. -/
def release : Receiver :=
  { s with
    ring := s.ring.genetRxRelease
    released := s.released ++ s.queue.take 1
    queue := s.queue.drop 1 }

/-- The next piece of `genet_rx_tick`. -/
def process : Receiver :=
  match s.pc with
  | .idle => { s with pc := .loop 64 }
  | .loop 0 => { s with pc := .idle }
  | .loop (budget + 1) =>
    let (ring, found) := s.ring.genetRxPoll
    { s with ring := ring, pc := afterPoll budget found }
  | .polled budget idx len =>
    { s with pc := .handled budget idx, handed := s.handed ++ [s.ring.packet idx len] }
  | .handled budget _ => { s.release with pc := .loop budget }

def step : RxLabel → Option Receiver
  | .hardware f status => some (s.hardware f status)
  | .process => some s.process

/-- The network process before its first tick. -/
def start (ring : RxRing) : Receiver where
  ring := ring
  pc := .idle
  released := []
  queue := []
  handed := []

/-- What the handlers were given is what arrived, up to some frame, and every
frame given back is among it. -/
def InOrder : Prop :=
  s.handed <+: s.accepted.map (·.frame.bytes) ∧ s.released.map (·.frame.bytes) <+: s.handed

/-- The hardware writes no buffer and no descriptor of a frame in the ring. -/
def Untouched : RxLabel → Prop
  | .process => True
  | .hardware f status => ∀ a ∈ s.queue,
    (s.hardware f status).ring.rxBufs a.slot = s.ring.rxBufs a.slot ∧
      (s.hardware f status).ring.lengthStatus a.slot = s.ring.lengthStatus a.slot

/-- What the network process holds and has handed over. -/
def Stands : RxTickPc → Prop
  | .idle => s.handed = s.released.map (·.frame.bytes)
  | .loop _ => s.handed = s.released.map (·.frame.bytes)
  | .polled _ idx len => s.handed = s.released.map (·.frame.bytes) ∧
    ∃ a queue, s.queue = a :: queue ∧ idx = a.slot ∧ len = a.frame.bytes.length
  | .handled _ idx =>
    ∃ a queue, s.queue = a :: queue ∧ idx = a.slot ∧
      s.handed = (s.released ++ [a]).map (·.frame.bytes)

structure Inv : Prop where
  carries : s.ring.Carries s.queue
  stands : s.Stands s.pc

variable {s}

theorem start_inv {ring : RxRing} (h : ring.Carries []) : (start ring).Inv := ⟨h, rfl⟩

theorem Inv.inOrder (h : s.Inv) : s.InOrder := by
  have hprefix : s.released.map (·.frame.bytes) <+: s.accepted.map (·.frame.bytes) := by
    rw [accepted, List.map_append]
    exact List.prefix_append _ _
  have hstands := h.stands
  cases hpc : s.pc with
  | idle =>
    rw [hpc] at hstands
    exact ⟨hstands ▸ hprefix, hstands ▸ List.prefix_rfl⟩
  | loop budget =>
    rw [hpc] at hstands
    exact ⟨hstands ▸ hprefix, hstands ▸ List.prefix_rfl⟩
  | polled budget idx len =>
    rw [hpc] at hstands
    exact ⟨hstands.1 ▸ hprefix, hstands.1 ▸ List.prefix_rfl⟩
  | handled budget idx =>
    rw [hpc] at hstands
    obtain ⟨a, queue, hqueue, -, hhanded⟩ := hstands
    rw [InOrder, accepted, hqueue, hhanded]
    constructor
    · refine ⟨queue.map (·.frame.bytes), ?_⟩
      simp
    · rw [List.map_append]
      exact List.prefix_append _ _

theorem hardware_full (f : RxFrame) (status : UInt16) (hfull : s.ring.Full) :
    s.hardware f status = s := by
  rw [hardware, if_pos hfull, RxRing.receive, if_pos hfull]

theorem hardware_room (f : RxFrame) (status : UInt16) (hfull : ¬ s.ring.Full) :
    s.hardware f status =
      { s with
        ring := s.ring.receive f status
        queue := s.queue ++ [⟨s.ring.prodIndex.toNat % rxRingDescs, f⟩] } := by
  rw [hardware, if_neg hfull]

theorem hardware_inv (h : s.Inv) (f : RxFrame) (status : UInt16) : (s.hardware f status).Inv := by
  by_cases hfull : s.ring.Full
  · rw [hardware_full f status hfull]
    exact h
  · rw [hardware_room f status hfull]
    refine ⟨h.carries.receive f status hfull, ?_⟩
    have hstands := h.stands
    cases hpc : s.pc with
    | idle => simpa [Stands, hpc] using hstands
    | loop budget => simpa [Stands, hpc] using hstands
    | polled budget idx len =>
      rw [hpc] at hstands
      obtain ⟨hhanded, a, queue, hqueue, hidx⟩ := hstands
      exact ⟨hhanded, a, queue ++ _, by rw [hqueue]; rfl, hidx⟩
    | handled budget idx =>
      rw [hpc] at hstands
      obtain ⟨a, queue, hqueue, hidx⟩ := hstands
      exact ⟨a, queue ++ _, by rw [hqueue]; rfl, hidx⟩

theorem untouched (h : s.Inv) (l : RxLabel) : s.Untouched l := by
  cases l with
  | process => trivial
  | hardware f status =>
    intro a ha
    by_cases hfull : s.ring.Full
    · rw [hardware_full f status hfull]
      exact ⟨rfl, rfl⟩
    · have hne := h.carries.next_slot_ne hfull ha
      rw [hardware_room f status hfull, RxRing.receive, if_neg hfull]
      exact ⟨Function.update_of_ne hne _ _, Function.update_of_ne hne _ _⟩

section Process

variable {budget idx len : ℕ}

theorem process_idle (hpc : s.pc = .idle) : s.process = { s with pc := .loop 64 } := by
  rw [process, hpc]

theorem process_spent (hpc : s.pc = .loop 0) : s.process = { s with pc := .idle } := by
  rw [process, hpc]

theorem process_poll (hpc : s.pc = .loop (budget + 1)) :
    s.process =
      { s with ring := s.ring.genetRxPoll.1, pc := afterPoll budget s.ring.genetRxPoll.2 } := by
  rw [process, hpc]

theorem process_handle (hpc : s.pc = .polled budget idx len) :
    s.process =
      { s with
        pc := .handled budget idx
        handed := s.handed ++ [s.ring.packet idx len] } := by
  rw [process, hpc]

theorem process_release (hpc : s.pc = .handled budget idx) :
    s.process = { s.release with pc := .loop budget } := by
  rw [process, hpc]

end Process

/-- A poll takes the first frame in hand, or the tick ends. -/
theorem afterPoll_cases (hcarries : s.ring.Carries s.queue) (budget : ℕ) :
    (s.queue = [] ∧ afterPoll budget s.ring.genetRxPoll.2 = .idle) ∨
      ∃ a queue, s.queue = a :: queue ∧
        afterPoll budget s.ring.genetRxPoll.2 = .polled budget a.slot a.frame.bytes.length := by
  cases hqueue : s.queue with
  | nil =>
    rw [hqueue] at hcarries
    rw [hcarries.poll_nil]
    exact .inl ⟨rfl, rfl⟩
  | cons a queue =>
    rw [hqueue] at hcarries
    rw [hcarries.poll_cons]
    exact .inr ⟨a, queue, rfl, if_pos a.frame.pos⟩

/-- The handlers are given the frame that was polled. -/
theorem packet_eq (hcarries : s.ring.Carries s.queue) {a : Arrival} {queue : List Arrival}
    (hqueue : s.queue = a :: queue) :
    s.ring.packet a.slot a.frame.bytes.length = a.frame.bytes := by
  rw [hqueue] at hcarries
  obtain ⟨hslot, hpacket, -⟩ := hcarries.held.head
  rwa [hslot] at hpacket

theorem release_carries (hcarries : s.ring.Carries s.queue) {a : Arrival} {queue : List Arrival}
    (hqueue : s.queue = a :: queue) : s.release.ring.Carries s.release.queue := by
  rw [release, hqueue]
  rw [hqueue] at hcarries
  exact hcarries.release

theorem process_inv (h : s.Inv) : s.process.Inv := by
  obtain ⟨hcarries, hstands⟩ := h
  cases hpc : s.pc with
  | idle =>
    rw [hpc] at hstands
    rw [process_idle hpc]
    exact ⟨hcarries, hstands⟩
  | loop budget =>
    rw [hpc] at hstands
    cases budget with
    | zero =>
      rw [process_spent hpc]
      exact ⟨hcarries, hstands⟩
    | succ budget =>
      rw [process_poll hpc]
      refine ⟨hcarries.poll.1, ?_⟩
      rcases afterPoll_cases hcarries budget with ⟨-, hend⟩ | ⟨a, queue, hqueue, hpolled⟩
      · simp only [hend]
        exact hstands
      · simp only [hpolled]
        exact ⟨hstands, a, queue, hqueue, rfl, rfl⟩
  | polled budget idx len =>
    rw [hpc] at hstands
    obtain ⟨hhanded, a, queue, hqueue, rfl, rfl⟩ := hstands
    rw [process_handle hpc, packet_eq hcarries hqueue]
    refine ⟨hcarries, a, queue, hqueue, rfl, ?_⟩
    simp only [hhanded, List.map_append, List.map_cons, List.map_nil]
  | handled budget idx =>
    rw [hpc] at hstands
    obtain ⟨a, queue, hqueue, -, hhanded⟩ := hstands
    rw [process_release hpc]
    refine ⟨release_carries hcarries hqueue, ?_⟩
    simp only [Stands, release, hqueue]
    exact hhanded

theorem step_inv {l : RxLabel} {s' : Receiver} (h : s.Inv) (hstep : s.step l = some s') :
    s'.Inv := by
  cases l with
  | hardware f status =>
    cases hstep
    exact hardware_inv h f status
  | process =>
    cases hstep
    exact process_inv h

/-- How many pieces of the tick come before the next frame is handed over, when
there is one. -/
def turn : RxTickPc → ℕ
  | .polled _ _ _ => 1
  | .loop (_ + 1) => 2
  | .idle => 3
  | .loop 0 => 4
  | .handled _ _ => 5

/-- How many pieces of the tick come before the first `n` frames are handed over. -/
def distance (s : Receiver) (n : ℕ) : ℕ :=
  if n ≤ s.handed.length then 0 else 5 * (n - s.handed.length - 1) + turn s.pc

theorem distance_eq_zero {n : ℕ} : s.distance n = 0 ↔ n ≤ s.handed.length := by
  have hturn : 0 < turn s.pc := by
    cases s.pc with
    | loop budget => cases budget <;> exact Nat.succ_pos _
    | _ => exact Nat.succ_pos _
  unfold distance
  split_ifs with h
  · simp [h]
  · simp only [h, iff_false]
    omega

theorem distance_le (s : Receiver) (n : ℕ) : s.distance n ≤ 5 * (n - s.handed.length) := by
  have hturn : turn s.pc ≤ 5 := by
    cases s.pc with
    | loop budget => cases budget <;> simp [turn]
    | _ => simp [turn]
  unfold distance
  split_ifs with h
  · exact Nat.zero_le _
  · omega

theorem hardware_distance (s : Receiver) (f : RxFrame) (status : UInt16) (n : ℕ) :
    (s.hardware f status).distance n = s.distance n := rfl

/-- The process comes nearer to any frame that has arrived. -/
theorem process_distance (h : s.Inv) {n : ℕ} (hn : n ≤ s.accepted.length) :
    s.process.distance n ≤ s.distance n - 1 := by
  obtain ⟨hcarries, hstands⟩ := h
  cases hpc : s.pc with
  | idle =>
    rw [process_idle hpc]
    simp only [distance, hpc, turn]
    split_ifs <;> omega
  | loop budget =>
    rw [hpc] at hstands
    cases budget with
    | zero =>
      rw [process_spent hpc]
      simp only [distance, hpc, turn]
      split_ifs <;> omega
    | succ budget =>
      rw [process_poll hpc]
      simp only [distance, hpc]
      split_ifs with hdone
      · exact Nat.zero_le _
      rcases afterPoll_cases hcarries budget with ⟨hqueue, -⟩ | ⟨a, queue, -, hpolled⟩
      · -- an empty ring has no frame that is not handed over
        have hlen := congrArg List.length hstands
        simp only [List.length_map] at hlen
        simp only [accepted, hqueue, List.append_nil] at hn
        omega
      · simp only [hpolled, turn]
        omega
  | polled budget idx len =>
    rw [process_handle hpc]
    simp only [distance, hpc, turn, List.length_append, List.length_singleton]
    split_ifs <;> omega
  | handled budget idx =>
    rw [process_release hpc]
    cases budget <;> simp only [distance, hpc, turn, release] <;> split_ifs <;> omega

theorem process_accepted (s : Receiver) : s.process.accepted = s.accepted := by
  cases hpc : s.pc with
  | idle => rw [process_idle hpc, accepted, accepted]
  | loop budget =>
    cases budget with
    | zero => rw [process_spent hpc, accepted, accepted]
    | succ budget => rw [process_poll hpc, accepted, accepted]
  | polled budget idx len => rw [process_handle hpc, accepted, accepted]
  | handled budget idx =>
    rw [process_release hpc, accepted, accepted, release, List.append_assoc,
      List.take_append_drop]

theorem hardware_accepted (s : Receiver) (f : RxFrame) (status : UInt16) :
    s.accepted <+: (s.hardware f status).accepted := by
  by_cases hfull : s.ring.Full
  · rw [hardware_full f status hfull]
  · rw [hardware_room f status hfull]
    refine ⟨[⟨s.ring.prodIndex.toNat % rxRingDescs, f⟩], ?_⟩
    simp [accepted]

/-- Enough pieces of ticks, with frames coming in between them, hand over any
number of the frames that have arrived. -/
theorem handed_of_run {ls : List RxLabel} {t : Receiver} (h : s.Inv) {n : ℕ}
    (hn : n ≤ s.accepted.length) (hrun : exec step s ls = some t)
    (hcount : s.distance n ≤ ls.count .process) :
    t.Inv ∧ s.accepted <+: t.accepted ∧ n ≤ t.handed.length := by
  induction ls generalizing s with
  | nil =>
    cases hrun
    exact ⟨h, List.prefix_rfl, distance_eq_zero.mp (Nat.le_zero.mp hcount)⟩
  | cons l ls ih =>
    cases l with
    | hardware f status =>
      have haccepted := hardware_accepted s f status
      obtain ⟨ht, hkept, hhanded⟩ := ih (hardware_inv h f status)
        (hn.trans haccepted.length_le) hrun (by simpa [hardware_distance] using hcount)
      exact ⟨ht, haccepted.trans hkept, hhanded⟩
    | process =>
      have hnear := process_distance h hn
      rw [List.count_cons_self] at hcount
      obtain ⟨ht, hkept, hhanded⟩ := ih (process_inv h) (by rwa [process_accepted]) hrun
        (by omega)
      exact ⟨ht, process_accepted s ▸ hkept, hhanded⟩

/-- Every frame in the ring is handed over within five pieces of ticks for each. -/
theorem all_handed {ls : List RxLabel} {t : Receiver} (h : s.Inv)
    (hrun : exec step s ls = some t) (hcount : 5 * s.queue.length ≤ ls.count .process) :
    s.accepted.map (·.frame.bytes) <+: t.handed := by
  have hreleased : s.released.length ≤ s.handed.length := by
    simpa using h.inOrder.2.length_le
  have hdistance := s.distance_le s.accepted.length
  have hlen : s.accepted.length = s.released.length + s.queue.length := List.length_append
  obtain ⟨ht, hkept, hhanded⟩ := handed_of_run h le_rfl hrun (by omega)
  refine List.prefix_of_prefix_length_le (hkept.map _) ht.inOrder.1 ?_
  rwa [List.length_map]

theorem exec_inv {ls : List RxLabel} {t : Receiver} (h : s.Inv) (hrun : exec step s ls = some t) :
    t.Inv :=
  exec_invariant Inv (fun _ _ _ _ h hstep => step_inv h hstep) h hrun

/-- The indices stand together along a run, the frames are handed over in order
and from untouched buffers, and each one is handed over in time. -/
structure Delivers (s : Receiver) (ls : List RxLabel) : Prop where
  synchronised : Always step (fun s => s.ring.gRxCons = s.ring.consIndex.toNat % 256) s ls
  inOrder : Always step InOrder s ls
  untouched : EachStep step Untouched s ls
  prompt : ∀ ms ms' t u, ls = ms ++ ms' → exec step s ms = some t → exec step t ms' = some u →
    5 * t.queue.length ≤ ms'.count .process → t.accepted.map (·.frame.bytes) <+: u.handed

theorem Inv.always (h : s.Inv) {P : Receiver → Prop} (hP : ∀ s, s.Inv → P s)
    (ls : List RxLabel) : Always step P s ls :=
  always_of_invariant Inv P hP (fun _ _ _ h hstep => step_inv h hstep) h ls

theorem Inv.eachStep (h : s.Inv) (ls : List RxLabel) : EachStep step Untouched s ls := by
  induction ls generalizing s with
  | nil => trivial
  | cons l ls ih => exact ⟨Receiver.untouched h l, fun s' hstep => ih (step_inv h hstep)⟩

theorem Inv.delivers (h : s.Inv) (ls : List RxLabel) : s.Delivers ls where
  synchronised := h.always (fun _ h => h.carries.cons) ls
  inOrder := h.always (fun _ h => h.inOrder) ls
  untouched := h.eachStep ls
  prompt := by
    intro ms ms' t u _ hrun hrun' hcount
    exact all_handed (exec_inv h hrun) hrun' hcount

/-- Runs from the initialisation, and from a recovery in any state, which leaves
an empty ring. -/
theorem ring_delivers (ring : RxRing) :
    (∀ ls, (start ring.genetInitRx).Delivers ls) ∧
      (ring.gRxInited = true →
        ring.genetRxRecover.prodIndex = ring.genetRxRecover.consIndex ∧
          ∀ ls, (start ring.genetRxRecover).Delivers ls) := by
  refine ⟨fun ls => (start_inv (RxRing.Carries.init ring)).delivers ls, fun hinit => ?_⟩
  have hcarries := RxRing.Carries.recover hinit
  exact ⟨hcarries.empty_iff.mpr rfl, fun ls => (start_inv hcarries).delivers ls⟩

end Receiver

end XinuRpi4.Genet
