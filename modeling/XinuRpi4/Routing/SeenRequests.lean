import XinuRpi4.Routing.LoopFreedom

/-!
# The route requests a node has seen

`aodv_remember` writes a ring of eight entries, modulo its length; `aodv_seen`
reads up to a counter that goes on counting. While at most eight requests have
been remembered the reader stays inside the arrays, and later it does when the
request it looks for is among the last eight.
-/

namespace XinuRpi4.Routing

open XinuRpi4.Foundation

/-- The originator of a route request and its number. -/
abbrev RequestId := Ip4 × UInt16

namespace Packet

/-- A route request, as `aodv_ip_in` tells it from other packets. -/
def IsRequest (e : Packet) : Prop := e.proto = 17 ∧ e.dport = aodvPort ∧ e.p.kind = aodvRreq

instance (e : Packet) : Decidable e.IsRequest := inferInstanceAs (Decidable (_ ∧ _ ∧ _))

def request (e : Packet) : RequestId := (e.p.orig, e.p.rid)

end Packet

namespace Node

/-- The entry of the ring at an index inside the arrays. -/
def seenAt (n : Node) (i : Fin 8) : RequestId := (n.gSeenO i, n.gSeenId i)

/-- What `aodv_seen` compares with at an index. -/
def seenEntry (n : Node) (behind : ℕ → RequestId) (i : ℕ) : RequestId :=
  if h : i < 8 then n.seenAt ⟨i, h⟩ else behind i

/-- The indices `aodv_seen` reads at: the loop ends behind the first match. -/
def seenIndices (n : Node) (behind : ℕ → RequestId) (k : RequestId) : List ℕ :=
  (List.range n.gSeenN).take
    ((List.range n.gSeenN).findIdx (fun i => decide (n.seenEntry behind i = k)) + 1)

/-- The index `aodv_remember` writes at. There is none when `g_seen_n++` behind
the write overflows the `int`. -/
def rememberIndex (n : Node) : Option ℕ :=
  if n.gSeenN + 1 < 2 ^ 31 then some (n.gSeenN % 8) else none

end Node

/-- A node and all the requests it has remembered, the latest first. -/
structure SeenLog where
  node : Node
  remembered : List RequestId

inductive SeenEvent
  | discover (dst : Ip4)
  | receive (e : Packet) (w : Surroundings)
  | address (ip : Ip4)

namespace SeenLog

/-- A node with some address and routes that has not seen a request. -/
def start (n : Node) : SeenLog where
  node := { n with gSeenO := fun _ => 0, gSeenId := fun _ => 0, gSeenN := 0 }
  remembered := []

/-- The node starts a discovery, receives a packet or gets another address. -/
def step (s : SeenLog) : SeenEvent → Option SeenLog
  | .discover dst =>
    some { node := (s.node.aodvSendRreq dst).1
           remembered := (s.node.wifiIp, s.node.gRreqid + 1) :: s.remembered }
  | .receive e w =>
    some { node := (s.node.aodvIpIn w e).1
           remembered :=
             if e.IsRequest ∧ s.node.aodvSeen w.behind e.p.orig e.p.rid = false then
               e.request :: s.remembered
             else s.remembered }
  | .address ip => some { s with node := { s.node with wifiIp := ip } }

/-- The last eight requests that were remembered. -/
def lastEight (s : SeenLog) : List RequestId := s.remembered.take 8

/-- `aodv_remember` writes inside the arrays. -/
def Remembers (s : SeenLog) : Prop := ∃ i ∈ s.node.rememberIndex, i < 8

/-- A step uses indices inside the arrays only, tells the last eight requests
from all others, and does not answer or rebroadcast one of them again. -/
def Suppresses (s : SeenLog) : SeenEvent → Prop
  | .discover _ => s.Remembers
  | .receive e w => e.IsRequest →
      (∀ i ∈ s.node.seenIndices w.behind e.request, i < 8) ∧
      (s.node.aodvSeen w.behind e.p.orig e.p.rid = true ↔ e.request ∈ s.lastEight) ∧
      (s.node.aodvSeen w.behind e.p.orig e.p.rid = false → s.Remembers) ∧
      (e.request ∈ s.lastEight → (s.node.aodvIpIn w e).2 = ([], true))
  | .address _ => True

/-- A request that is received is among the last eight, or no more than eight
have been remembered; a discovery finds room in the counter. -/
def InBounds (s : SeenLog) : SeenEvent → Prop
  | .discover _ => s.remembered.length + 1 < 2 ^ 31
  | .receive e _ => e.IsRequest → e.request ∈ s.lastEight ∨ s.remembered.length ≤ 8
  | .address _ => True

instance (s : SeenLog) : Decidable s.Remembers :=
  decidable_of_iff (s.node.rememberIndex.any (· < 8)) (by simp [Remembers, Option.any_eq_true])

instance (s : SeenLog) (ev : SeenEvent) : Decidable (s.Suppresses ev) := by
  cases ev <;> simp only [Suppresses] <;> infer_instance

instance (s : SeenLog) (ev : SeenEvent) : Decidable (s.InBounds ev) := by
  cases ev <;> simp only [InBounds] <;> infer_instance

/-- The counter counts the requests, and the last eight of them stand in the
ring, each at its number modulo eight. -/
structure Kept (s : SeenLog) : Prop where
  count : s.node.gSeenN = s.remembered.length
  last : ∀ j < 8, ∀ k, s.remembered[j]? = some k →
    s.node.seenAt (Fin.ofNat 8 (s.remembered.length - 1 - j)) = k

end SeenLog

namespace Node

variable {n n' : Node} {behind : ℕ → RequestId} {o : Ip4} {id : UInt16}

/-- The ring of seen requests with its counter. -/
def seenRing (n : Node) : (Fin 8 → RequestId) × ℕ := (n.seenAt, n.gSeenN)

@[simp] theorem learn_seenRing (n : Node) (d : Ip4) (e : Packet) :
    (n.learn d e).seenRing = n.seenRing := rfl

@[simp] theorem aodvReply_seenRing (n : Node) (w : Surroundings) (e : Packet) :
    (n.aodvReply w e).1.seenRing = n.seenRing := rfl

theorem aodvSeen_eq_any (n : Node) (behind : ℕ → RequestId) (o : Ip4) (id : UInt16) :
    n.aodvSeen behind o id =
      (List.range n.gSeenN).any fun i => decide (n.seenEntry behind i = (o, id)) := by
  unfold aodvSeen
  refine List.any_congr rfl fun i => ?_
  change (decide ((n.seenEntry behind i).2 = id) && decide ((n.seenEntry behind i).1 = o)) = _
  simp [Prod.ext_iff, Bool.and_comm]

theorem aodvSeen_iff (n : Node) (behind : ℕ → RequestId) (o : Ip4) (id : UInt16) :
    n.aodvSeen behind o id = true ↔ ∃ i < n.gSeenN, n.seenEntry behind i = (o, id) := by
  simp [aodvSeen_eq_any]

/-- What receiving a packet does to the ring. -/
theorem aodvIpIn_seenRing (n : Node) (w : Surroundings) (e : Packet) :
    (n.aodvIpIn w e).1.seenRing =
      if e.IsRequest ∧ n.aodvSeen w.behind e.p.orig e.p.rid = false then
        (n.aodvRemember e.p.orig e.p.rid).seenRing
      else n.seenRing := by
  unfold aodvIpIn
  by_cases hreq : e.IsRequest
  · have hnew := hreq
    obtain ⟨hproto, hport, hkind⟩ := hreq
    cases n.aodvSeen w.behind e.p.orig e.p.rid with
    | true => simp [hproto, hport, hkind]
    | false =>
      simp only [hproto, hport, hkind, hnew, ne_eq, not_true_eq_false, if_true, if_false,
        Bool.false_eq_true, and_self]
      split_ifs <;> rfl
  · have hkind : e.proto = 17 → e.dport = aodvPort → e.p.kind ≠ aodvRreq :=
      fun h h' hk => hreq ⟨h, h', hk⟩
    simp only [hreq, false_and, if_false]
    by_cases hproto : e.proto = 17
    · by_cases hport : e.dport = aodvPort
      · simp only [hproto, hport, hkind hproto hport, if_true, if_false, ne_eq, not_true_eq_false]
        split_ifs
        · rfl
        · split <;> rfl
        · split <;> rfl
        · rfl
      · simp [hproto, hport]
    · simp only [hproto, if_false]
      split_ifs
      · split <;> rfl
      · split <;> rfl
      · rfl

/-- A request that was seen is dropped. -/
theorem aodvIpIn_of_seen {w : Surroundings} {e : Packet} (hreq : e.IsRequest)
    (hseen : n.aodvSeen w.behind e.p.orig e.p.rid = true) : (n.aodvIpIn w e).2 = ([], true) := by
  obtain ⟨hproto, hport, hkind⟩ := hreq
  simp [aodvIpIn, hproto, hport, hkind, hseen]

end Node

namespace SeenLog

variable {s s' : SeenLog} {n n' : Node} {k : RequestId} {ks : List RequestId}

theorem Kept.congr (h : Kept ⟨n, ks⟩) (hring : n'.seenRing = n.seenRing) : Kept ⟨n', ks⟩ := by
  obtain ⟨hat, hcount⟩ := Prod.mk.inj hring
  refine ⟨hcount.trans h.count, fun j hj k hk => ?_⟩
  change n'.seenAt _ = k
  rw [hat]
  exact h.last j hj k hk

theorem aodvRemember_seenAt (n : Node) (o : Ip4) (id : UInt16) (i : Fin 8) :
    (n.aodvRemember o id).seenAt i =
      if i = Fin.ofNat 8 n.gSeenN then (o, id) else n.seenAt i := by
  by_cases hi : i = Fin.ofNat 8 n.gSeenN
  · subst hi
    simp [Node.seenAt, Node.aodvRemember, Fin.ofNat]
  · have hne : i ≠ ⟨n.gSeenN % 8, Nat.mod_lt _ (by decide)⟩ := hi
    rw [if_neg hi]
    simp [Node.seenAt, Node.aodvRemember, hne]

/-- The entry that is written is that of the request eight before. -/
theorem Kept.remember (h : Kept ⟨n, ks⟩) (o : Ip4) (id : UInt16) :
    Kept ⟨n.aodvRemember o id, (o, id) :: ks⟩ := by
  have hcount : n.gSeenN = ks.length := h.count
  refine ⟨by simp [Node.aodvRemember, hcount], fun j hj k hk => ?_⟩
  rw [aodvRemember_seenAt, hcount]
  cases j with
  | zero => simpa using hk
  | succ j =>
    have hj' : j < ks.length := by simpa using (List.getElem?_eq_some_iff.mp hk).1
    have hne : Fin.ofNat 8 (((o, id) :: ks).length - 1 - (j + 1)) ≠ Fin.ofNat 8 ks.length := by
      intro he
      have := congrArg Fin.val he
      simp only [Fin.val_ofNat, List.length_cons] at this
      omega
    rw [if_neg hne]
    have hold := h.last j (by omega) k hk
    rwa [show ((o, id) :: ks).length - 1 - (j + 1) = ks.length - 1 - j by
      simp only [List.length_cons]
      omega]

theorem start_kept (n : Node) : (start n).Kept where
  count := rfl
  last := by simp [start]

theorem Kept.step {ev : SeenEvent} (h : s.Kept) (hstep : s.step ev = some s') : s'.Kept := by
  cases ev with
  | discover dst =>
    cases hstep
    have hsent : Kept ⟨{ s.node with gRreqid := s.node.gRreqid + 1, gMyseq := s.node.gMyseq + 1 },
      s.remembered⟩ := h.congr rfl
    exact hsent.remember _ _
  | receive e w =>
    cases hstep
    have hring := s.node.aodvIpIn_seenRing w e
    by_cases hnew : e.IsRequest ∧ s.node.aodvSeen w.behind e.p.orig e.p.rid = false
    · rw [if_pos hnew] at hring
      rw [if_pos hnew]
      exact (Kept.remember h e.p.orig e.p.rid).congr hring
    · rw [if_neg hnew] at hring
      rw [if_neg hnew]
      exact Kept.congr h hring
  | address ip =>
    cases hstep
    exact Kept.congr h rfl

/-- Inside the arrays the reader finds the last eight requests. -/
theorem Kept.mem_lastEight_iff (h : s.Kept) :
    k ∈ s.lastEight ↔ ∃ i : Fin 8, i.val < s.remembered.length ∧ s.node.seenAt i = k := by
  unfold lastEight
  rw [List.mem_take_iff_getElem]
  constructor
  · rintro ⟨j, hj, rfl⟩
    have hlt : j < s.remembered.length := by omega
    refine ⟨Fin.ofNat 8 (s.remembered.length - 1 - j), ?_, ?_⟩
    · have := Nat.mod_le (s.remembered.length - 1 - j) 8
      simp only [Fin.val_ofNat]
      omega
    · exact h.last j (by omega) _ (List.getElem?_eq_getElem hlt)
  · rintro ⟨i, hi, rfl⟩
    -- the number below the length that is congruent to `i` and at most seven short of it
    obtain ⟨j, hj⟩ : ∃ j, j = (s.remembered.length - 1 - i.val) % 8 := ⟨_, rfl⟩
    have hlt : j < min 8 s.remembered.length := by
      have := Nat.mod_le (s.remembered.length - 1 - i.val) 8
      omega
    have hlast := h.last j (by omega) _ (List.getElem?_eq_getElem (by omega))
    have hindex : Fin.ofNat 8 (s.remembered.length - 1 - j) = i := by
      apply Fin.ext
      simp only [Fin.val_ofNat]
      have := i.isLt
      omega
    exact ⟨j, hlt, by rw [← hlast, hindex]⟩

theorem mem_seenIndices {n : Node} {behind : ℕ → RequestId} {i : ℕ}
    (h : i ∈ n.seenIndices behind k) : i < n.gSeenN :=
  List.mem_range.mp (List.mem_of_mem_take h)

/-- The reader does not go behind an entry that matches. -/
theorem le_of_mem_seenIndices {n : Node} {behind : ℕ → RequestId} {i m : ℕ}
    (hm : m < n.gSeenN) (hentry : n.seenEntry behind m = k) (h : i ∈ n.seenIndices behind k) :
    i ≤ m := by
  unfold Node.seenIndices at h
  rw [List.take_range, List.mem_range] at h
  have hfirst : (List.range n.gSeenN).findIdx (fun i => decide (n.seenEntry behind i = k)) ≤ m := by
    by_contra hlt
    have := List.not_of_lt_findIdx (not_le.mp hlt)
    simp [hentry] at this
  omega

/-- It reads on while no entry matches. -/
theorem mem_seenIndices_of_forall {n : Node} {behind : ℕ → RequestId} {i : ℕ}
    (hi : i < n.gSeenN) (hno : ∀ m < i, n.seenEntry behind m ≠ k) :
    i ∈ n.seenIndices behind k := by
  unfold Node.seenIndices
  rw [List.take_range, List.mem_range]
  have hfirst : i ≤ (List.range n.gSeenN).findIdx (fun i => decide (n.seenEntry behind i = k)) := by
    by_contra hlt
    have hidx := not_le.mp hlt
    have hmem : (List.range n.gSeenN).findIdx (fun i => decide (n.seenEntry behind i = k)) <
        (List.range n.gSeenN).length := by
      simpa using hidx.trans hi
    have := List.findIdx_getElem (w := hmem)
    simp only [List.getElem_range, decide_eq_true_eq] at this
    exact hno _ hidx this
  omega

/-- The reader stays inside the arrays exactly when it finds what it looks for
there or the counter has not passed them. -/
theorem Kept.seenIndices_lt_iff (h : s.Kept) (behind : ℕ → RequestId) :
    (∀ i ∈ s.node.seenIndices behind k, i < 8) ↔
      k ∈ s.lastEight ∨ s.remembered.length ≤ 8 := by
  constructor
  · intro hlt
    by_contra hno
    obtain ⟨habsent, hlong⟩ := not_or.mp hno
    have hread : 8 ∈ s.node.seenIndices behind k := by
      refine mem_seenIndices_of_forall (by rw [h.count]; omega) fun m hm hentry => habsent ?_
      refine h.mem_lastEight_iff.mpr ⟨⟨m, hm⟩, by change m < _; omega, ?_⟩
      simpa [Node.seenEntry, hm] using hentry
    exact absurd (hlt 8 hread) (by decide)
  · rintro (hmem | hshort) i hi
    · obtain ⟨m, hm, hentry⟩ := h.mem_lastEight_iff.mp hmem
      have hle : i ≤ m := by
        refine le_of_mem_seenIndices (by rw [h.count]; exact hm) ?_ hi
        simpa [Node.seenEntry] using hentry
      have := m.isLt
      omega
    · have := mem_seenIndices hi
      rw [h.count] at this
      omega

/-- There `aodv_seen` answers yes for the last eight requests only. -/
theorem Kept.aodvSeen_iff (h : s.Kept) (behind : ℕ → RequestId) {o : Ip4} {id : UInt16}
    (hin : (o, id) ∈ s.lastEight ∨ s.remembered.length ≤ 8) :
    s.node.aodvSeen behind o id = true ↔ (o, id) ∈ s.lastEight := by
  rw [Node.aodvSeen_iff]
  constructor
  · rintro ⟨i, hi, hentry⟩
    rcases hin with hmem | hshort
    · exact hmem
    · rw [h.count] at hi
      have hi8 : i < 8 := by omega
      refine h.mem_lastEight_iff.mpr ⟨⟨i, hi8⟩, hi, ?_⟩
      simpa [Node.seenEntry, hi8] using hentry
  · intro hmem
    obtain ⟨i, hi, hentry⟩ := h.mem_lastEight_iff.mp hmem
    exact ⟨i, by rw [h.count]; exact hi, by simpa [Node.seenEntry] using hentry⟩

theorem Kept.remembers_iff (h : s.Kept) : s.Remembers ↔ s.remembered.length + 1 < 2 ^ 31 := by
  unfold Remembers Node.rememberIndex
  rw [h.count]
  by_cases hfit : s.remembered.length + 1 < 2 ^ 31
  · rw [if_pos hfit]
    exact iff_of_true ⟨_, rfl, Nat.mod_lt _ (by decide)⟩ hfit
  · rw [if_neg hfit]
    refine iff_of_false ?_ hfit
    rintro ⟨i, hi, _⟩
    cases hi

theorem Kept.suppresses_iff (h : s.Kept) (ev : SeenEvent) : s.Suppresses ev ↔ s.InBounds ev := by
  cases ev with
  | discover dst => exact h.remembers_iff
  | address ip => exact Iff.rfl
  | receive e w =>
    refine forall_congr' fun hreq => ?_
    rw [h.seenIndices_lt_iff]
    constructor
    · exact fun hsup => hsup.1
    · intro hin
      have hseen := h.aodvSeen_iff w.behind hin
      refine ⟨hin, hseen, fun hno => h.remembers_iff.mpr ?_, fun hmem => ?_⟩
      · rcases hin with hmem | hshort
        · rw [hseen.mpr hmem] at hno
          cases hno
        · omega
      · exact Node.aodvIpIn_of_seen hreq (hseen.mpr hmem)

/-- Duplicate suppression over a run of a node: it works in every step exactly
when every step finds the ring in bounds. -/
theorem duplicates_suppressed_iff (n : Node) (evs : List SeenEvent) :
    EachStep step Suppresses (start n) evs ↔ EachStep step InBounds (start n) evs :=
  eachStep_congr Kept (fun _ _ _ => Kept.step) (fun _ ev h => h.suppresses_iff ev) (start_kept n)

end SeenLog

/-- A request of the node 10.0.0.9 for 10.0.0.2. -/
def tenthRequest (id : UInt8) : SeenEvent :=
  .receive ⟨![10, 0, 0, 9], ![255, 255, 255, 255], 17, aodvPort,
      ![1, id, 0, 10, 0, 0, 9, 10, 0, 0, 2, 1, 0, 0, 0, 0]⟩
    { behind := fun _ => (0, 0), resolved := true, stack₁ := 0, stack₂ := 0 }

/-- Nine requests fill the ring and push its counter past it; the tenth, which
is new, is looked for behind the arrays. -/
theorem tenth_request_read_behind :
    ¬ EachStep SeenLog.step SeenLog.Suppresses (SeenLog.start (pair.start.node 0))
      ([1, 2, 3, 4, 5, 6, 7, 8, 9, 10].map tenthRequest) := by
  decide

end XinuRpi4.Routing
