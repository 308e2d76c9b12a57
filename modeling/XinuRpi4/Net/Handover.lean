import XinuRpi4.Net.StreamReassembly

/-!
# The hand-over of requests to the worker

A connection hands its request over at most once. What is handed over is what
the connection received, and it is complete, unless the completeness test has
looked at bytes that an earlier connection left in the slot, or more bytes were
acknowledged than the buffer holds.
-/

namespace XinuRpi4.Net

open XinuRpi4.Foundation

/-- The bytes before the first NUL. -/
def beforeNul (l : List UInt8) : List UInt8 := l.takeWhile (· != 0)

/-- The worker gets all that the connection has received, and it is a complete
request. -/
def Handover.Good (h : Handover) : Prop :=
  h.copied = h.received ∧ requestComplete (beforeNul h.copied) h.copied.length = true

theorem cString_eq {buf : ℕ → UInt8} {n fuel pos : ℕ} (hn : buf n = 0) (hpos : pos ≤ n)
    (hfuel : n < pos + fuel) :
    cString buf fuel pos =
      beforeNul ((List.range (n - pos)).map fun k => buf (pos + k)) := by
  induction fuel generalizing pos with
  | zero => omega
  | succ fuel ih =>
    obtain rfl | hlt := eq_or_lt_of_le hpos
    · simp [cString, hn, beforeNul]
    · have hrange : n - pos = (n - (pos + 1)) + 1 := by omega
      by_cases hz : buf pos = 0
      · simp [cString, hz, hrange, List.range_succ_eq_map, beforeNul]
      · simp only [cString, hz, if_false]
        rw [ih hlt (by omega), hrange, List.range_succ_eq_map, beforeNul, beforeNul]
        simp [hz, Function.comp_def, Nat.add_assoc, Nat.add_comm 1]

namespace TcpConn

variable {c : TcpConn}

theorem Holds.httpreqlen_lt (h : c.Holds) : c.httpreqlen < reqCap := by
  have hlen := h.length
  have : 0 < reqCap := by decide
  omega

/-- The mailbox gets the accepted bytes that are stored. -/
theorem Holds.copied (h : c.Holds) :
    (List.range (min c.httpreqlen (reqCap - 1))).map c.httpreq = c.received.take (reqCap - 1) := by
  have hlt := h.httpreqlen_lt
  rw [Nat.min_eq_left (by omega), h.stored]

theorem Holds.request (h : c.Holds) (hpos : 0 < c.httpreqlen) :
    c.request = beforeNul (c.received.take (reqCap - 1)) := by
  have hlt := h.httpreqlen_lt
  rw [TcpConn.request, cString_eq (h.ended hpos) (Nat.zero_le _) (by omega), ← h.stored]
  simp

/-- A hand-over of a request that passes the test is good exactly when bytes
were received and no more than fit. -/
theorem Holds.good_iff (h : c.Holds) (hcomplete : c.complete = true) :
    Handover.Good { inc := c.inc, copied := c.received.take (reqCap - 1), received := c.received } ↔
      c.received ≠ [] ∧ c.received.length ≤ reqCap - 1 := by
  have hlen := h.length
  constructor
  · rintro ⟨hall, hc⟩
    refine ⟨?_, ?_⟩
    · rintro hnil
      simp [hnil, beforeNul, requestComplete_nil] at hc
    · have := congrArg List.length hall
      simp only [List.length_take] at this
      omega
  · rintro ⟨hne, hle⟩
    have hpos : 0 < c.received.length := List.length_pos_of_ne_nil hne
    refine ⟨List.take_of_length_le hle, ?_⟩
    have hcap : 0 < reqCap - 1 := by decide
    unfold TcpConn.complete at hcomplete
    rw [h.request (by omega)] at hcomplete
    rw [List.length_take, min_comm, ← hlen]
    exact hcomplete

/-- The data is looked at together with bytes of this connection, and not with
more than fit. -/
def CleanData (c : TcpConn) (seg : Segment) : Prop :=
  (c.received = [] → seg.seq.toUInt64 ≠ c.peerSeq → c.complete = false) ∧
    (reqCap - 1 < (c.accept seg).received.length → (c.accept seg).complete = false)

theorem cleanData_iff {seg : Segment} (hdata : seg.data ≠ []) : c.CleanData seg ↔
    ((c.accept seg).complete = true →
      (c.accept seg).received ≠ [] ∧ (c.accept seg).received.length ≤ reqCap - 1) := by
  by_cases hseq : seg.seq.toUInt64 = c.peerSeq
  · have hne : (c.accept seg).received ≠ [] := by simp [accept, hseq, append, hdata]
    cases hc : (c.accept seg).complete <;> simp [CleanData, hseq, hne, hc]
  · have hsame : c.accept seg = c := by simp [accept, hseq]
    cases hc : c.complete <;> simp [CleanData, hsame, hseq, hc]

end TcpConn

namespace Tcp

/-- The connection whose request is handed over behind a flush. -/
def nextPending (s : Tcp) : Option (Fin nconn) :=
  Fin.find? fun i => s.pending i && decide (s.gAppConnIdx ≠ some i)

end Tcp

/-- A segment with data for an idle worker is looked at with bytes of its own
connection that fit the buffer, and so is a request that has waited. -/
def Clean (cfg : Config) (s : Tcp) : TcpEvent → Prop
  | .rx f => ∀ seg i, decode cfg f = some seg → s.findConn seg.ip seg.port = some i →
      (s.conns i).state = .established → seg.has flagRst = false → seg.data ≠ [] →
      s.appState = .idle → (s.conns i).CleanData seg
  | .flush => s.appState = .done → ∀ i, s.nextPending = some i →
      (s.conns i).received.length ≤ reqCap - 1
  | _ => True

namespace Tcp

variable {cfg : Config} {s s' : Tcp} {e : TcpEvent}

def SlotsHold (s : Tcp) : Prop := ∀ i, (s.conns i).state.free = false → (s.conns i).Holds

def AllGood (s : Tcp) : Prop := ∀ h ∈ s.handovers, h.Good

/-- What handing over the request of slot `i` adds to the log. -/
theorem queueToApp_good {i : Fin nconn} (hs : s.AllGood) (hh : (s.conns i).Holds)
    (hcomplete : (s.conns i).complete = true) :
    (s.queueToApp i).AllGood ↔
      (s.conns i).received ≠ [] ∧ (s.conns i).received.length ≤ reqCap - 1 := by
  rw [← hh.good_iff hcomplete]
  simp only [AllGood, queueToApp, List.forall_mem_append, List.forall_mem_singleton, hh.copied]
  exact and_iff_right hs

theorem handleSegment_good (hs : s.AllGood) (hh : s.SlotsHold) {seg : Segment}
    (hlen : seg.data.length < 2 ^ 16) :
    (s.handleSegment seg).AllGood ↔ ∀ i, s.findConn seg.ip seg.port = some i →
      (s.conns i).state = .established → seg.has flagRst = false → seg.data ≠ [] →
      s.appState = .idle → (s.conns i).CleanData seg := by
  obtain ⟨hfind, h⟩ | ⟨hfind, j, _, h⟩ | ⟨j, hfind, ⟨h, hnot⟩ | ⟨hidle, hready, h⟩⟩ :=
    handleSegment_cases s seg
  · rw [h]
    simp [hfind, hs]
  · rw [h]
    have hopen : (s.openConn j seg).AllGood := hs
    simp [hfind, hopen]
  · rw [h]
    have hset : (s.setConn j ((s.conns j).onSegment seg).conn
        ((s.conns j).onSegment seg).out).AllGood := hs
    refine iff_of_true hset ?_
    rintro i hi hstate hrst hdata hidle
    obtain rfl : j = i := by simpa [hfind] using hi
    rw [TcpConn.cleanData_iff hdata]
    intro hcomplete
    have := (TcpConn.onSegment_ready_iff _ seg).mpr ⟨hstate, hrst, hdata, hcomplete⟩
    simp [hnot hidle] at this
  · obtain ⟨hstate, hrst, hdata, hcomplete⟩ := (TcpConn.onSegment_ready_iff _ seg).mp hready
    have hconn := TcpConn.onSegment_ready hready
    have hholds := (hh j (by simp [hstate, TcpState.free])).accept hstate hlen
    have hgood := queueToApp_good (i := j)
      (s := s.setConn j ((s.conns j).accept seg) ((s.conns j).onSegment seg).out) hs
      (by rwa [setConn_self]) (by rwa [setConn_self])
    rw [h, hconn, hgood, setConn_self]
    constructor
    · rintro hgood i hi _ _ _ _
      obtain rfl : j = i := by simpa [hfind] using hi
      exact (TcpConn.cleanData_iff hdata).mpr fun _ => hgood
    · intro hclean
      exact (TcpConn.cleanData_iff hdata).mp (hclean j hfind hstate hrst hdata hidle) hcomplete

@[simp] theorem respond_handovers : s.respond.handovers = s.handovers := by
  unfold respond
  split
  · dsimp only
    split_ifs <;> rfl
  · rfl

/-- The server between the response and the draining. -/
def responded (s : Tcp) : Tcp := { s.respond with gAppConnIdx := none, appState := .idle }

theorem responded_pending (i : Fin nconn) :
    s.responded.pending i = (s.pending i && decide (s.gAppConnIdx ≠ some i)) := by
  have hconns : s.responded.conns = s.respond.conns := rfl
  obtain ⟨hnot, hsame⟩ | ⟨j, hidx, hstate, hresp⟩ := respond_conns s
  · by_cases hi : s.gAppConnIdx = some i
    · simp [pending, hconns, hsame, hnot i hi]
    · simp [pending, hconns, hsame, hi]
  · by_cases hij : i = j
    · subst hij
      simp [pending, hconns, hresp, hidx, TcpConn.sendLast]
    · simp [pending, hconns, hresp, hidx, hij, Ne.symm hij]

theorem tcpAppFlush_eq (hdone : s.appState = .done) :
    s.tcpAppFlush = match s.nextPending with
      | some i => s.responded.queueToApp i
      | none => s.responded := by
  have hfind : Fin.find? s.responded.pending = s.nextPending := by
    unfold nextPending
    congr 1
    funext i
    exact responded_pending i
  have hidle : s.responded.appState = .idle := rfl
  simp only [tcpAppFlush, hdone, if_true]
  change s.responded.drainPendingToApp = _
  cases hnext : s.nextPending with
  | none => simp only [drainPendingToApp, if_pos hidle, hfind, hnext]
  | some i => simp only [drainPendingToApp, if_pos hidle, hfind, hnext]

theorem nextPending_some {i : Fin nconn} (h : s.nextPending = some i) :
    s.pending i = true ∧ s.gAppConnIdx ≠ some i := by
  have := (Fin.find?_eq_some_iff.mp h).1
  simpa using this

/-- A slot that waits is not the one that is answered. -/
theorem responded_conns_of_ne {i : Fin nconn} (h : s.gAppConnIdx ≠ some i) :
    s.responded.conns i = s.conns i := by
  have hconns : s.responded.conns = s.respond.conns := rfl
  obtain ⟨_, hsame⟩ | ⟨j, hidx, _, hresp⟩ := respond_conns s
  · rw [hconns, hsame]
  · have hij : i ≠ j := by
      rintro rfl
      exact h hidx
    rw [hconns, hresp, Function.update_of_ne hij]

theorem tcpAppFlush_good (hs : s.AllGood) (hh : s.SlotsHold) :
    s.tcpAppFlush.AllGood ↔ Clean cfg s .flush := by
  by_cases hdone : s.appState = .done
  · have hresp : s.responded.AllGood := by
      intro h hm
      exact hs h (by simpa [responded] using hm)
    rw [tcpAppFlush_eq hdone]
    cases hnext : s.nextPending with
    | none => simp [Clean, hnext, hresp]
    | some i =>
      obtain ⟨hpend, hidx⟩ := nextPending_some hnext
      obtain ⟨hstate, hpos, hcomplete⟩ := pending_iff.mp hpend
      have hconn := responded_conns_of_ne hidx
      have hholds := hh i (by simp [hstate, TcpState.free])
      have hne : (s.conns i).received ≠ [] := by
        intro hnil
        have := hholds.length
        simp [hnil] at this
        omega
      have hgood := queueToApp_good (i := i) hresp (by rwa [hconn]) (by rwa [hconn])
      simp only
      rw [hgood, hconn]
      simp [Clean, hdone, hnext, hne]
  · simp [tcpAppFlush, Clean, hdone, hs]

/-- Whose request has been handed over. A connection that is still established
after its hand-over is the one the worker is busy with. -/
structure HandedOver (s : Tcp) : Prop where
  known : ∀ i, (s.conns i).state.free = false → (s.conns i).inc ≤ s.gSynSeen
  distinct : ∀ i j, (s.conns i).state.free = false → (s.conns j).state.free = false →
    (s.conns i).inc = (s.conns j).inc → i = j
  logged : ∀ n ∈ s.handovers.map Handover.inc, n ≤ s.gSynSeen
  fresh : ∀ i, (s.conns i).state = .synRcvd → (s.conns i).inc ∉ s.handovers.map Handover.inc
  busy : ∀ i, (s.conns i).state = .established →
    (s.conns i).inc ∈ s.handovers.map Handover.inc →
      s.appState ≠ .idle ∧ s.gAppConnIdx = some i
  once : (s.handovers.map Handover.inc).Nodup

/-- What a slot may become without being opened or handed over. -/
structure Ages (c c' : TcpConn) : Prop where
  used : c'.state.free = false → c.state.free = false ∧ c'.inc = c.inc
  fresh : c'.state = .synRcvd → c.state = .synRcvd
  established : c'.state = .established → c.state = .synRcvd ∨ c.state = .established
  grown : c.received <+: c'.received

theorem ages_refl (c : TcpConn) : Ages c c :=
  ⟨fun h => ⟨h, rfl⟩, id, Or.inr, List.prefix_rfl⟩

theorem ages_of_change {c c' : TcpConn} {seg : Segment} (hc : c.Change seg c')
    (hfree : c.state.free = false) : Ages c c' := by
  have haccept : (c.accept seg).inc = c.inc := by
    unfold TcpConn.accept
    split_ifs <;> rfl
  have hgrown : c.received <+: (c.accept seg).received := by
    unfold TcpConn.accept
    split_ifs
    · exact List.prefix_append _ _
    · exact List.prefix_rfl
  cases hc with
  | kept => exact ages_refl c
  | establish hstate _ =>
    exact ⟨fun _ => ⟨hfree, rfl⟩, fun h => by simp at h, fun _ => Or.inl hstate, List.prefix_rfl⟩
  | data hstate _ =>
    have hsame := TcpConn.accept_state c seg
    exact ⟨fun _ => ⟨hfree, haccept⟩, fun h => by rwa [hsame] at h, fun _ => Or.inr hstate,
      hgrown⟩
  | refuse hstate _ =>
    exact ⟨fun _ => ⟨hfree, haccept⟩, fun h => by simp [TcpConn.sendLast] at h,
      fun h => by simp [TcpConn.sendLast] at h, hgrown⟩
  | fin hstate =>
    exact ⟨fun _ => ⟨hfree, rfl⟩, fun h => by simp [TcpConn.onFin] at h,
      fun h => by simp [TcpConn.onFin] at h, List.prefix_rfl⟩
  | drop q =>
    exact ⟨fun h => by simp [TcpState.free] at h, fun h => by simp at h, fun h => by simp at h,
      List.prefix_rfl⟩

/-- Slots age, and the mailbox stays as it is. -/
theorem HandedOver.age (hs : s.HandedOver) (hages : ∀ i, Ages (s.conns i) (s'.conns i))
    (hsyn : s'.gSynSeen = s.gSynSeen) (hlog : s'.handovers = s.handovers)
    (hbox : ∀ i, (s'.conns i).state = .established → s.appState ≠ .idle →
      s.gAppConnIdx = some i → s'.appState ≠ .idle ∧ s'.gAppConnIdx = some i) :
    s'.HandedOver where
  known i hi := by
    obtain ⟨hold, hinc⟩ := (hages i).used hi
    rw [hinc, hsyn]
    exact hs.known i hold
  distinct i j hi hj heq := by
    obtain ⟨hold, hinc⟩ := (hages i).used hi
    obtain ⟨hold', hinc'⟩ := (hages j).used hj
    exact hs.distinct i j hold hold' (by rw [← hinc, ← hinc', heq])
  logged n hn := by
    rw [hlog] at hn
    rw [hsyn]
    exact hs.logged n hn
  fresh i hi := by
    obtain ⟨_, hinc⟩ := (hages i).used (by rw [hi]; rfl)
    rw [hinc, hlog]
    exact hs.fresh i ((hages i).fresh hi)
  busy i hi hin := by
    obtain ⟨_, hinc⟩ := (hages i).used (by rw [hi]; rfl)
    rw [hinc, hlog] at hin
    obtain hfresh | hest := (hages i).established hi
    · exact absurd hin (hs.fresh i hfresh)
    · obtain ⟨hidle, hidx⟩ := hs.busy i hest hin
      exact hbox i hi hidle hidx
  once := by
    rw [hlog]
    exact hs.once

/-- A request of an established connection is handed over to the idle worker. -/
theorem HandedOver.queue (hs : s.HandedOver) {i : Fin nconn}
    (hstate : (s.conns i).state = .established) (hidle : s.appState = .idle) :
    (s.queueToApp i).HandedOver := by
  have hfree : ∀ j, (s.conns j).state = .established → (s.conns j).state.free = false := by
    intro j hj
    rw [hj]
    rfl
  have hnew : (s.conns i).inc ∉ s.handovers.map Handover.inc := by
    intro hin
    exact (hs.busy i hstate hin).1 hidle
  have hlog : (s.queueToApp i).handovers.map Handover.inc =
      s.handovers.map Handover.inc ++ [(s.conns i).inc] := by
    simp [queueToApp]
  constructor
  · exact hs.known
  · exact hs.distinct
  · intro n hn
    rw [hlog] at hn
    rcases List.mem_append.mp hn with hn | hn
    · exact hs.logged n hn
    · obtain rfl := List.mem_singleton.mp hn
      exact hs.known i (hfree i hstate)
  · intro j hj hin
    rw [hlog] at hin
    rcases List.mem_append.mp hin with hin | hin
    · exact hs.fresh j hj hin
    · have hji := hs.distinct j i (by rw [show (s.conns j).state = .synRcvd from hj]; rfl)
        (hfree i hstate) (List.mem_singleton.mp hin)
      subst hji
      simp [queueToApp, hstate] at hj
  · intro j hj hin
    rw [hlog] at hin
    rcases List.mem_append.mp hin with hin | hin
    · exact absurd hidle (hs.busy j hj hin).1
    · have hji := hs.distinct j i (hfree j hj) (hfree i hstate) (List.mem_singleton.mp hin)
      subst hji
      exact ⟨by simp [queueToApp], rfl⟩
  · rw [hlog]
    exact List.nodup_append.mpr ⟨hs.once, List.nodup_singleton _, by
      intro a ha b hb
      obtain rfl := List.mem_singleton.mp hb
      rintro rfl
      exact hnew ha⟩

/-- A SYN opens a slot under a new number. -/
theorem HandedOver.openConn (hs : s.HandedOver) {i : Fin nconn}
    (hfree : (s.conns i).state.free = true) (seg : Segment) : (s.openConn i seg).HandedOver := by
  have hself := openConn_self (s := s) i seg
  have hrest : ∀ j, j ≠ i → (s.openConn i seg).conns j = s.conns j :=
    fun j hj => openConn_of_ne hj seg
  have hinc : ((s.openConn i seg).conns i).inc = s.gSynSeen + 1 := by
    rw [hself]
    rfl
  have hsyn : (s.openConn i seg).gSynSeen = s.gSynSeen + 1 := rfl
  have hlog : (s.openConn i seg).handovers = s.handovers := rfl
  constructor
  · intro j hj
    by_cases hji : j = i
    · subst hji
      rw [hinc, hsyn]
    · rw [hrest j hji] at hj ⊢
      rw [hsyn]
      exact (hs.known j hj).trans (Nat.le_succ _)
  · intro j k hj hk heq
    by_cases hji : j = i <;> by_cases hki : k = i
    · rw [hji, hki]
    · subst hji
      rw [hrest k hki] at hk heq
      have := hs.known k hk
      omega
    · subst hki
      rw [hrest j hji] at hj heq
      have := hs.known j hj
      omega
    · rw [hrest j hji] at hj heq
      rw [hrest k hki] at hk heq
      exact hs.distinct j k hj hk heq
  · intro n hn
    exact (hs.logged n (by rwa [hlog] at hn)).trans (Nat.le_succ _)
  · intro j hj hin
    rw [hlog] at hin
    by_cases hji : j = i
    · subst hji
      have := hs.logged _ hin
      omega
    · rw [hrest j hji] at hj hin
      exact hs.fresh j hj hin
  · intro j hj hin
    rw [hlog] at hin
    by_cases hji : j = i
    · subst hji
      rw [hself] at hj
      simp [TcpConn.opened] at hj
    · rw [hrest j hji] at hj hin
      exact hs.busy j hj hin
  · exact hs.once

theorem ages_setConn {i : Fin nconn} {c : TcpConn} (hc : Ages (s.conns i) c) (out : List Tx)
    (j : Fin nconn) : Ages (s.conns j) ((s.setConn i c out).conns j) := by
  by_cases hj : j = i
  · subst hj
    rwa [setConn_self]
  · rw [setConn_of_ne hj]
    exact ages_refl _

theorem handleSegment_handedOver (hs : s.HandedOver) (seg : Segment) :
    (s.handleSegment seg).HandedOver := by
  obtain ⟨_, h⟩ | ⟨_, j, hfree, h⟩ | ⟨j, hfind, ⟨h, _⟩ | ⟨hidle, hready, h⟩⟩ :=
    handleSegment_cases s seg
  · rwa [h]
  · rw [h]
    exact hs.openConn hfree seg
  all_goals
    have hages := ages_of_change (TcpConn.onSegment_change (s.conns j) seg) (findConn_some hfind).1
    have hset : (s.setConn j ((s.conns j).onSegment seg).conn
        ((s.conns j).onSegment seg).out).HandedOver :=
      hs.age (ages_setConn hages _) rfl rfl fun i _ hidle hidx => ⟨hidle, hidx⟩
  · rwa [h]
  · rw [h]
    have hstate := ((TcpConn.onSegment_ready_iff _ seg).mp hready).1
    refine hset.queue ?_ hidle
    rw [setConn_self, TcpConn.onSegment_ready hready, TcpConn.accept_state, hstate]

@[simp] theorem responded_gSynSeen : s.responded.gSynSeen = s.gSynSeen := by
  simp only [responded, respond]
  split
  · split_ifs <;> rfl
  · rfl

theorem responded_ages (s : Tcp) (j : Fin nconn) : Ages (s.conns j) (s.responded.conns j) := by
  have hconns : s.responded.conns = s.respond.conns := rfl
  obtain ⟨_, hsame⟩ | ⟨k, _, hstate, hresp⟩ := respond_conns s
  · rw [hconns, hsame]
    exact ages_refl _
  · rw [hconns, hresp]
    by_cases hjk : j = k
    · subst hjk
      rw [Function.update_self]
      refine ⟨fun _ => ⟨by rw [hstate]; rfl, rfl⟩, ?_, ?_, List.prefix_rfl⟩ <;>
        intro h <;> simp [TcpConn.sendLast] at h
    · rw [Function.update_of_ne hjk]
      exact ages_refl _

theorem responded_handedOver (hs : s.HandedOver) : s.responded.HandedOver := by
  have hconns : s.responded.conns = s.respond.conns := rfl
  refine hs.age (responded_ages s) responded_gSynSeen (respond_handovers (s := s)) ?_
  -- the slot of the mailbox is no longer established
  intro i hi _ hidx
  obtain ⟨hnot, hsame⟩ | ⟨k, hidx', hstate, hresp⟩ := respond_conns s
  · rw [hconns, hsame] at hi
    exact absurd hi (hnot i hidx)
  · obtain rfl : i = k := by
      rw [hidx] at hidx'
      exact Option.some.inj hidx'
    rw [hconns, hresp, Function.update_self] at hi
    simp [TcpConn.sendLast] at hi

theorem tcpAppFlush_handedOver (hs : s.HandedOver) : s.tcpAppFlush.HandedOver := by
  by_cases hdone : s.appState = .done
  · rw [tcpAppFlush_eq hdone]
    cases hnext : s.nextPending with
    | none => exact responded_handedOver hs
    | some i =>
      obtain ⟨hpend, hidx⟩ := nextPending_some hnext
      refine (responded_handedOver hs).queue ?_ rfl
      rw [responded_conns_of_ne hidx]
      exact (pending_iff.mp hpend).1
  · simpa [tcpAppFlush, hdone] using hs

theorem step_good (hs : s.AllGood) (hh : s.SlotsHold) (hstep : s.step cfg e = some s') :
    s'.AllGood ↔ Clean cfg s e := by
  cases e with
  | rx f =>
    obtain rfl := Option.some.inj hstep
    simp only [tcpHandlePacket, Clean]
    cases hdec : decode cfg f with
    | none => exact ⟨fun _ seg _ hseg => by simp at hseg, fun _ => hs⟩
    | some seg =>
      simp only [handleSegment_good hs hh (decode_length hdec)]
      constructor
      · rintro hclean _ i ⟨⟩
        exact hclean i
      · intro hall i
        exact hall seg i rfl
  | workBegin =>
    obtain rfl := Option.some.inj hstep
    have : s.workBegin.handovers = s.handovers := by
      unfold workBegin
      split_ifs <;> rfl
    simpa [Clean, AllGood, this] using hs
  | workEnd resp =>
    obtain rfl := Option.some.inj hstep
    have : (s.workEnd resp).handovers = s.handovers := by
      unfold workEnd
      split_ifs <;> rfl
    simpa [Clean, AllGood, this] using hs
  | flush =>
    obtain rfl := Option.some.inj hstep
    exact tcpAppFlush_good hs hh

theorem step_handedOver (hs : s.HandedOver) (hstep : s.step cfg e = some s') :
    s'.HandedOver := by
  cases e with
  | rx f =>
    obtain rfl := Option.some.inj hstep
    unfold tcpHandlePacket
    split
    · exact handleSegment_handedOver hs _
    · exact hs
  | workBegin =>
    obtain rfl := Option.some.inj hstep
    unfold workBegin
    split_ifs
    · exact hs.age (fun i => ages_refl _) rfl rfl fun i _ _ hidx => ⟨by simp, hidx⟩
    · exact hs
  | workEnd resp =>
    obtain rfl := Option.some.inj hstep
    unfold workEnd
    split_ifs
    · exact hs.age (fun i => ages_refl _) rfl rfl fun i _ _ hidx => ⟨by simp, hidx⟩
    · exact hs
  | flush =>
    obtain rfl := Option.some.inj hstep
    exact tcpAppFlush_handedOver hs

theorem handedOver_start : Tcp.start.HandedOver where
  known i hi := by simp [Tcp.start, TcpState.free] at hi
  distinct i j hi := by simp [Tcp.start, TcpState.free] at hi
  logged := by simp [Tcp.start]
  fresh := by simp [Tcp.start]
  busy := by simp [Tcp.start]
  once := by simp [Tcp.start]

end Tcp

/-- In a run every hand-over gives the worker what its connection has received,
a complete request, and no connection hands over twice, exactly when every step
of the run is clean. -/
theorem handovers_good_iff (cfg : Config) (es : List TcpEvent) :
    Always (Tcp.step cfg)
        (fun s => (∀ h ∈ s.handovers, h.copied = h.received ∧
          requestComplete (beforeNul h.copied) h.copied.length = true) ∧
          (s.handovers.map Handover.inc).Nodup) Tcp.start es ↔
      EachStep (Tcp.step cfg) (Clean cfg) Tcp.start es := by
  refine always_iff_eachStep (fun s => s.SlotsHold ∧ s.HandedOver ∧ s.AllGood) _ ?_ ?_ ?_ ?_
    (Tcp.exec_isSome cfg _ es)
  · rintro s ⟨_, hlog, hgood⟩
    exact ⟨hgood, hlog.once⟩
  · rintro s e s' ⟨hh, hlog, hgood⟩ hok hstep
    exact ⟨Tcp.step_holds hh hstep, Tcp.step_handedOver hlog hstep,
      (Tcp.step_good hgood hh hstep).mpr hok⟩
  · rintro s e s' ⟨hh, _, hgood⟩ hbad hstep h
    exact hbad ((Tcp.step_good hgood hh hstep).mp h.1)
  · refine ⟨?_, Tcp.handedOver_start, by simp [Tcp.AllGood, Tcp.start]⟩
    intro i hi
    simp [Tcp.start, TcpState.free] at hi

/-- `GET / HTTP/1.0`, answered with `OK`; then a second connection in the same
slot, whose first segment to arrive is not in order. -/
def staleRun : List TcpEvent :=
  [fromPeer 100 0 flagSyn [], fromPeer 101 0xDEADBEF0 flagAck [],
    fromPeer 101 0xDEADBEF0 flagAck
      [71, 69, 84, 32, 47, 32, 72, 84, 84, 80, 47, 49, 46, 48, 13, 10, 13, 10],
    .workBegin, .workEnd [79, 75], .flush,
    fromPeer 119 0xDEADBEF3 (flagFin ||| flagAck) [],
    fromPeer 200 0 flagSyn [], fromPeer 201 0xDEADBFF0 flagAck [],
    fromPeer 301 0xDEADBFF0 flagAck [120]]

/-- The second connection has an empty request handed over. -/
theorem stale_request_handed_over :
    ∃ s, exec (Tcp.step server) Tcp.start staleRun = some s ∧
      ∃ h ∈ s.handovers, h.inc = 2 ∧ h.copied = [] ∧
        requestComplete (beforeNul h.copied) h.copied.length = false := by
  have hrun := Option.some_get (Tcp.exec_isSome server Tcp.start staleRun)
  exact ⟨_, hrun.symm, by decide +kernel⟩

end XinuRpi4.Net
