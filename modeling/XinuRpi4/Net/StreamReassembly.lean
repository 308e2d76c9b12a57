import XinuRpi4.Net.TcpSteps

/-!
# Reassembly of the request stream

What a slot holds of its peer's stream: the accepted bytes as far as the buffer
reaches, a NUL behind them, and in `peer_seq` the position that comes next. All
this is about one slot and the segments of its peer; the other slots do not
come in.
-/

namespace XinuRpi4.Net

open XinuRpi4.Foundation

/-- What a slot in use holds of the bytes it has accepted. -/
structure TcpConn.Holds (c : TcpConn) : Prop where
  stored : (List.range c.httpreqlen).map c.httpreq = c.received.take (reqCap - 1)
  ended : 0 < c.httpreqlen → c.httpreq c.httpreqlen = 0
  fresh : c.state = .synRcvd → c.received = []
  next : c.state ≠ .lastAck → c.peerSeq.toNat = c.isn.toNat + 1 + c.received.length
  last : c.state = .lastAck → ∃ q, c.finSeq = some q ∧ c.peerSeq.toNat = q.toNat + 1

namespace TcpConn

variable {c : TcpConn} {seg : Segment}

theorem Holds.length (h : c.Holds) : c.httpreqlen = min c.received.length (reqCap - 1) := by
  have := congrArg List.length h.stored
  simpa [min_comm] using this

theorem seq_add (q : UInt32) {n : ℕ} (hn : n < 2 ^ 32) :
    (q.toUInt64 + UInt64.ofNat n).toNat = q.toNat + n := by
  have hq := q.toNat_lt
  rw [UInt64.toNat_add, UInt64.toNat_ofNat', UInt32.toNat_toUInt64]
  omega

theorem range_map_getD (l : List UInt8) (n : ℕ) (hn : n ≤ l.length) :
    (List.range n).map (fun k => l.getD k 0) = l.take n := by
  apply List.ext_getElem (by simpa using hn)
  intro k hk _
  have hkn : k < n := by simpa using hk
  simp [hkn.trans_le hn]

theorem opened_holds (seg : Segment) (seed : UInt64) (inc : ℕ) (m : UInt64) :
    ({ c.opened seg seed inc with mySeq := m }).Holds where
  stored := by simp [opened]
  ended h := absurd h (lt_irrefl 0)
  fresh _ := rfl
  next _ := by
    have := seq_add seg.seq (n := 1) (by decide)
    simpa [opened] using this
  last h := by simp [opened] at h

theorem Holds.append (h : c.Holds) (hstate : c.state = .established)
    (hseq : seg.seq.toUInt64 = c.peerSeq) (hlen : seg.data.length < 2 ^ 16) :
    (c.append seg).Holds where
  stored := by
    have hstored := h.stored
    have hlen' := h.length
    simp only [TcpConn.append]
    generalize reqCap - 1 = cap at hstored hlen' ⊢
    have hkeep : (List.range c.httpreqlen).map (fun k =>
        if k < c.httpreqlen then c.httpreq k
        else if k < c.httpreqlen + min seg.data.length (cap - c.httpreqlen) then
          seg.data.getD (k - c.httpreqlen) 0
        else if k = c.httpreqlen + min seg.data.length (cap - c.httpreqlen) then 0
        else c.httpreq k) = (List.range c.httpreqlen).map c.httpreq := by
      apply List.map_congr_left
      intro k hk
      simp [List.mem_range.mp hk]
    have htake : seg.data.take (min seg.data.length (cap - c.httpreqlen)) =
        seg.data.take (cap - c.received.length) := by
      rw [List.take_eq_take_iff]
      omega
    rw [List.range_add, List.map_append, hkeep, hstored, List.take_append, ← htake,
      List.map_map, ← range_map_getD seg.data _ (min_le_left _ _)]
    congr 1
    apply List.map_congr_left
    intro k hk
    simp [List.mem_range.mp hk]
  ended := by
    intro _
    simp [TcpConn.append]
  fresh hs := by simp [TcpConn.append, hstate] at hs
  next _ := by
    have hnext := h.next (by simp [hstate])
    have hq : c.peerSeq.toNat = seg.seq.toNat := by simp [← hseq]
    simp only [TcpConn.append, List.length_append]
    rw [seq_add _ (by omega)]
    omega
  last hs := by simp [TcpConn.append, hstate] at hs

theorem Holds.accept (h : c.Holds) (hstate : c.state = .established)
    (hlen : seg.data.length < 2 ^ 16) : (c.accept seg).Holds := by
  unfold TcpConn.accept
  split_ifs with hseq
  · exact h.append hstate hseq hlen
  · exact h

theorem accept_state (c : TcpConn) (seg : Segment) : (c.accept seg).state = c.state := by
  unfold accept
  split_ifs <;> rfl

/-- A slot that sends its FIN keeps what it holds. -/
theorem Holds.sendLast (h : c.Holds) (hstate : c.state = .established) (payload : List UInt8) :
    (c.sendLast payload).1.Holds where
  stored := h.stored
  ended := h.ended
  fresh hs := by simp [TcpConn.sendLast] at hs
  next _ := h.next (by simp [hstate])
  last hs := by simp [TcpConn.sendLast] at hs

/-- The step lemma of one slot. -/
theorem Holds.change (h : c.Holds) (hlen : seg.data.length < 2 ^ 16) {c' : TcpConn}
    (hc : c.Change seg c') (hfree : c'.state.free = false) : c'.Holds := by
  cases hc with
  | kept => exact h
  | establish hstate hack =>
    have hnil := h.fresh hstate
    exact
      { stored := by simp [hnil]
        ended := fun hpos => absurd hpos (lt_irrefl 0)
        fresh := fun hs => by simp at hs
        next := fun _ => h.next (by simp [hstate])
        last := fun hs => by simp at hs }
  | data hstate hne => exact h.accept hstate hlen
  | refuse hstate hne =>
    exact (h.accept hstate hlen).sendLast ((accept_state c seg).trans hstate) refusal
  | fin hstate =>
    exact
      { stored := h.stored
        ended := h.ended
        fresh := fun hs => by simp [onFin] at hs
        next := fun hs => by simp [onFin] at hs
        last := fun _ => ⟨seg.seq, rfl, seq_add seg.seq (n := 1) (by decide)⟩ }
  | drop q => simp [TcpState.free] at hfree

/-- The accepted bytes are the first ones of the stream. -/
def Follows (stream : ℕ → ℕ → UInt8) (c : TcpConn) : Prop :=
  c.received = (List.range c.received.length).map (stream c.inc)

/-- The segment carries a piece of the stream, at the place its sequence number
says, and not 4 GiB or more ahead of what has been accepted. -/
def Carries (stream : ℕ → ℕ → UInt8) (c : TcpConn) (seg : Segment) : Prop :=
  ∃ o, seg.seq.toNat = (c.isn.toNat + 1 + o) % 2 ^ 32 ∧ o < c.received.length + 2 ^ 32 ∧
    seg.data = (List.range seg.data.length).map fun k => stream c.inc (o + k)

theorem Follows.accept {stream : ℕ → ℕ → UInt8} (hf : c.Follows stream) (h : c.Holds)
    (hstate : c.state = .established) (hseg : Carries stream c seg) :
    (c.accept seg).Follows stream := by
  unfold TcpConn.accept
  split_ifs with hseq
  · obtain ⟨o, ho, hfar, hdata⟩ := hseg
    -- in order means at the end of what has been accepted
    have hnext := h.next (by simp [hstate])
    have hq : c.peerSeq.toNat = seg.seq.toNat := by simp [← hseq]
    have hlt := seg.seq.toNat_lt
    have hoff : o = c.received.length := by omega
    subst hoff
    simp only [Follows, TcpConn.append, List.length_append, List.range_add, List.map_append,
      List.map_map]
    rw [← hf]
    congr 1
  · exact hf

theorem Holds.stored_at {stream : ℕ → ℕ → UInt8} (h : c.Holds) (hf : c.Follows stream) {k : ℕ}
    (hk : k < c.httpreqlen) : c.httpreq k = stream c.inc k := by
  have hlen := h.length
  have hstored : c.httpreq k = (c.received.take (reqCap - 1)).getD k 0 := by
    rw [← h.stored]
    simp [List.getElem?_range hk]
  rw [hstored, hf]
  have hkr : k < c.received.length := by omega
  have hkc : k < reqCap - 1 := by omega
  simp [List.getElem?_range hkr, hkc]

theorem Follows.change {stream : ℕ → ℕ → UInt8} (hf : c.Follows stream) (h : c.Holds)
    (hseg : seg.data ≠ [] → Carries stream c seg) {c' : TcpConn} (hc : c.Change seg c') :
    c'.Follows stream := by
  cases hc with
  | kept => exact hf
  | establish => exact hf
  | data hstate hne => exact hf.accept h hstate (hseg hne)
  | refuse hstate hne => exact hf.accept h hstate (hseg hne)
  | fin => exact hf
  | drop => exact hf

end TcpConn

/-- The peer of the slot sends pieces of one stream, that of the number of its connection. -/
def WellFormed (cfg : Config) (stream : ℕ → ℕ → UInt8) (i : Fin nconn) (s : Tcp) : TcpEvent → Prop
  | .rx f => ∀ seg, decode cfg f = some seg → s.findConn seg.ip seg.port = some i →
      seg.data ≠ [] → (s.conns i).Carries stream seg
  | _ => True

theorem decode_length {cfg : Config} {f : Frame} {seg : Segment} (h : decode cfg f = some seg) :
    seg.data.length < 2 ^ 16 := by
  unfold decode at h
  dsimp only at h
  split_ifs at h
  obtain rfl := Option.some.inj h
  have := (be16 f.bytes 16).toNat_lt
  simp only [List.length_map, List.length_range]
  omega

theorem Tcp.step_holds {cfg : Config} {s s' : Tcp} {e : TcpEvent}
    (hs : ∀ i, (s.conns i).state.free = false → (s.conns i).Holds)
    (hstep : s.step cfg e = some s') :
    ∀ i, (s'.conns i).state.free = false → (s'.conns i).Holds := by
  intro i
  refine Tcp.step_slot (fun _ _ => True) (fun c => c.state.free = false → c.Holds) i
    ?_ ?_ ?_ (hs i) trivial hstep
  · intro s seg _ _
    exact TcpConn.opened_holds _ _ _ _
  · intro s f seg c _ hdec hfind hP hchg hfree
    exact (hP (Tcp.findConn_some hfind).1).change (decode_length hdec) hchg hfree
  · intro c resp hP hstate _
    exact (hP (by simp [hstate, TcpState.free])).sendLast hstate resp

theorem Tcp.slot_holds {cfg : Config} {stream : ℕ → ℕ → UInt8} {s : Tcp} (i : Fin nconn)
    (h : Reachable (Tcp.step cfg) (WellFormed cfg stream i) Tcp.start s)
    (hfree : (s.conns i).state.free = false) :
    (s.conns i).Holds ∧ (s.conns i).Follows stream := by
  refine h.invariant (fun s => (s.conns i).state.free = false →
    (s.conns i).Holds ∧ (s.conns i).Follows stream) ?_ ?_ hfree
  · intro hfree
    simp [Tcp.start, TcpState.free] at hfree
  · intro s e s' hs hok hstep
    refine Tcp.step_slot (WellFormed cfg stream i)
      (fun c => c.state.free = false → c.Holds ∧ c.Follows stream) i ?_ ?_ ?_ hs hok hstep
    · intro s seg _ _
      exact ⟨TcpConn.opened_holds _ _ _ _, rfl⟩
    · intro s f seg c hok hdec hfind hP hchg hfree
      obtain ⟨hh, hf⟩ := hP (Tcp.findConn_some hfind).1
      exact ⟨hh.change (decode_length hdec) hchg hfree, hf.change hh (hok seg hdec hfind) hchg⟩
    · intro c resp hP hstate _
      obtain ⟨hh, hf⟩ := hP (by simp [hstate, TcpState.free])
      exact ⟨hh.sendLast hstate resp, hf⟩

/-- In every reachable state a slot in use holds the stream of its peer as far
as the buffer reaches, and `peer_seq` stands behind what was accepted; the FIN
of the peer, when it comes in order, counts for one more. -/
theorem stream_reassembly {cfg : Config} {stream : ℕ → ℕ → UInt8} {s : Tcp} (i : Fin nconn)
    (h : Reachable (Tcp.step cfg) (WellFormed cfg stream i) Tcp.start s)
    (hfree : (s.conns i).state.free = false) :
    let c := s.conns i
    (∀ k < c.httpreqlen, c.httpreq k = stream c.inc k) ∧
      c.httpreqlen ≤ 32767 ∧
      c.httpreqlen = min c.received.length 32767 ∧
      (0 < c.httpreqlen → c.httpreq c.httpreqlen = 0) ∧
      (c.state ≠ .lastAck →
        c.peerSeq.toNat % 2 ^ 32 = (c.isn.toNat + 1 + c.received.length) % 2 ^ 32) ∧
      (c.state = .lastAck → ∃ q, c.finSeq = some q ∧
        (q.toNat = (c.isn.toNat + 1 + c.received.length) % 2 ^ 32 →
          c.peerSeq.toNat % 2 ^ 32 = (c.isn.toNat + 1 + c.received.length + 1) % 2 ^ 32)) := by
  intro c
  obtain ⟨hh, hf⟩ := Tcp.slot_holds i h hfree
  have hlen : c.httpreqlen = min c.received.length 32767 := hh.length
  refine ⟨fun k => hh.stored_at hf, by omega, hlen, hh.ended, fun hs => by rw [hh.next hs], ?_⟩
  · intro hs
    obtain ⟨q, hq, hpeer⟩ := hh.last hs
    refine ⟨q, hq, fun hin => ?_⟩
    rw [hpeer, hin]
    omega

theorem wellFormed_of_empty {cfg : Config} {stream : ℕ → ℕ → UInt8} {i : Fin nconn} {s : Tcp}
    {f : Frame} (hdec : (decode cfg f).map Segment.data = some []) :
    WellFormed cfg stream i s (.rx f) := by
  intro seg hseg _ hne
  rw [hseg] at hdec
  exact absurd (Option.some.inj hdec) hne

/-- A frame is well formed when its data is well placed for the slot. -/
theorem wellFormed_of_decode {cfg : Config} {stream : ℕ → ℕ → UInt8} {i : Fin nconn} {s : Tcp}
    {f : Frame} (seq : UInt32) (data : List UInt8)
    (hdec : (decode cfg f).map (fun seg => (seg.seq, seg.data)) = some (seq, data))
    (h : ∃ o, seq.toNat = ((s.conns i).isn.toNat + 1 + o) % 2 ^ 32 ∧
      o < (s.conns i).received.length + 2 ^ 32 ∧
      data = (List.range data.length).map fun k => stream (s.conns i).inc (o + k)) :
    WellFormed cfg stream i s (.rx f) := by
  intro seg hseg _ _
  rw [hseg] at hdec
  obtain ⟨rfl, rfl⟩ : seg.seq = seq ∧ seg.data = data := by simpa using hdec
  exact h

/-- A peer with the initial sequence number 100 connects and sends `GET`. -/
def getRun : List TcpEvent :=
  [fromPeer 100 0 flagSyn [], fromPeer 101 0xDEADBEF0 flagAck [],
    fromPeer 101 0xDEADBEF0 flagAck [71, 69, 84]]

def getStream (_ k : ℕ) : UInt8 := [71, 69, 84].getD k 0

theorem getRun_runs : (exec (Tcp.step server) Tcp.start getRun).isSome := by
  decide

theorem getRun_wellFormed :
    EachStep (Tcp.step server) (WellFormed server getStream 0) Tcp.start getRun := by
  refine ⟨wellFormed_of_empty (by decide), ?_⟩
  rintro _ ⟨⟩
  refine ⟨wellFormed_of_empty (by decide), ?_⟩
  rintro _ ⟨⟩
  exact ⟨wellFormed_of_decode 101 [71, 69, 84] (by decide) ⟨0, by decide, by decide, by decide⟩,
    fun _ _ => trivial⟩

theorem stream_reassembly_get :
    ∃ s, Reachable (Tcp.step server) (WellFormed server getStream 0) Tcp.start s ∧
      (s.conns 0).httpreqlen = 3 ∧
      ∀ k < (s.conns 0).httpreqlen, (s.conns 0).httpreq k = getStream (s.conns 0).inc k := by
  have hreach := Reachable.start.exec getRun_wellFormed (Option.some_get getRun_runs).symm
  refine ⟨_, hreach, by decide, ?_⟩
  exact (stream_reassembly 0 hreach (by decide)).1

/-- A peer connects and closes at once. -/
def finRun : List TcpEvent :=
  [fromPeer 100 0 flagSyn [], fromPeer 101 0xDEADBEF0 flagAck [],
    fromPeer 101 0xDEADBEF0 (flagFin ||| flagAck) []]

theorem finRun_runs : (exec (Tcp.step server) Tcp.start finRun).isSome := by
  decide

theorem finRun_wellFormed : EachStep (Tcp.step server)
    (fun s e => ∀ j, WellFormed server getStream j s e) Tcp.start finRun := by
  refine ⟨fun _ => wellFormed_of_empty (by decide), ?_⟩
  rintro _ ⟨⟩
  refine ⟨fun _ => wellFormed_of_empty (by decide), ?_⟩
  rintro _ ⟨⟩
  exact ⟨fun _ => wellFormed_of_empty (by decide), fun _ _ => trivial⟩

/-- Its FIN moves `peer_seq` past the bytes that were accepted. -/
theorem fin_moves_peer_seq :
    ∃ s i, Reachable (Tcp.step server) (fun s e => ∀ j, WellFormed server getStream j s e)
        Tcp.start s ∧
      (s.conns i).state.free = false ∧
      (s.conns i).peerSeq.toNat % 2 ^ 32 ≠
        ((s.conns i).isn.toNat + 1 + (s.conns i).received.length) % 2 ^ 32 := by
  have hreach := Reachable.start.exec finRun_wellFormed (Option.some_get finRun_runs).symm
  exact ⟨_, 0, hreach, by decide, by decide⟩

end XinuRpi4.Net
