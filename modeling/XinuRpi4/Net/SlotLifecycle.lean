import XinuRpi4.Net.FrameReads
import XinuRpi4.Net.SequenceNumbers

/-!
# The lifecycle of a slot

No two slots in use have the same peer, and a SYN is refused only when all slots are in
use. A slot gets out of ESTABLISHED with any RST of its peer; the other states in use do
not answer every segment that should bring them on.
-/

namespace XinuRpi4.Net

open XinuRpi4.Foundation

namespace TcpConn

variable (c : TcpConn)

def Active : Prop := c.state.free = false

/-- The segment comes from the peer of the slot. -/
def FromPeer (seg : Segment) : Prop := seg.ip = c.peerIp ∧ seg.port = c.peerPort

/-- The SYN that a slot waiting for the ACK was opened with, sent once more. -/
structure ResentSyn (seg : Segment) : Prop where
  peer : c.FromPeer seg
  syn : seg.has flagSyn = true
  noAck : seg.has flagAck = false
  noRst : seg.has flagRst = false
  seq : seg.seq.toUInt64 + 1 = c.peerSeq
  data : seg.data = []

end TcpConn

namespace Tcp

variable (s : Tcp)

/-- A SYN+ACK is sent for the segment, and an ACK of it establishes the connection. -/
def AnsweredSyn (i : Fin nconn) (seg : Segment) : Prop :=
  ∃ out, (s.handleSegment seg).sent = s.sent ++ out ∧
    ∃ tx ∈ out, tx.flags = flagSyn ||| flagAck ∧ tx.ip = seg.ip ∧ tx.port = seg.port ∧
      tx.ack = seg.seq + 1 ∧
      ∀ ack : Segment, (s.conns i).FromPeer ack → ack.has flagAck = true →
        ack.has flagRst = false → ack.ack = tx.seq + 1 →
          (((s.handleSegment seg).handleSegment ack).conns i).state = .established

/-- What brings a slot on. -/
structure Recovers (i : Fin nconn) : Prop where
  reset : ∀ seg, (s.conns i).FromPeer seg → seg.has flagRst = true →
    ((s.handleSegment seg).conns i).state = .listen
  resent : (s.conns i).state = .synRcvd → ∀ seg, (s.conns i).ResentSyn seg →
    s.AnsweredSyn i seg
  left : ∃ seg, (s.conns i).FromPeer seg ∧
    ((s.handleSegment seg).conns i).state ≠ (s.conns i).state

/-- The slots in use have peers of their own. -/
def DistinctPeers : Prop := ∀ i j, (s.conns i).Active → (s.conns j).Active →
  (s.conns i).peerIp = (s.conns j).peerIp → (s.conns i).peerPort = (s.conns j).peerPort → i = j

/-- A SYN of a new peer that gets no slot has found all of them in use. -/
def RefusesWhenFull : Prop := ∀ seg, seg.has flagSyn = true →
  s.findConn seg.ip seg.port = none →
    (∀ i, ¬ (((s.handleSegment seg).conns i).Active ∧
      ((s.handleSegment seg).conns i).FromPeer seg)) → ∀ i, (s.conns i).Active

structure Lifecycle : Prop where
  peers : s.DistinctPeers
  refused : s.RefusesWhenFull
  recovers : ∀ i, (s.conns i).Active → s.Recovers i

end Tcp

namespace TcpConn

variable {c c' : TcpConn} {seg : Segment}

theorem active_of_established (h : c.state = .established) : c.Active := by
  simp [Active, h, TcpState.free]

theorem Change.kept_peer (h : c.Change seg c') (hactive : c'.Active) :
    c.Active ∧ c'.peerIp = c.peerIp ∧ c'.peerPort = c.peerPort := by
  cases h with
  | kept => exact ⟨hactive, rfl, rfl⟩
  | establish hstate _ => exact ⟨by simp [Active, hstate, TcpState.free], rfl, rfl⟩
  | data hstate _ =>
    refine ⟨active_of_established hstate, ?_, ?_⟩
    · unfold accept
      split_ifs <;> rfl
    · unfold accept
      split_ifs <;> rfl
  | refuse hstate _ =>
    refine ⟨active_of_established hstate, ?_, ?_⟩
    · unfold accept sendLast
      split_ifs <;> rfl
    · unfold accept sendLast
      split_ifs <;> rfl
  | fin hstate => exact ⟨active_of_established hstate, rfl, rfl⟩
  | drop q => simp [Active, TcpState.free] at hactive

end TcpConn

namespace Tcp

variable {cfg : Config} {s s' : Tcp} {e : TcpEvent} {seg : Segment} {i j : Fin nconn}

/-- The slots that are in use afterwards were in use before, with the same peers. -/
def KeepsPeers (s s' : Tcp) : Prop := ∀ i, (s'.conns i).Active →
  (s.conns i).Active ∧ (s'.conns i).peerIp = (s.conns i).peerIp ∧
    (s'.conns i).peerPort = (s.conns i).peerPort

theorem DistinctPeers.of_keeps (h : s.DistinctPeers) (hkeeps : KeepsPeers s s') :
    s'.DistinctPeers := by
  intro i j hi hj hip hport
  obtain ⟨hi', hip', hport'⟩ := hkeeps i hi
  obtain ⟨hj', hjp', hjport'⟩ := hkeeps j hj
  exact h i j hi' hj' (by rw [← hip', ← hjp', hip]) (by rw [← hport', ← hjport', hport])

theorem findConn_none (h : s.findConn seg.ip seg.port = none) (hi : (s.conns i).Active) :
    ¬ (s.conns i).FromPeer seg := by
  rintro ⟨hip, hport⟩
  have hmatch := Fin.find?_eq_none_iff.mp h i
  unfold TcpConn.Active at hi
  simp [hi, hip, hport] at hmatch

/-- The slot in use for a peer is found. -/
theorem DistinctPeers.findConn (h : s.DistinctPeers) (hi : (s.conns i).Active)
    (hpeer : (s.conns i).FromPeer seg) : s.findConn seg.ip seg.port = some i := by
  cases hfind : s.findConn seg.ip seg.port with
  | none => exact absurd hpeer (findConn_none hfind hi)
  | some j =>
    obtain ⟨hactive, hip, hport⟩ := findConn_some hfind
    exact congrArg some (h j i hactive hi (hip.trans hpeer.1) (hport.trans hpeer.2))

theorem DistinctPeers.opened (h : s.DistinctPeers)
    (hfind : s.findConn seg.ip seg.port = none) (i : Fin nconn) :
    (s.openConn i seg).DistinctPeers := by
  have hother : ∀ j k, j = i → k ≠ i → ((s.openConn i seg).conns k).Active →
      ((s.openConn i seg).conns j).peerIp = ((s.openConn i seg).conns k).peerIp →
      ((s.openConn i seg).conns j).peerPort = ((s.openConn i seg).conns k).peerPort → False := by
    rintro j k rfl hk hactive hip hport
    rw [openConn_self, openConn_of_ne hk] at hip hport
    rw [openConn_of_ne hk] at hactive
    exact findConn_none hfind hactive ⟨hip, hport⟩
  intro j k hj hk hip hport
  by_cases hji : j = i
  · by_cases hki : k = i
    · rw [hji, hki]
    · exact (hother j k hji hki hk hip hport).elim
  · by_cases hki : k = i
    · exact (hother k j hki hji hj hip.symm hport.symm).elim
    · rw [openConn_of_ne hji] at hj hip hport
      rw [openConn_of_ne hki] at hk hip hport
      exact h j k hj hk hip hport

theorem DistinctPeers.handled (h : s.DistinctPeers) (seg : Segment) :
    (s.handleSegment seg).DistinctPeers := by
  cases hfind : s.findConn seg.ip seg.port with
  | none =>
    obtain ⟨-, heq⟩ | ⟨-, i, -, heq⟩ | ⟨i, hsome, -⟩ := handleSegment_cases s seg
    · rwa [heq]
    · rw [heq]
      exact h.opened hfind i
    · simp [hfind] at hsome
  | some j =>
    apply h.of_keeps
    intro i hi
    rw [handleSegment_conns hfind] at hi ⊢
    split_ifs at hi ⊢ with hij
    · rw [hij]
      exact (TcpConn.onSegment_change _ seg).kept_peer hi
    · exact ⟨hi, rfl, rfl⟩

theorem DistinctPeers.step (h : s.DistinctPeers) (hstep : s.step cfg e = some s') :
    s'.DistinctPeers := by
  cases e with
  | rx f =>
    obtain rfl := Option.some.inj hstep
    unfold tcpHandlePacket
    cases decode cfg f with
    | none => exact h
    | some seg => exact h.handled seg
  | workBegin =>
    obtain rfl := Option.some.inj hstep
    exact h.of_keeps fun i hi => by simpa using hi
  | workEnd resp =>
    obtain rfl := Option.some.inj hstep
    exact h.of_keeps fun i hi => by simpa using hi
  | flush =>
    obtain rfl := Option.some.inj hstep
    apply h.of_keeps
    intro i hi
    have hslot := tcpAppFlush_slot s i
    generalize s.tcpAppFlush.conns i = c at hslot hi ⊢
    cases hslot with
    | kept => exact ⟨hi, rfl, rfl⟩
    | answered _ _ hstate => exact ⟨TcpConn.active_of_established hstate, rfl, rfl⟩

/-- Runs keep the peers of the slots apart. -/
theorem distinctPeers (es : List TcpEvent) (h : exec (Tcp.step cfg) Tcp.start es = some s) :
    s.DistinctPeers := by
  apply exec_invariant DistinctPeers _ _ h
  · exact fun _ _ _ _ hs hstep => hs.step hstep
  · intro i j hi
    simp [Tcp.start, TcpConn.Active, TcpState.free] at hi

theorem refusesWhenFull (s : Tcp) : s.RefusesWhenFull := by
  intro seg hsyn hfind hnone i
  by_contra hfree
  have hfree' : (s.conns i).state.free = true := by simpa [TcpConn.Active] using hfree
  cases halloc : s.allocConn with
  | none =>
    have hno := Fin.find?_eq_none_iff.mp halloc i
    simp [hfree'] at hno
  | some j =>
    have hopen : s.handleSegment seg = s.openConn j seg := by
      simp [handleSegment, hfind, onSyn, hsyn, halloc]
    apply hnone j
    rw [hopen, openConn_self]
    exact ⟨rfl, rfl, rfl⟩

/-- A segment with given fields from the peer of a slot. -/
def reply (c : TcpConn) (seq ack : UInt32) (flags : UInt8) : Segment where
  ip := c.peerIp
  port := c.peerPort
  seq := seq
  ack := ack
  flags := flags
  data := []

theorem reply_fromPeer (c : TcpConn) (seq ack : UInt32) (flags : UInt8) :
    c.FromPeer (reply c seq ack flags) := ⟨rfl, rfl⟩

theorem reply_has (c : TcpConn) (seq ack : UInt32) (flags flag : UInt8) :
    (reply c seq ack flags).has flag = (flags &&& flag != 0) := rfl

theorem DistinctPeers.conn_eq (h : s.DistinctPeers) (hi : (s.conns i).Active)
    (hpeer : (s.conns i).FromPeer seg) :
    (s.handleSegment seg).conns i = ((s.conns i).onSegment seg).conn := by
  rw [handleSegment_conns (h.findConn hi hpeer), if_pos rfl]

/-- An established connection is reset by every RST. -/
theorem recovers_of_established (h : s.DistinctPeers) (hstate : (s.conns i).state = .established) :
    s.Recovers i := by
  have hactive := TcpConn.active_of_established hstate
  have hreset : ∀ seg, (s.conns i).FromPeer seg → seg.has flagRst = true →
      ((s.handleSegment seg).conns i).state = .listen := by
    intro seg hpeer hrst
    rw [h.conn_eq hactive hpeer]
    simp [TcpConn.onSegment, hstate, TcpConn.onEstablished, hrst]
  refine ⟨hreset, fun hwait => by simp [hstate] at hwait, ?_⟩
  refine ⟨reply (s.conns i) 0 0 flagRst, reply_fromPeer _ _ _ _, ?_⟩
  rw [hreset _ (reply_fromPeer _ _ _ _) (by rw [reply_has]; decide), hstate]
  decide

/-- A SYN that is sent again to a waiting slot is not answered. -/
theorem not_recovers_of_synRcvd (h : s.DistinctPeers) (hstate : (s.conns i).state = .synRcvd)
    {isn : UInt32} (hseq : (s.conns i).peerSeq = isn.toUInt64 + 1) : ¬ s.Recovers i := by
  intro hrecovers
  have hactive : (s.conns i).Active := by simp [TcpConn.Active, hstate, TcpState.free]
  have hsyn : (s.conns i).ResentSyn (reply (s.conns i) isn 0 flagSyn) :=
    { peer := reply_fromPeer _ _ _ _
      syn := by rw [reply_has]; decide
      noAck := by rw [reply_has]; decide
      noRst := by rw [reply_has]; decide
      seq := hseq.symm
      data := rfl }
  obtain ⟨out, hsent, tx, htx, -⟩ := hrecovers.resent hstate _ hsyn
  have hreply : (s.conns i).onSegment (reply (s.conns i) isn 0 flagSyn) =
      ⟨s.conns i, [], false⟩ := by
    simp [TcpConn.onSegment, hstate, TcpConn.onSynRcvd, hsyn.noAck, hsyn.noRst]
  have hkept : (s.handleSegment (reply (s.conns i) isn 0 flagSyn)).sent = s.sent := by
    unfold handleSegment
    rw [h.findConn hactive hsyn.peer]
    simp [hreply, setConn]
  rw [hkept] at hsent
  have hnil : out = [] := by simpa using hsent
  simp [hnil] at htx

/-- The states behind the FIN ignore an RST that acknowledges nothing. -/
theorem not_recovers_of_closing (h : s.DistinctPeers) (hactive : (s.conns i).Active)
    (hstate : (s.conns i).state = .finWait1 ∨ (s.conns i).state = .lastAck) :
    ¬ s.Recovers i := by
  intro hrecovers
  have hack : (reply (s.conns i) 0 0 flagRst).has flagAck = false := by
    rw [reply_has]
    decide
  have hlisten := hrecovers.reset (reply (s.conns i) 0 0 flagRst) (reply_fromPeer _ _ _ _)
    (by rw [reply_has]; decide)
  rw [h.conn_eq hactive (reply_fromPeer _ _ _ _)] at hlisten
  rcases hstate with hstate | hstate
  · simp [TcpConn.onSegment, hstate, TcpConn.onFinWait1, hack] at hlisten
  · simp [TcpConn.onSegment, hstate, TcpConn.onLastAck, hack] at hlisten

/-- A waiting slot expects what follows the SYN that opened it. -/
def Awaits (c : TcpConn) : Prop := c.state = .synRcvd → c.peerSeq = c.isn.toUInt64 + 1

theorem awaits_change {c c' : TcpConn} (h : Awaits c) (hchange : c.Change seg c') : Awaits c' := by
  cases hchange with
  | kept => exact h
  | establish => simp [Awaits]
  | data hstate _ =>
    have hkept : (c.accept seg).state = .established := by
      unfold TcpConn.accept
      split_ifs
      · exact hstate
      · exact hstate
    simp [Awaits, hkept]
  | refuse => simp [Awaits, TcpConn.sendLast]
  | fin => simp [Awaits, TcpConn.onFin]
  | drop q => simp [Awaits]

theorem awaits (es : List TcpEvent) (h : exec (Tcp.step cfg) Tcp.start es = some s)
    (i : Fin nconn) : Awaits (s.conns i) := by
  apply exec_invariant (fun s : Tcp => Awaits (s.conns i)) _ _ h
  · intro e _ s s' hs hstep
    apply step_slot (fun _ _ => True) Awaits i _ _ _ hs trivial hstep
    · exact fun _ _ _ _ => rfl
    · exact fun _ _ _ _ _ _ _ hc hchange => awaits_change hc hchange
    · intro c resp _ _
      simp [Awaits, TcpConn.sendLast]
  · simp [Awaits, Tcp.start]

/-- A slot in use gets on from every state that it can be in when it is established, and
from no other. -/
theorem recovers_iff (es : List TcpEvent) (h : exec (Tcp.step cfg) Tcp.start es = some s)
    (hactive : (s.conns i).Active) : s.Recovers i ↔ (s.conns i).state = .established := by
  have hpeers := distinctPeers es h
  constructor
  · intro hrecovers
    cases hstate : (s.conns i).state with
    | closed => simp [TcpConn.Active, hstate, TcpState.free] at hactive
    | listen => simp [TcpConn.Active, hstate, TcpState.free] at hactive
    | synRcvd => exact (not_recovers_of_synRcvd hpeers hstate (awaits es h i hstate) hrecovers).elim
    | established => rfl
    | finWait1 => exact (not_recovers_of_closing hpeers hactive (Or.inl hstate) hrecovers).elim
    | lastAck => exact (not_recovers_of_closing hpeers hactive (Or.inr hstate) hrecovers).elim
  · exact recovers_of_established hpeers

theorem toUInt64_toUInt32 {q : UInt64} (h : q.toNat < 2 ^ 32) : q.toUInt32.toUInt64 = q := by
  rw [← UInt64.toNat_inj, UInt32.toNat_toUInt64, UInt64.toNat_toUInt32, Nat.mod_eq_of_lt h]

theorem lt_of_toUInt64 {q : UInt64} {ack : UInt32} (h : ack.toUInt64 = q) : q.toNat < 2 ^ 32 := by
  rw [← h, UInt32.toNat_toUInt64]
  exact ack.toNat_lt

/-- A slot can be left by some segment of its peer, unless it is closing and its counter
has outgrown the field that it is compared with. -/
theorem left_iff (h : s.DistinctPeers) (hactive : (s.conns i).Active) :
    (∃ seg, (s.conns i).FromPeer seg ∧
      ((s.handleSegment seg).conns i).state ≠ (s.conns i).state) ↔
        (s.conns i).state = .synRcvd ∨ (s.conns i).state = .established ∨
          (s.conns i).mySeq.toNat < 2 ^ 32 := by
  have hrst : (reply (s.conns i) 0 0 flagRst).has flagRst = true := by
    rw [reply_has]
    decide
  have hleft : ∀ seq ack flags, ((s.conns i).onSegment (reply (s.conns i) seq ack flags)).conn.state ≠
      (s.conns i).state → ∃ seg, (s.conns i).FromPeer seg ∧
        ((s.handleSegment seg).conns i).state ≠ (s.conns i).state := by
    intro seq ack flags hne
    refine ⟨_, reply_fromPeer (s.conns i) seq ack flags, ?_⟩
    rwa [h.conn_eq hactive (reply_fromPeer _ _ _ _)]
  cases hstate : (s.conns i).state with
  | closed => simp [TcpConn.Active, hstate, TcpState.free] at hactive
  | listen => simp [TcpConn.Active, hstate, TcpState.free] at hactive
  | synRcvd =>
    simp only [true_or, iff_true]
    rw [hstate] at hleft
    apply hleft 0 0 flagRst
    simp [TcpConn.onSegment, hstate, TcpConn.onSynRcvd, hrst]
  | established =>
    simp only [true_or, or_true, iff_true]
    rw [hstate] at hleft
    apply hleft 0 0 flagRst
    simp [TcpConn.onSegment, hstate, TcpConn.onEstablished, hrst]
  | finWait1 =>
    simp only [reduceCtorEq, false_or]
    constructor
    · rintro ⟨seg, hpeer, hne⟩
      rw [h.conn_eq hactive hpeer] at hne
      by_contra hge
      have hack : ¬ seg.ack.toUInt64 = (s.conns i).mySeq := fun heq => hge (lt_of_toUInt64 heq)
      simp [TcpConn.onSegment, hstate, TcpConn.onFinWait1, hack] at hne
    · intro hlt
      rw [hstate] at hleft
      apply hleft 0 (s.conns i).mySeq.toUInt32 (flagAck ||| flagFin)
      have hack : (reply (s.conns i) 0 (s.conns i).mySeq.toUInt32
          (flagAck ||| flagFin)).has flagAck = true := by
        rw [reply_has]
        decide
      have hfin : (reply (s.conns i) 0 (s.conns i).mySeq.toUInt32
          (flagAck ||| flagFin)).has flagFin = true := by
        rw [reply_has]
        decide
      have heq := (TcpConn.onFinWait1_listen hstate hack hfin).mpr (toUInt64_toUInt32 hlt)
      rw [heq]
      decide
  | lastAck =>
    simp only [reduceCtorEq, false_or]
    constructor
    · rintro ⟨seg, hpeer, hne⟩
      rw [h.conn_eq hactive hpeer] at hne
      by_contra hge
      have hack : ¬ seg.ack.toUInt64 = (s.conns i).mySeq := fun heq => hge (lt_of_toUInt64 heq)
      simp [TcpConn.onSegment, hstate, TcpConn.onLastAck, hack] at hne
    · intro hlt
      rw [hstate] at hleft
      apply hleft 0 (s.conns i).mySeq.toUInt32 flagAck
      have hack : (reply (s.conns i) 0 (s.conns i).mySeq.toUInt32 flagAck).has flagAck = true := by
        rw [reply_has]
        decide
      have heq := (TcpConn.onLastAck_listen hstate hack).mpr (toUInt64_toUInt32 hlt)
      rw [heq]
      decide

/-- The slots have the lifecycle that they should in the states where all slots in use are
established. -/
theorem lifecycle_iff (es : List TcpEvent) (h : exec (Tcp.step cfg) Tcp.start es = some s) :
    s.Lifecycle ↔ ∀ i, (s.conns i).Active → (s.conns i).state = .established := by
  constructor
  · exact fun hlife i hi => (recovers_iff es h hi).mp (hlife.recovers i hi)
  · intro hall
    exact ⟨distinctPeers es h, refusesWhenFull s, fun i hi => (recovers_iff es h hi).mpr (hall i hi)⟩

/-- After the handshake of one peer. -/
theorem lifecycle_connected : ∃ s, exec (Tcp.step server) Tcp.start connectRun = some s ∧
    (s.Lifecycle ↔ ∀ i, (s.conns i).Active → (s.conns i).state = .established) := by
  have hrun := Option.some_get (exec_isSome server Tcp.start connectRun)
  exact ⟨_, hrun.symm, lifecycle_iff connectRun hrun.symm⟩

/-- A peer whose SYN+ACK was lost sends its SYN again for nothing. -/
theorem resent_syn_ignored : ¬ ∀ (es : List TcpEvent) (s : Tcp),
    exec (Tcp.step server) Tcp.start es = some s → s.Lifecycle := by
  intro h
  have hrun := Option.some_get (exec_isSome server Tcp.start [fromPeer 100 0 flagSyn []])
  have hstate : (((exec (Tcp.step server) Tcp.start [fromPeer 100 0 flagSyn []]).get
      (exec_isSome server Tcp.start [fromPeer 100 0 flagSyn []])).conns 0).state = .synRcvd := by
    decide
  have hrecovers := (h _ _ hrun.symm).recovers 0 (by
    unfold TcpConn.Active
    rw [hstate]
    rfl)
  exact not_recovers_of_synRcvd (distinctPeers _ hrun.symm) hstate (awaits _ hrun.symm 0 hstate)
    hrecovers

end Tcp

end XinuRpi4.Net
