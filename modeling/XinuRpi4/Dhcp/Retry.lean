import XinuRpi4.Dhcp.Servers
import XinuRpi4.Foundation.Runs

/-!
# Retried discoveries

A client that waits for an ACK takes no OFFER, and a discovery leaves it
waiting. The retries of the receive tick get a lost DISCOVER or OFFER over and
not a lost REQUEST or ACK.
-/

namespace XinuRpi4.Dhcp

open XinuRpi4.Foundation XinuRpi4.Net

namespace DhcpClient

/-- The client is bound to an address. -/
def BoundTo (s : DhcpClient) (ip : Ip4) : Prop := s.gState = .bound ∧ s.gMyIp = ip

instance (s : DhcpClient) (ip : Ip4) : Decidable (s.BoundTo ip) :=
  inferInstanceAs (Decidable (_ ∧ _))

end DhcpClient

namespace DhcpServer

variable {srv : DhcpServer} {s : DhcpClient}

/-- An answer to a message with the client's transaction id gets to it. -/
theorem serve_answer {tx : DhcpTx} {f : Frame} {m : DhcpReply} {msgType : UInt8} {ip : Ip4}
    (hxid : tx.xid = s.gXid) (hreply : srv.reply tx = some f) (h : Answers tx msgType ip f m) :
    srv.serve s tx = s.handleReply m := by
  have hin : s.replyIn f = some m := by
    rw [DhcpClient.replyIn, h.1]
    simp [h.2.1, hxid]
  simp only [serve, hreply, DhcpClient.dhcpHandlePacket, hin]

variable (srv) in
/-- A client that looks for a server asks it for the address it offers. -/
theorem serve_discover (tx : DhcpTx) (hs : s.gState = .discoverSent) (htype : tx.msgType = 1)
    (hxid : tx.xid = s.gXid) :
    ∃ tx', (srv.serve s tx).2 = [tx'] ∧ tx'.msgType = 3 ∧ tx'.xid = s.gXid ∧
      tx'.requestedIp = some srv.offered ∧ tx'.serverIp = some srv.id ∧
      (srv.serve s tx).1.gState = .requestSent ∧ (srv.serve s tx).1.gXid = s.gXid := by
  obtain ⟨f, m, hreply, hanswer, hid⟩ := srv.offers tx htype
  have hip : m.yiaddr = srv.offered := hanswer.2.2.2
  have htake : s.TakesOffer m := ⟨hanswer.2.2.1, hs⟩
  rw [serve_answer hxid hreply hanswer, DhcpClient.handleReply_offer htake]
  obtain ⟨tx', hsend, htype', hxid', hip', hid'⟩ := DhcpClient.handleReply_request htake
  exact ⟨tx', hsend, htype', hxid', hip ▸ hip', hid ▸ hid', rfl, rfl⟩

variable (srv) in
/-- A client that waits for the ACK takes no OFFER. -/
theorem serve_waiting (tx : DhcpTx) (hs : s.gState = .requestSent) (htype : tx.msgType = 1)
    (hxid : tx.xid = s.gXid) : srv.serve s tx = (s, []) := by
  obtain ⟨f, m, hreply, hanswer, -⟩ := srv.offers tx htype
  rw [serve_answer hxid hreply hanswer]
  simp [DhcpClient.handleReply, hanswer.2.2.1, hs]

/-- The ACK of the requested server binds the client. -/
theorem serve_request (tx : DhcpTx) (hs : s.gState = .requestSent) (htype : tx.msgType = 3)
    (hxid : tx.xid = s.gXid) (hip : tx.requestedIp = some srv.offered)
    (hid : tx.serverIp = some srv.id) : (srv.serve s tx).1.BoundTo srv.offered := by
  obtain ⟨f, m, hreply, hanswer⟩ := srv.acks tx htype hip hid
  have htake : s.TakesAck m := ⟨hanswer.2.2.1, hs⟩
  rw [serve_answer hxid hreply hanswer, DhcpClient.handleReply_ack htake]
  exact ⟨rfl, hanswer.2.2.2⟩

variable (srv) in
/-- The conversation of a client that is not bound and not waiting for an ACK. -/
theorem conversation_free (lost : Option DhcpMessage) (hbound : s.gState ≠ .bound)
    (hwait : s.gState ≠ .requestSent) :
    if lost = some .discover ∨ lost = some .offer then
      (srv.conversation lost s).gState = .discoverSent
    else if lost = some .request ∨ lost = some .ack then
      (srv.conversation lost s).gState = .requestSent
    else (srv.conversation lost s).BoundTo srv.offered := by
  have hsent : s.dhcpSendDiscover.1.gState = .discoverSent := by
    rcases s.dhcpSendDiscover_state with hkeep | ⟨-, hsent⟩
    · cases hs : s.gState <;> simp_all [DhcpClient.dhcpSendDiscover]
    · exact hsent
  obtain ⟨tx', htx, htype, hxid, hip, hid, hstate, hkeep⟩ :=
    srv.serve_discover s.dhcpSendDiscover.2 hsent rfl rfl
  unfold conversation
  by_cases hearly : lost = some .discover ∨ lost = some .offer
  · simp only [hearly, if_true]
    exact hsent
  by_cases hlate : lost = some .request ∨ lost = some .ack
  · simp only [hearly, hlate, if_true, if_false]
    exact hstate
  · simp only [hearly, hlate, if_false, htx, List.foldl_cons, List.foldl_nil]
    exact serve_request tx' hstate htype (hxid.trans hkeep.symm) hip hid

/-- The conversation of a client that waits for an ACK leads nowhere. -/
theorem conversation_waiting (lost : Option DhcpMessage) (hs : s.gState = .requestSent) :
    (srv.conversation lost s).gState = .requestSent := by
  have hsent : s.dhcpSendDiscover.1.gState = .requestSent := by
    simp [DhcpClient.dhcpSendDiscover, hs]
  have hserve := srv.serve_waiting s.dhcpSendDiscover.2 hsent rfl rfl
  simp only [conversation, hserve, List.foldl_nil, ite_self]
  exact hsent

/-- A conversation without loss binds a client exactly when it does not wait for
an ACK. -/
theorem conversation_completes_iff (hbound : s.gState ≠ .bound) :
    (srv.conversation none s).BoundTo srv.offered ↔ s.gState ≠ .requestSent := by
  constructor
  · rintro ⟨hend, -⟩ hs
    exact absurd ((conversation_waiting none hs).symm.trans hend) (by decide)
  · intro hwait
    simpa using srv.conversation_free none hbound hwait

end DhcpServer

/-- The client and the counters of `genet_rx_tick`. -/
structure RxTick where
  client : DhcpClient
  gRxTickCount : ℕ
  dhcpTries : ℕ

namespace RxTick

/-- One tick; when it retries, nothing is lost. -/
def tick (srv : DhcpServer) (w : RxTick) : RxTick :=
  let count := w.gRxTickCount + 1
  if !w.client.dhcpIsBound ∧ w.dhcpTries < 4 ∧ 0 < count ∧ count % 64 = 0 then
    { client := srv.conversation none w.client
      gRxTickCount := count
      dhcpTries := w.dhcpTries + 1 }
  else { w with gRxTickCount := count }

/-- The first discovery after the start loses a message, if any. -/
def start (srv : DhcpServer) (mac : Mac) (lost : Option DhcpMessage) (count : ℕ) : RxTick where
  client := srv.conversation lost (DhcpClient.boot.dhcpSetMac mac)
  gRxTickCount := count
  dhcpTries := 0

variable {srv : DhcpServer} {w : RxTick}

/-- No tick frees a client that waits for an ACK. -/
theorem ticks_waiting (n : ℕ) (h : w.client.gState = .requestSent) :
    ((tick srv)^[n] w).client.gState = .requestSent := by
  induction n with
  | zero => exact h
  | succ n ih =>
    rw [Function.iterate_succ_apply', tick]
    split
    · exact DhcpServer.conversation_waiting none ih
    · exact ih

/-- Nothing happens up to the next multiple of 64. -/
theorem ticks_idle (n : ℕ) (h : ∀ k, k < n → (w.gRxTickCount + (k + 1)) % 64 ≠ 0) :
    (tick srv)^[n] w = { w with gRxTickCount := w.gRxTickCount + n } := by
  induction n with
  | zero => rfl
  | succ n ih =>
    rw [Function.iterate_succ_apply', ih fun k hk => h k (by omega), tick,
      if_neg fun hretry => h n (by omega) hretry.2.2.2]
    rfl

/-- The next retry binds a client that looks for a server. -/
theorem ticks_searching (h : w.client.gState = .discoverSent) (htries : w.dhcpTries < 4) :
    ∃ n, ((tick srv)^[n] w).client.BoundTo srv.offered := by
  let n := 63 - w.gRxTickCount % 64
  have hidle : ∀ k, k < n → (w.gRxTickCount + (k + 1)) % 64 ≠ 0 := by
    intro k hk
    omega
  have hretry : (w.gRxTickCount + n + 1) % 64 = 0 := by omega
  refine ⟨n + 1, ?_⟩
  rw [Function.iterate_succ_apply', ticks_idle n hidle, tick, if_pos]
  · exact (DhcpServer.conversation_completes_iff (by simp [h])).2 (by simp [h])
  · simp [DhcpClient.dhcpIsBound, h, htries, hretry]

/-- The retries get over a lost DISCOVER or OFFER and over no other loss. -/
theorem recovers_iff (srv : DhcpServer) (mac : Mac) (lost : DhcpMessage) (count : ℕ) :
    (∃ n, ((tick srv)^[n] (start srv mac (some lost) count)).client.BoundTo srv.offered) ↔
      lost = .discover ∨ lost = .offer := by
  have hfirst := srv.conversation_free (s := DhcpClient.boot.dhcpSetMac mac) (some lost) nofun
    nofun
  by_cases hearly : lost = .discover ∨ lost = .offer
  · simp only [Option.some.injEq, hearly, if_true] at hfirst
    exact ⟨fun _ => hearly, fun _ => ticks_searching hfirst (Nat.zero_lt_succ 3)⟩
  · have hlate : lost = .request ∨ lost = .ack := by
      cases lost <;> simp at hearly ⊢
    simp only [Option.some.injEq, hearly, hlate, if_true, if_false] at hfirst
    refine ⟨?_, fun h => absurd h hearly⟩
    rintro ⟨n, hend, -⟩
    exact absurd ((ticks_waiting n hfirst).symm.trans hend) (by decide)

/-- A retried discovery completes exactly when the client does not wait for an
ACK, so the retries get over the loss of a DISCOVER or an OFFER only. -/
theorem retry_completes_iff (srv : DhcpServer) (mac : Mac) :
    (∀ es s, exec DhcpClient.step (DhcpClient.boot.dhcpSetMac mac) es = some s →
      s.gState ≠ .bound →
        ((srv.conversation none s).BoundTo srv.offered ↔ s.gState ≠ .requestSent)) ∧
    ∀ lost count,
      (∃ n, ((tick srv)^[n] (start srv mac (some lost) count)).client.BoundTo srv.offered) ↔
        lost = .discover ∨ lost = .offer :=
  ⟨fun _ _ _ hbound => DhcpServer.conversation_completes_iff hbound, recovers_iff srv mac⟩

/-- After an OFFER whose REQUEST is lost no discovery completes. -/
theorem lost_request_stuck :
    ¬ ∀ es s, exec DhcpClient.step (DhcpClient.boot.dhcpSetMac 0) es = some s →
      s.gState ≠ .bound →
        ∀ srv : DhcpServer, (srv.conversation none s).BoundTo srv.offered := by
  intro h
  have hreply : DhcpClient.replyIn (DhcpClient.boot.dhcpSetMac 0).dhcpSendDiscover.1
      (replyFrame homeOffer) = some homeOffer := by
    rw [DhcpClient.replyIn, decode_replyFrame]
    decide
  have hrun : exec DhcpClient.step (DhcpClient.boot.dhcpSetMac 0)
      [.discover, .receive (replyFrame homeOffer)] =
        some ((DhcpClient.boot.dhcpSetMac 0).dhcpSendDiscover.1.handleReply homeOffer).1 := by
    simp only [exec, DhcpClient.step, DhcpClient.dhcpHandlePacket, Option.bind_some, hreply]
  have hbound := h _ _ hrun (by decide) (DhcpServer.fixed homeOffer.opts.serverId
    homeOffer.yiaddr homeOffer.opts)
  exact absurd ((DhcpServer.conversation_waiting none rfl).symm.trans hbound.1) (by decide)

end RxTick

end XinuRpi4.Dhcp
