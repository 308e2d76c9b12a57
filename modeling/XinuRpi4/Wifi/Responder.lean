import XinuRpi4.Net.EchoReplies
import XinuRpi4.Routing.LoopFreedom
import XinuRpi4.Routing.SeenRequests
import XinuRpi4.Wifi.UdpFrames

/-!
# The responder of the WiFi driver

A data frame from the chip is an ARP request, a packet for the AODV core or an echo
request. An echo request is answered in the buffer it was read into.
-/

namespace XinuRpi4.Wifi

open XinuRpi4.Foundation XinuRpi4.Net XinuRpi4.Routing

/-- The Ethernet frame behind the headers of the chip. -/
def ether (fr : Frame) : Frame where
  bytes o := fr.bytes (etherOffset fr + o)
  len := fr.len - etherOffset fr

/-- The packet that `aodv_ip_in` reads in a frame. -/
def packetOf (e : Frame) : Packet where
  src := ip4At e.bytes 26
  dst := ip4At e.bytes 30
  proto := e.bytes 23
  dport := be16 e.bytes (14 + ihl e + 2)
  p k := e.bytes (14 + ihl e + 8 + k)

/-- A transmission of the responder: a frame, or a packet of the AODV core. -/
inductive WifiTx
  | frame (eth : List UInt8)
  | packet (e : Packet)
deriving DecidableEq

/-- `wifi_data_tx`: what does not fit the buffer with the headers is not sent. -/
def wifiDataTx (eth : List UInt8) : List WifiTx :=
  if 1600 < 12 + 4 + eth.length then [] else [.frame eth]

def wifiArpReply (wifiMac : Fin 6 → UInt8) (wifiIp : Net.Ip4) (e : Frame) : List UInt8 :=
  slice e.bytes 6 6 ++ macBytes wifiMac ++ [0x08, 0x06] ++ [0, 1, 0x08, 0, 6, 4, 0, 2] ++
    macBytes wifiMac ++ ipBytes wifiIp ++ slice e.bytes 22 6 ++ slice e.bytes 28 4

def wifiEchoReply (e : Frame) : ℕ → UInt8 :=
  let b := putEnds e.bytes (slice e.bytes 6 6) (slice e.bytes 0 6) (slice e.bytes 30 4)
    (slice e.bytes 26 4)
  let b := fill b (14 + ihl e) [0]
  let b := putChecksum b (14 + ihl e + 2) (14 + ihl e) (ipTotal e - ihl e)
  putChecksum b 24 14 (ihl e)

/-- `if (ip[9] == 1 && wifi_ip_eq(ip + 16))` -/
def wifiIcmp (wifiIp : Net.Ip4) (e : Frame) : List WifiTx :=
  if e.bytes 23 = 1 ∧ ip4At e.bytes 30 = wifiIp then
    if e.bytes (14 + ihl e) = 8 ∧ ihl e + 8 ≤ ipTotal e ∧ 14 + ipTotal e ≤ e.len then
      wifiDataTx (slice (wifiEchoReply e) 0 (14 + ipTotal e))
    else []
  else []

def wifiHandleFrame (wifiMac : Fin 6 → UInt8) (n : Node) (w : Surroundings) (fr : Frame) :
    Node × List WifiTx :=
  let e := ether fr
  if e.len < 14 then (n, [])
  else if be16 e.bytes 12 = 0x0806 ∧ 42 ≤ e.len then
    if be16 e.bytes 20 = 1 ∧ ip4At e.bytes 38 = n.wifiIp then
      (n, wifiDataTx (wifiArpReply wifiMac n.wifiIp e))
    else (n, [])
  else if be16 e.bytes 12 = 0x0800 ∧ 14 + 20 + 8 ≤ e.len then
    let (n', out, consumed) := n.aodvIpIn w (packetOf e)
    (n', out.map .packet ++ if consumed then [] else wifiIcmp n'.wifiIp e)
  else (n, [])

/-- One frame in `wifi_net_poll`. -/
def wifiNetPoll (wifiMac : Fin 6 → UInt8) (n : Node) (w : Surroundings) (fr : Frame) :
    Node × List WifiTx :=
  if chan fr = 2 ∧ doff fr + 4 < fr.len then wifiHandleFrame wifiMac n w fr else (n, [])

/-- A node that has not received anything. -/
def bootNode (wifiIp : Net.Ip4) : Node where
  wifiIp := wifiIp
  gRt := fun _ => { dst := 0, nh := 0, hops := 0, seq := 0, valid := false }
  gRreqid := 0
  gMyseq := 0
  gSeenO := fun _ => 0
  gSeenId := fun _ => 0
  gSeenN := 0

/-- The node after some frames. -/
def nodeAfter (us : Station) : List (Surroundings × Frame) → Node :=
  List.foldl (fun n r => (wifiNetPoll us.mac n r.1 r.2).1) (bootNode us.ip)

/-- What is transmitted for a frame that comes behind others. -/
def wifiReplies (us : Station) (earlier : List (Surroundings × Frame)) (w : Surroundings)
    (fr : Frame) : List WifiTx :=
  (wifiNetPoll us.mac (nodeAfter us earlier) w fr).2

/-- The data frame from the chip holds the Ethernet frame. -/
structure Carries (fr f : Frame) : Prop where
  chan : chan fr = 2
  header : doff fr + 4 < fr.len
  same : SameBytes f (ether fr)

variable {us : Station} {f g fr : Frame} {n : Node} {w : Surroundings}

theorem wifiHandleFrame_wifiIp (mac : Fin 6 → UInt8) (n : Node) (w : Surroundings) (fr : Frame) :
    (wifiHandleFrame mac n w fr).1.wifiIp = n.wifiIp := by
  unfold wifiHandleFrame
  dsimp only
  split_ifs
  · rfl
  · rfl
  · rfl
  · exact (n.aodvIpIn_cases w _).1
  · exact (n.aodvIpIn_cases w _).1
  · rfl

theorem wifiNetPoll_wifiIp (mac : Fin 6 → UInt8) (n : Node) (w : Surroundings) (fr : Frame) :
    (wifiNetPoll mac n w fr).1.wifiIp = n.wifiIp := by
  unfold wifiNetPoll
  split_ifs
  · exact wifiHandleFrame_wifiIp mac n w fr
  · rfl

theorem nodeAfter_wifiIp (us : Station) (earlier : List (Surroundings × Frame)) :
    (nodeAfter us earlier).wifiIp = us.ip := by
  have hkeep (n : Node) : (earlier.foldl (fun n r => (wifiNetPoll us.mac n r.1 r.2).1) n).wifiIp =
      n.wifiIp := by
    induction earlier generalizing n with
    | nil => rfl
    | cons r earlier ih => exact (ih _).trans (wifiNetPoll_wifiIp us.mac n r.1 r.2)
  exact hkeep (bootNode us.ip)

/-- Every frame may come from the chip. -/
def carrier (f : Frame) : Frame where
  bytes o := if o < 16 then [0, 0, 0, 0, 0, 2, 0, 12].getD o 0 else f.bytes (o - 16)
  len := 16 + f.len

theorem ether_carrier (f : Frame) : ether (carrier f) = f := by
  have hbytes : (ether (carrier f)).bytes = f.bytes := by
    funext o
    have hbyte : (ether (carrier f)).bytes o =
      if 16 + o < 16 then [0, 0, 0, 0, 0, 2, 0, 12].getD (16 + o) 0 else f.bytes (16 + o - 16) := rfl
    rw [hbyte, if_neg (by omega), Nat.add_sub_cancel_left]
  have hlen : (ether (carrier f)).len = f.len := Nat.add_sub_cancel_left 16 f.len
  exact congrArg₂ Frame.mk hbytes hlen

theorem carries_carrier (h : 0 < f.len) : Carries (carrier f) f where
  chan := by
    have hbyte : (carrier f).bytes 5 = 2 := rfl
    rw [Wifi.chan, hbyte]
    decide
  header := by
    have hdoff : doff (carrier f) = 12 := rfl
    have hlen : (carrier f).len = 16 + f.len := rfl
    omega
  same := by
    rw [ether_carrier]
    exact ⟨rfl, fun _ _ => rfl⟩

/-- The buffer of the reply says what an answer says. -/
theorem wifiEchoReply_buffer (hf : EchoShape us f) :
    EchoBuffer us (slice f.bytes 0 6) f (wifiEchoReply f) := by
  have hheader := hf.header
  have hmessage := hf.message
  have hip : slice f.bytes 30 4 = ipBytes us.ip := by
    rw [← hf.dst]
    rfl
  have hsrc : (slice f.bytes 0 6).length = 6 := length_slice
  have hends := readdressed_putEnds (b := f.bytes) hf (fun _ _ => rfl) hsrc
  rw [← hip] at hends
  constructor
  · refine hends.congr hheader fun i h₁ h₂ h₃ h₄ h₅ => ?_
    unfold wifiEchoReply
    rw [putChecksum_of_ne h₁ h₂, putChecksum_of_ne h₄ h₅, fill, fill, Function.update_of_ne h₃]
  · exact putChecksum_verifies (m := 10) rfl rfl (by omega)
  · unfold wifiEchoReply
    dsimp only
    rw [slice_putChecksum_of_disjoint (by omega), slice_putChecksum_of_disjoint (by omega)]
    exact slice_fill _ _ [0]
  · unfold wifiEchoReply
    dsimp only
    rw [slice_putChecksum_of_disjoint (by omega)]
    exact putChecksum_verifies (m := 2) rfl rfl (by omega)

theorem wifiEchoReply_congr (h : SameBytes f g) (hlen : 42 ≤ f.len) (hmessage : ihl f + 8 ≤ ipTotal f)
    (hin : 14 + ipTotal f ≤ f.len) :
    ∀ i < 14 + ipTotal f, wifiEchoReply f i = wifiEchoReply g i := by
  unfold wifiEchoReply putEnds
  rw [← h.ihl (by omega), ← h.ipTotal (by omega), ← h.slice (o := 6) (n := 6) (by omega),
    ← h.slice (o := 0) (n := 6) (by omega), ← h.slice (o := 30) (n := 4) (by omega),
    ← h.slice (o := 26) (n := 4) (by omega)]
  refine putChecksum_congr (fun i hi => ?_) (by omega)
  refine putChecksum_congr (fun i hi => fill_congr _ _ ?_) (by omega) i hi
  exact fill_congr _ _ (fill_congr _ _ (fill_congr _ _ (fill_congr _ _ (h.bytes i (by omega)))))

/-- A packet that the core may send on or answer: a route request, a route reply for
another node, or a packet that is only passing through. -/
def Relayed (ip : Net.Ip4) (e : Packet) : Prop :=
  (e.proto = 17 ∧ e.dport = aodvPort ∧
      (e.p.kind = aodvRreq ∨ e.p.kind = aodvRrep ∧ e.p.orig ≠ ip)) ∨
    (e.proto ≠ 17 ∧ e.dst ≠ ip ∧ e.dst 0 ≠ 255)

/-- Nothing is sent for other packets, and what is left for the echo responder does not
depend on the node. -/
theorem aodvIpIn_of_not_relayed {e : Packet} (h : ¬ Relayed n.wifiIp e) :
    (n.aodvIpIn w e).2 = ([], decide (e.proto = 17 ∧ e.dport = aodvPort)) := by
  unfold Relayed at h
  push Not at h
  obtain ⟨hudp, hother⟩ := h
  have hkinds : aodvRrep ≠ aodvRreq := by decide
  by_cases hproto : e.proto = 17
  · by_cases hport : e.dport = aodvPort
    · obtain ⟨hreq, hrep⟩ := hudp hproto hport
      by_cases hkind : e.p.kind = aodvRrep
      · simp [Node.aodvIpIn, hproto, hport, hkind, hkinds, hrep hkind]
      · simp [Node.aodvIpIn, hproto, hport, hkind, hreq]
    · simp [Node.aodvIpIn, hproto, hport]
  · have hhere : ¬ (e.dst ≠ n.wifiIp ∧ e.dst 0 ≠ 255) := fun hd => hd.2 (hother hproto hd.1)
    simp only [Node.aodvIpIn, hproto, if_false, if_neg hhere]
    simp

theorem aodvIpIn_request {e : Packet} (hreq : e.IsRequest)
    (hnew : n.aodvSeen w.behind e.p.orig e.p.rid = false) :
    (n.aodvIpIn w e).1.gRt = aodvAdd n.gRt e.p.orig e.src (e.p.hop + 1) e.p.seq ∧
      (n.aodvIpIn w e).1.gSeenN = n.gSeenN + 1 ∧ ∃ m, (n.aodvIpIn w e).2 = ([m], true) := by
  obtain ⟨hproto, hport, hkind⟩ := hreq
  simp only [Node.aodvIpIn, hproto, hport, hkind, hnew, if_true, ne_eq, not_true_eq_false, if_false,
    Bool.false_eq_true]
  split_ifs
  · exact ⟨rfl, rfl, _, rfl⟩
  · exact ⟨rfl, rfl, _, rfl⟩

theorem bootNode_aodvSeen (ip : Net.Ip4) (behind : ℕ → Net.Ip4 × UInt16) (o : Net.Ip4) (id : UInt16) :
    (bootNode ip).aodvSeen behind o id = false := rfl

/-- The route request of a neighbour, with its address for the originator. -/
def requestPayload (d : Net.Ip4) : List UInt8 :=
  [aodvRreq, 0, 0, d 0, d 1, d 2, d 3, 0, 0, 0, 0, 0, 0, 0, 0, 0]

def requestFrame (d : Net.Ip4) : Frame := udpFrame d aodvPort aodvPort (requestPayload d)

theorem ihl_requestFrame (d : Net.Ip4) : ihl (ether (requestFrame d)) = 20 := by
  have hbyte : (ether (requestFrame d)).bytes 14 = 0x45 := rfl
  rw [ihl, hbyte]
  decide

theorem requestFrame_isRequest (d : Net.Ip4) :
    (packetOf (ether (requestFrame d))).IsRequest ∧
      (packetOf (ether (requestFrame d))).p.orig = d := by
  have hp (k : Fin 16) : (packetOf (ether (requestFrame d))).p k =
      (ether (requestFrame d)).bytes (42 + k) := by
    have hunfold : (packetOf (ether (requestFrame d))).p k =
      (ether (requestFrame d)).bytes (14 + ihl (ether (requestFrame d)) + 8 + k) := rfl
    rw [hunfold, ihl_requestFrame]
  have hdport : (packetOf (ether (requestFrame d))).dport = aodvPort := by
    have hunfold : (packetOf (ether (requestFrame d))).dport =
      be16 (ether (requestFrame d)).bytes (14 + ihl (ether (requestFrame d)) + 2) := rfl
    rw [hunfold, ihl_requestFrame]
    exact udpFrame_dport d aodvPort aodvPort (requestPayload d)
  have hkind : (packetOf (ether (requestFrame d))).p.kind = aodvRreq := by
    rw [Payload.kind, hp]
    rfl
  refine ⟨⟨rfl, hdport, hkind⟩, ?_⟩
  unfold Payload.orig
  rw [hp, hp, hp, hp]
  funext k
  fin_cases k <;> rfl

theorem wifiNetPoll_ipv4 (mac : Fin 6 → UInt8) (n : Node) (w : Surroundings) (h : Carries fr f)
    (htype : be16 f.bytes 12 = 0x0800) (hlen : 42 ≤ f.len) : wifiNetPoll mac n w fr =
      ((n.aodvIpIn w (packetOf (ether fr))).1, (n.aodvIpIn w (packetOf (ether fr))).2.1.map .packet ++
        if (n.aodvIpIn w (packetOf (ether fr))).2.2 then []
        else wifiIcmp (n.aodvIpIn w (packetOf (ether fr))).1.wifiIp (ether fr)) := by
  have htype' : be16 (ether fr).bytes 12 = 0x0800 := by rwa [← h.same.be16 (by omega)]
  have hlen' : 42 ≤ (ether fr).len := h.same.len ▸ hlen
  have harp : ¬ (be16 (ether fr).bytes 12 = 0x0806 ∧ 42 ≤ (ether fr).len) := by
    rw [htype']
    exact fun h => absurd h.1 (by decide)
  rw [wifiNetPoll, if_pos ⟨h.chan, h.header⟩, wifiHandleFrame]
  dsimp only
  rw [if_neg (by omega), if_neg harp, if_pos ⟨htype', by omega⟩]

/-- A node that has a route to `d` after one frame. -/
theorem learned (us : Station) (d : Net.Ip4) (w : Surroundings) :
    Within (nodeAfter us [(w, requestFrame d)]).gRt d 255 ∧
      ∃ i, ((nodeAfter us [(w, requestFrame d)]).gRt i).valid = false := by
  obtain ⟨hreq, horig⟩ := requestFrame_isRequest d
  have hcarries : Carries (requestFrame d) (ether (requestFrame d)) := by
    refine ⟨?_, ?_, rfl, fun _ _ => rfl⟩
    · have hbyte : (requestFrame d).bytes 5 = 2 := rfl
      rw [chan, hbyte]
      decide
    · have hdoff : doff (requestFrame d) = 12 := rfl
      have hlen : (requestFrame d).len = 74 := rfl
      omega
  have htype : be16 (ether (requestFrame d)).bytes 12 = 0x0800 := by
    have hhigh : (ether (requestFrame d)).bytes 12 = 0x08 := rfl
    have hlow : (ether (requestFrame d)).bytes 13 = 0x00 := rfl
    rw [be16, hhigh, hlow]
    decide
  have hlen : (ether (requestFrame d)).len = 58 := rfl
  have hnode : nodeAfter us [(w, requestFrame d)] =
      ((bootNode us.ip).aodvIpIn w (packetOf (ether (requestFrame d)))).1 := by
    have hpoll := wifiNetPoll_ipv4 us.mac (bootNode us.ip) w hcarries htype (by omega)
    exact congrArg Prod.fst hpoll
  have hadd := (aodvIpIn_request (n := bootNode us.ip) (w := w) hreq rfl).1
  rw [hnode, hadd, horig]
  refine ⟨(aodvAdd_within _ _ _ _ _).mono (Nat.le_of_lt_succ (UInt8.toNat_lt _)), ?_⟩
  -- one slot is written, and there is another one
  obtain ⟨i, hi⟩ : ∃ i : Fin aodvNrt, i ≠ aodvSlot (bootNode us.ip).gRt d := by
    have : Nontrivial (Fin aodvNrt) := inferInstanceAs (Nontrivial (Fin 16))
    exact exists_ne _
  obtain hsame | ⟨hslot, _⟩ := aodvAdd_apply (bootNode us.ip).gRt d
    (packetOf (ether (requestFrame d))).src ((packetOf (ether (requestFrame d))).p.hop + 1)
    (packetOf (ether (requestFrame d))).p.seq i
  · exact ⟨i, by rw [hsame]; rfl⟩
  · exact absurd hslot hi

theorem aodvFind_of_within {rt : Routes} {d : Net.Ip4} {k : ℕ} (h : Within rt d k) :
    ∃ i, aodvFind rt d = some i := by
  obtain ⟨r, hvalid, hdst, _⟩ := h
  cases hfind : aodvFind rt d with
  | none => exact absurd hdst (aodvFind_none hfind hvalid)
  | some i => exact ⟨i, rfl⟩

/-- A route request is not answered again. -/
theorem aodvIpIn_again {e : Packet} (hreq : e.IsRequest) (ip : Net.Ip4) (w : Surroundings) :
    (((bootNode ip).aodvIpIn w e).1.aodvIpIn w e).2 = ([], true) := by
  have hring := Node.aodvIpIn_seenRing (bootNode ip) w e
  rw [if_pos ⟨hreq, bootNode_aodvSeen ip _ _ _⟩] at hring
  obtain ⟨hat, hcount⟩ := Prod.mk.inj hring
  apply Node.aodvIpIn_of_seen hreq
  rw [Node.aodvSeen_iff]
  refine ⟨0, ?_, ?_⟩
  · rw [hcount]
    exact Nat.one_pos
  · exact congrFun hat 0

/-- A node with a route sends the packet of another on, when it finds its next hop. -/
theorem aodvIpIn_reply {e : Packet} (hproto : e.proto = 17) (hport : e.dport = aodvPort)
    (hkind : e.p.kind = aodvRrep) (horig : e.p.orig ≠ n.wifiIp) {i : Fin aodvNrt}
    (hroute : aodvFind (n.learn e.p.dst e).gRt e.p.orig = some i) :
    (n.aodvIpIn w e).2 = (if w.resolved then
      [(n.learn e.p.dst e).wifiUdpTx ((n.learn e.p.dst e).gRt i).nh e.p.further] else [], true) := by
  have hkinds : aodvRrep ≠ aodvRreq := by decide
  simp only [Node.aodvIpIn, hproto, hport, hkind, hkinds, horig, hroute, if_true, ne_eq,
    not_true_eq_false, if_false, Node.learn_wifiIp]
  split_ifs <;> rfl

theorem aodvIpIn_transit {e : Packet} (hproto : e.proto ≠ 17) (hdst : e.dst ≠ n.wifiIp)
    (hcast : e.dst 0 ≠ 255) {i : Fin aodvNrt} (hroute : aodvFind n.gRt e.dst = some i) :
    (n.aodvIpIn w e).2 = (if w.resolved then [e] else [], true) := by
  simp only [Node.aodvIpIn, hproto, hdst, hcast, hroute, if_false, if_true, ne_eq, not_false_eq_true,
    and_self]
  split_ifs <;> rfl

/-- Surroundings in which the next hop is found, or not. -/
def found (resolved : Bool) : Surroundings where
  behind _ := (0, 0)
  resolved := resolved
  stack₁ := 0
  stack₂ := 0

/-- What is sent for a packet of the AODV core depends on more than the packet. -/
theorem relayed_differs (htype : be16 f.bytes 12 = 0x0800) (hlen : 42 ≤ f.len)
    (h : Relayed us.ip (packetOf f)) : ∃ earlier w earlier' w',
    wifiReplies us earlier w (carrier f) ≠ wifiReplies us earlier' w' (carrier f) := by
  have hcarries := carries_carrier (f := f) (by omega)
  have hsent (earlier : List (Surroundings × Frame)) (w : Surroundings) :=
    congrArg Prod.snd (wifiNetPoll_ipv4 us.mac (nodeAfter us earlier) w hcarries htype hlen)
  simp only [ether_carrier] at hsent
  -- the packet is consumed; it is sent on if the next hop is found
  have hsplit (earlier : List (Surroundings × Frame))
      (hboth : ∃ m, ∀ w, ((nodeAfter us earlier).aodvIpIn w (packetOf f)).2 =
        (if w.resolved then [m] else [], true)) :
      wifiReplies us earlier (found true) (carrier f) ≠ wifiReplies us earlier (found false) (carrier f) := by
    obtain ⟨m, hboth⟩ := hboth
    unfold wifiReplies
    rw [hsent, hsent, hboth, hboth]
    simp [found]
  obtain ⟨hproto, hport, hkind⟩ | ⟨hproto, hdst, hcast⟩ := h
  · obtain hreq | ⟨hrep, horig⟩ := hkind
    · have hrequest : (packetOf f).IsRequest := ⟨hproto, hport, hreq⟩
      obtain ⟨_, _, m, hfirst⟩ := aodvIpIn_request (n := bootNode us.ip) (w := found true) hrequest rfl
      have hnode : nodeAfter us [(found true, carrier f)] =
          ((bootNode us.ip).aodvIpIn (found true) (packetOf f)).1 := by
        have hpoll := wifiNetPoll_ipv4 us.mac (bootNode us.ip) (found true) hcarries htype hlen
        rw [ether_carrier] at hpoll
        exact congrArg Prod.fst hpoll
      refine ⟨[], found true, [(found true, carrier f)], found true, ?_⟩
      unfold wifiReplies
      rw [hsent, hsent, hnode, aodvIpIn_again hrequest]
      have hboot : nodeAfter us [] = bootNode us.ip := rfl
      rw [hboot, hfirst]
      simp
    · obtain ⟨hwithin, hroom⟩ := learned us (packetOf f).p.orig (found true)
      have hkept : Within ((nodeAfter us [(found true, requestFrame (packetOf f).p.orig)]).learn
          (packetOf f).p.dst (packetOf f)).gRt (packetOf f).p.orig 255 := hwithin.aodvAdd (Or.inr hroom)
      obtain ⟨i, hi⟩ := aodvFind_of_within hkept
      have horig' : (packetOf f).p.orig ≠
          (nodeAfter us [(found true, requestFrame (packetOf f).p.orig)]).wifiIp := by
        rwa [nodeAfter_wifiIp]
      exact ⟨_, _, _, _, hsplit _ ⟨_, fun w => aodvIpIn_reply hproto hport hrep horig' hi⟩⟩
  · obtain ⟨hwithin, _⟩ := learned us (packetOf f).dst (found true)
    obtain ⟨i, hi⟩ := aodvFind_of_within hwithin
    have hdst' : (packetOf f).dst ≠
        (nodeAfter us [(found true, requestFrame (packetOf f).dst)]).wifiIp := by
      rwa [nodeAfter_wifiIp]
    exact ⟨_, _, _, _, hsplit _ ⟨_, fun w => aodvIpIn_transit hproto hdst' hcast hi⟩⟩

end XinuRpi4.Wifi
