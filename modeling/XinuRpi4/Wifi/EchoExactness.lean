import XinuRpi4.Wifi.Responder

/-!
# Echo replies are exact

Both responders answer an echo request with the request itself, and what they transmit for
a frame does not depend on other frames: when the packet lies in the frame, fills the
shortest frame and fits the buffer, and when the frame is not one for the AODV core.
-/

namespace XinuRpi4.Wifi

open XinuRpi4.Foundation XinuRpi4.Net XinuRpi4.Routing

/-- What the responders transmit for a frame. -/
structure EchoesExactly (us : Station) (f : Frame) : Prop where
  wired : EchoRequest us f → ∀ earlier, ∃ r, wiredReplies us earlier f = [r] ∧
    EchoAnswer us (macBytes us.mac) f r
  wifi : EchoRequest us f → ∀ earlier w fr, Carries fr f →
    ∃ r, wifiReplies us earlier w fr = [.frame r] ∧ EchoAnswer us (slice f.bytes 0 6) f r
  wiredOwn : ∀ g, SameBytes f g → ∀ earlier earlier',
    wiredReplies us earlier f = wiredReplies us earlier' g
  wifiOwn : ∀ fr fr', Carries fr f → Carries fr' f → ∀ earlier w earlier' w',
    wifiReplies us earlier w fr = wifiReplies us earlier' w' fr'
  short : be16 f.bytes 12 = 0x0800 → f.len < 14 + ipTotal f →
    (∀ earlier, wiredReplies us earlier f = []) ∧
      ∀ earlier w fr, Carries fr f → wifiReplies us earlier w fr = []

/-- The packet of an echo request lies in the frame, fills the shortest frame and fits the
buffer, or it does neither lie in the frame nor fit the buffer. -/
def EchoFits (us : Station) (f : Frame) : Prop :=
  EchoShape us f → 60 ≤ 14 + ipTotal f ∧ 14 + ipTotal f ≤ min f.len 1518 ∨
    max f.len 1518 < 14 + ipTotal f

/-- Whatever lies behind the frame, the AODV core does not answer it or send it on. -/
def NotRelayed (us : Station) (f : Frame) : Prop :=
  be16 f.bytes 12 = 0x0800 → 42 ≤ f.len → ∀ g, SameBytes f g → ¬ Relayed us.ip (packetOf g)

variable {us : Station} {f g fr : Frame}

theorem wifiIcmp_congr (h : SameBytes f g) (hlen : 42 ≤ f.len) (ip : Net.Ip4) :
    wifiIcmp ip f = wifiIcmp ip g := by
  have hihl := h.ihl (by omega)
  have htotal := h.ipTotal (by omega)
  unfold wifiIcmp
  rw [← h.bytes 23 (by omega), ← h.ip4At (by omega), ← hihl, ← htotal, ← h.len]
  by_cases hin : ihl f + 8 ≤ ipTotal f ∧ 14 + ipTotal f ≤ f.len
  · have hslice : slice (wifiEchoReply f) 0 (14 + ipTotal f) = slice (wifiEchoReply g) 0 (14 + ipTotal f) :=
      slice_congr fun i _ hi => wifiEchoReply_congr h hlen hin.1 hin.2 i (by omega)
    rw [h.bytes (14 + ihl f) (by omega), hslice]
  · simp only [hin, and_false, if_false]

/-- What the driver transmits for a frame that is not one for the AODV core. -/
def wifiAnswers (us : Station) (f : Frame) : List WifiTx :=
  if ArpRequest us f then wifiDataTx (wifiArpReply us.mac us.ip f)
  else if be16 f.bytes 12 = 0x0800 ∧ 42 ≤ f.len then wifiIcmp us.ip f
  else []

theorem wifiArpReply_congr (h : SameBytes f g) (hlen : 42 ≤ f.len) :
    wifiArpReply us.mac us.ip f = wifiArpReply us.mac us.ip g := by
  unfold wifiArpReply
  rw [h.slice (o := 6) (n := 6) (by omega), h.slice (o := 22) (n := 6) (by omega),
    h.slice (o := 28) (n := 4) (by omega)]

theorem wifiReplies_of_not_relayed (hquiet : NotRelayed us f) (h : Carries fr f)
    (earlier : List (Surroundings × Frame)) (w : Surroundings) :
    wifiReplies us earlier w fr = wifiAnswers us f := by
  have hnode := nodeAfter_wifiIp us earlier
  unfold wifiReplies wifiAnswers
  by_cases hip : be16 f.bytes 12 = 0x0800 ∧ 42 ≤ f.len
  · obtain ⟨htype, hlen⟩ := hip
    have harp : ¬ ArpRequest us f := by
      intro harp
      rw [harp.2.1] at htype
      exact absurd htype (by decide)
    have hnot : ¬ Relayed (nodeAfter us earlier).wifiIp (packetOf (ether fr)) := by
      rw [hnode]
      exact hquiet htype hlen (ether fr) h.same
    have hsent := aodvIpIn_of_not_relayed (w := w) hnot
    have hkeep := ((nodeAfter us earlier).aodvIpIn_cases w (packetOf (ether fr))).1
    rw [if_neg harp, if_pos ⟨htype, hlen⟩, wifiNetPoll_ipv4 us.mac _ w h htype hlen, hsent, hkeep, hnode,
      wifiIcmp_congr h.same hlen]
    by_cases hudp : (packetOf (ether fr)).proto = 17 ∧ (packetOf (ether fr)).dport = aodvPort
    · have hproto : (ether fr).bytes 23 = 17 := hudp.1
      simp [hudp, wifiIcmp, hproto]
    · simp [hudp]
  · rw [if_neg hip, wifiNetPoll, if_pos ⟨h.chan, h.header⟩, wifiHandleFrame]
    dsimp only
    rw [hnode, ← h.same.len]
    by_cases hshort : f.len < 14
    · have harp : ¬ ArpRequest us f := fun harp => by
        have := harp.1
        omega
      rw [if_pos hshort, if_neg harp]
    · rw [if_neg hshort, ← h.same.be16 (o := 12) (by omega)]
      by_cases harp : be16 f.bytes 12 = 0x0806 ∧ 42 ≤ f.len
      · rw [if_pos harp, ← h.same.be16 (o := 20) (by omega), ← h.same.ip4At (o := 38) (by omega),
          ← wifiArpReply_congr h.same harp.2]
        by_cases hreq : be16 f.bytes 20 = 1 ∧ ip4At f.bytes 38 = us.ip
        · have hpos : ArpRequest us f := ⟨harp.2, harp.1, hreq⟩
          rw [if_pos hreq, if_pos hpos]
        · have hneg : ¬ ArpRequest us f := fun h => hreq h.2.2
          rw [if_neg hreq, if_neg hneg]
      · have hneg : ¬ ArpRequest us f := fun h => harp ⟨h.2.1, h.1⟩
        rw [if_neg harp, if_neg hip, if_neg hneg]

theorem EchoFits.wired (h : EchoFits us f) (hreq : EchoRequest us f) (earlier : List Frame) :
    ∃ r, wiredReplies us earlier f = [r] ∧ EchoAnswer us (macBytes us.mac) f r := by
  have htotal := hreq.total
  obtain ⟨hlong, hfit⟩ | hover := h hreq.toEchoShape
  · have hmax : max 60 (14 + ipTotal f) = 14 + ipTotal f := by omega
    have hhandle := netResponderHandle_echo (txReplyAfter us earlier) hreq.toEchoShape (by omega)
    refine ⟨_, congrArg Prod.snd hhandle, ?_⟩
    rw [hmax]
    exact (echoReply_buffer _ hreq.toEchoShape).answer hreq.toEchoShape le_rfl
      fun i hlo hhi => absurd hhi (by omega)
  · omega

theorem not_arpRequest (h : EchoShape us f) : ¬ ArpRequest us f :=
  fun harp => not_echoShape_of_arp harp.2.1 h

theorem wifiAnswers_echo (hreq : EchoRequest us f) (hfit : 14 + ipTotal f ≤ 1518) :
    wifiAnswers us f = [.frame (slice (wifiEchoReply f) 0 (14 + ipTotal f))] := by
  have hinside := hreq.inside
  have hheader := hreq.header
  unfold wifiAnswers wifiIcmp wifiDataTx
  rw [if_neg (not_arpRequest hreq.toEchoShape), if_pos ⟨hreq.ethertype, by omega⟩,
    if_pos ⟨hreq.proto, hreq.dst⟩, if_pos ⟨hreq.request, hreq.message, hreq.total⟩,
    if_neg (by rw [length_slice]; omega)]

theorem EchoFits.wifi (h : EchoFits us f) (hquiet : NotRelayed us f) (hreq : EchoRequest us f)
    (earlier : List (Surroundings × Frame)) (w : Surroundings) (hfr : Carries fr f) :
    ∃ r, wifiReplies us earlier w fr = [.frame r] ∧ EchoAnswer us (slice f.bytes 0 6) f r := by
  have htotal := hreq.total
  obtain ⟨_, hfit⟩ | hover := h hreq.toEchoShape
  · refine ⟨slice (wifiEchoReply f) 0 (14 + ipTotal f), ?_, ?_⟩
    · rw [wifiReplies_of_not_relayed hquiet hfr, wifiAnswers_echo hreq (by omega)]
    · exact (wifiEchoReply_buffer hreq.toEchoShape).answer hreq.toEchoShape le_rfl
        fun i hlo hhi => absurd hhi (by omega)
  · omega

theorem EchoFits.own (h : EchoFits us f) (hsame : SameBytes f g) (earlier earlier' : List Frame) :
    wiredReplies us earlier f = wiredReplies us earlier' g := by
  unfold wiredReplies
  rw [netResponderHandle_sent, netResponderHandle_sent]
  by_cases harp : ArpRequest us f
  · rw [if_pos harp, if_pos (hsame.arpRequest harp)]
    exact congrArg (fun s => [s])
      (slice_congr fun i _ hi => arpReply_congr hsame _ _ harp.1 i (by omega))
  · rw [if_neg harp, if_neg (mt hsame.arpRequest_iff.mpr harp)]
    by_cases hf : EchoShape us f
    · have hinside := hf.inside
      have hheader := hf.header
      rw [← hsame.ipTotal (by omega)]
      by_cases hmax : ipTotal f + 14 ≤ 1518
      · rw [if_pos ⟨hf, hmax⟩, if_pos ⟨hsame.echoShape hf, hmax⟩]
        obtain ⟨hlong, hfit⟩ | hover := h hf
        · exact congrArg (fun s => [s]) (slice_congr fun i _ hi =>
            echoReply_congr hsame _ _ hf (by omega) i (by omega))
        · omega
      · rw [if_neg fun h => hmax h.2, if_neg fun h => hmax h.2]
    · rw [if_neg fun h => hf h.1, if_neg fun h => hf (hsame.echoShape_iff.mpr h.1)]

theorem EchoFits.short (h : EchoFits us f) (hquiet : NotRelayed us f)
    (htype : be16 f.bytes 12 = 0x0800) (hlen : f.len < 14 + ipTotal f) :
    (∀ earlier, wiredReplies us earlier f = []) ∧
      ∀ earlier w fr, Carries fr f → wifiReplies us earlier w fr = [] := by
  have harp : ¬ ArpRequest us f := by
    intro harp
    rw [harp.2.1] at htype
    exact absurd htype (by decide)
  constructor
  · intro earlier
    unfold wiredReplies
    rw [netResponderHandle_sent, if_neg harp, if_neg]
    rintro ⟨hf, hmax⟩
    obtain ⟨_, hfit⟩ | hover := h hf <;> omega
  · intro earlier w fr hfr
    have hin : ¬ (f.bytes (14 + ihl f) = 8 ∧ ihl f + 8 ≤ ipTotal f ∧ 14 + ipTotal f ≤ f.len) := by
      rintro ⟨_, _, hle⟩
      omega
    rw [wifiReplies_of_not_relayed hquiet hfr, wifiAnswers, if_neg harp, wifiIcmp, if_neg hin]
    split_ifs <;> rfl

/-- An echo request of 60 bytes that ends with a one. -/
def markedRequest (us : Station) : Frame where
  bytes o := ([0, 0, 0, 0, 0, 0, 0, 0, 0, 0, 0, 0, 0x08, 0x00,
    0x45, 0, 0, 46, 0, 0, 0, 0, 64, 1, 0, 0, 0, 0, 0, 0, us.ip 0, us.ip 1, us.ip 2, us.ip 3,
    8, 0, 0, 0, 0, 0, 0, 0, 0, 0, 0, 0, 0, 0, 0, 0, 0, 0, 0, 0, 0, 0, 0, 0, 0, 1] :
      List UInt8).getD o 0
  len := 60

theorem ihl_markedRequest (us : Station) : ihl (markedRequest us) = 20 := by
  have hbyte : (markedRequest us).bytes 14 = 0x45 := rfl
  rw [ihl, hbyte]
  decide

theorem ipTotal_markedRequest (us : Station) : ipTotal (markedRequest us) = 46 := by
  have hhigh : (markedRequest us).bytes 16 = 0 := rfl
  have hlow : (markedRequest us).bytes 17 = 46 := rfl
  rw [ipTotal, be16, hhigh, hlow]
  decide

theorem echoShape_markedRequest (us : Station) : EchoShape us (markedRequest us) := by
  have hihl := ihl_markedRequest us
  have htotal := ipTotal_markedRequest us
  have hlen : (markedRequest us).len = 60 := rfl
  have hhigh : (markedRequest us).bytes 12 = 0x08 := rfl
  have hlow : (markedRequest us).bytes 13 = 0x00 := rfl
  constructor
  · rw [be16, hhigh, hlow]
    decide
  · omega
  · rfl
  · funext k
    fin_cases k <;> rfl
  · omega
  · rw [hihl]
    rfl
  · omega

/-- The one of that request is left in the buffer. -/
theorem txReplyAfter_marked (us : Station) : txReplyAfter us [markedRequest us] 59 = 1 := by
  have hihl := ihl_markedRequest us
  have htotal := ipTotal_markedRequest us
  have hhandle := netResponderHandle_echo (fun _ => 0) (echoShape_markedRequest us) (by omega)
  have hbuf : txReplyAfter us [markedRequest us] = echoReply us (fun _ => 0) (markedRequest us) :=
    congrArg Prod.fst hhandle
  rw [hbuf, echoReply_payload _ (echoShape_markedRequest us) (by omega) (by omega)]
  rfl

theorem EchoesExactly.fits (h : EchoesExactly us f) : EchoFits us f := by
  intro hf
  have hinside := hf.inside
  have hheader := hf.header
  by_contra hnot
  push Not at hnot
  obtain ⟨hfit, hover⟩ := hnot
  by_cases hmax : ipTotal f + 14 ≤ 1518
  · have hhandle (earlier : List Frame) :=
      congrArg Prod.snd (netResponderHandle_echo (txReplyAfter us earlier) hf hmax)
    by_cases hin : 14 + ipTotal f ≤ f.len
    · -- a short reply ends with what an earlier one left in the buffer
      obtain ⟨r, hr, hanswer⟩ := h.wired ⟨hf, hin⟩ [markedRequest us]
      have hshort : max 60 (14 + ipTotal f) = 60 := by omega
      have hslice : r = slice (echoReply us (txReplyAfter us [markedRequest us]) f) 0 60 := by
        have hone := hr.symm.trans (hhandle [markedRequest us])
        rw [hshort] at hone
        exact List.singleton_inj.mp hone
      have hlast : r[59]? = some 1 := by
        have hlt : 59 < r.length := by
          rw [hslice, length_slice]
          decide
        have hget : r[59] = echoReply us (txReplyAfter us [markedRequest us]) f (0 + 59) := by
          simp only [hslice, getElem_slice]
        rw [List.getElem?_eq_getElem hlt, hget, echoReply_behind _ hf (by omega), Nat.zero_add,
          txReplyAfter_marked]
      have hmem : (1 : UInt8) ∈ r.drop (14 + ipTotal f) := by
        apply List.mem_of_getElem? (i := 59 - (14 + ipTotal f))
        rw [List.getElem?_drop, Nat.add_sub_cancel' (by omega)]
        exact hlast
      exact absurd (hanswer.padding 1 hmem) (by decide)
    · -- what lies behind the frame is sent
      have hnone := (h.short hf.ethertype (by omega)).1 []
      exact absurd ((hhandle []).symm.trans hnone) (List.cons_ne_nil _ _)
  · obtain ⟨r, hr, _⟩ := h.wired ⟨hf, by omega⟩ []
    have hnone : wiredReplies us [] f = [] := by
      unfold wiredReplies
      rw [netResponderHandle_sent, if_neg (not_arpRequest hf), if_neg fun h => hmax h.2]
    rw [hnone] at hr
    cases hr

theorem EchoesExactly.notRelayed (h : EchoesExactly us f) : NotRelayed us f := by
  intro htype hlen g hg hrelayed
  have htype' : be16 g.bytes 12 = 0x0800 := by rwa [← hg.be16 (by omega)]
  obtain ⟨earlier, w, earlier', w', hne⟩ := relayed_differs htype' (hg.len ▸ hlen) hrelayed
  have hcarrier : Carries (carrier g) f := by
    have hcarries := carries_carrier (f := g) (by have := hg.len; omega)
    refine ⟨hcarries.chan, hcarries.header, ?_⟩
    rwa [ether_carrier]
  exact hne (h.wifiOwn _ _ hcarrier hcarrier earlier w earlier' w')

theorem echoesExactly_of_fits (hfits : EchoFits us f) (hquiet : NotRelayed us f) :
    EchoesExactly us f where
  wired hreq earlier := hfits.wired hreq earlier
  wifi hreq earlier w _ hfr := hfits.wifi hquiet hreq earlier w hfr
  wiredOwn _ hg earlier earlier' := hfits.own hg earlier earlier'
  wifiOwn _ _ hfr hfr' earlier w earlier' w' :=
    (wifiReplies_of_not_relayed hquiet hfr earlier w).trans
      (wifiReplies_of_not_relayed hquiet hfr' earlier' w').symm
  short := hfits.short hquiet

/-- The replies to a frame are exact and its own if and only if the packet of an echo request
lies in the frame, fills the shortest frame and fits the buffer, and the frame is not one that
the AODV core answers or sends on. -/
theorem echoesExactly_iff (us : Station) (f : Frame) :
    EchoesExactly us f ↔ EchoFits us f ∧ NotRelayed us f :=
  ⟨fun h => ⟨h.fits, h.notRelayed⟩, fun h => echoesExactly_of_fits h.1 h.2⟩

def ourStation : Station where
  mac := fun _ => 2
  ip := ![192, 168, 3, 100]

/-- An echo request of 60 bytes whose IP header says 1500. -/
def longRequest : Frame where
  bytes o := ([0, 0, 0, 0, 0, 0, 0, 0, 0, 0, 0, 0, 0x08, 0x00,
    0x45, 0, 5, 220, 0, 0, 0, 0, 64, 1, 0, 0, 192, 168, 3, 2, 192, 168, 3, 100, 8] :
      List UInt8).getD o 0
  len := 60

/-- The reply has 1454 bytes that were not in the request. -/
theorem long_request_answered : ¬ EchoesExactly ourStation longRequest := by
  intro h
  have hshape : EchoShape ourStation longRequest := by decide
  obtain ⟨_, hfit⟩ | hover := h.fits hshape
  · exact absurd hfit (by decide)
  · exact absurd hover (by decide)

end XinuRpi4.Wifi
