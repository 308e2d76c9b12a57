import XinuRpi4.Foundation.NextHops
import XinuRpi4.Routing.Aodv

/-!
# AODV routes have no loops

A control message about a destination carries a hop count that its sender can
vouch for: the sender is the destination or holds a route that is not longer.
While no table overflows, an entry is only ever replaced by a shorter one for
the same destination, so what a node can vouch for once it can vouch for
later. Hop counts therefore fall along the routes.
-/

namespace XinuRpi4.Routing

open XinuRpi4.Foundation

/-- The table holds a route to `d` of at most `k` hops. -/
def Within (rt : Routes) (d : Ip4) (k : ℕ) : Prop :=
  ∃ r, (rt r).valid = true ∧ (rt r).dst = d ∧ (rt r).hops.toNat ≤ k

/-- No destination has two entries. -/
def Single (rt : Routes) : Prop :=
  ∀ r r', (rt r).valid = true → (rt r').valid = true → (rt r).dst = (rt r').dst → r = r'

def HasRoom (rt : Routes) (d : Ip4) : Prop :=
  (∃ r, aodvFind rt d = some r) ∨ ∃ r, (rt r).valid = false

variable {rt : Routes} {d d' nh : Ip4} {hops : UInt8} {seq : UInt32} {r : Fin aodvNrt} {k k' : ℕ}

theorem aodvFind_some (h : aodvFind rt d = some r) : (rt r).valid = true ∧ (rt r).dst = d := by
  have := (Fin.find?_eq_some_iff.mp h).1
  simpa using this

theorem aodvFind_none (h : aodvFind rt d = none) (hv : (rt r).valid = true) : (rt r).dst ≠ d := by
  have := Fin.find?_eq_none_iff.mp h r
  simpa [hv] using this

theorem Single.aodvFind (hs : Single rt) (hv : (rt r).valid = true) :
    aodvFind rt (rt r).dst = some r := by
  cases hf : Routing.aodvFind rt (rt r).dst with
  | none => exact absurd rfl (aodvFind_none hf hv)
  | some r' =>
    obtain ⟨hv', hd'⟩ := aodvFind_some hf
    rw [hs r' r hv' hv hd']

theorem Within.mono (h : Within rt d k) (hk : k ≤ k') : Within rt d k' := by
  obtain ⟨r, hv, hd, hr⟩ := h
  exact ⟨r, hv, hd, hr.trans hk⟩

/-- With room, the slot that is written holds the destination or nothing. -/
theorem aodvSlot_of_hasRoom (h : HasRoom rt d) :
    aodvFind rt d = some (aodvSlot rt d) ∨
      aodvFind rt d = none ∧ (rt (aodvSlot rt d)).valid = false := by
  unfold aodvSlot
  cases hf : aodvFind rt d with
  | some r => exact Or.inl rfl
  | none =>
    refine Or.inr ⟨rfl, ?_⟩
    cases hi : Fin.find? fun i => !(rt i).valid with
    | some r => simpa using (Fin.find?_eq_some_iff.mp hi).1
    | none =>
      obtain ⟨r, hr⟩ | ⟨r, hr⟩ := h
      · simp [hf] at hr
      · have := Fin.find?_eq_none_iff.mp hi r
        simp [hr] at this

/-- What `aodv_add` leaves in a slot. -/
theorem aodvAdd_apply (rt : Routes) (d nh : Ip4) (hops : UInt8) (seq : UInt32) (r : Fin aodvNrt) :
    aodvAdd rt d nh hops seq r = rt r ∨
      r = aodvSlot rt d ∧ ((rt r).valid = true → (rt r).dst = d → hops < (rt r).hops) ∧
        aodvAdd rt d nh hops seq r =
          { dst := d, nh := nh, hops := hops, seq := seq, valid := true } := by
  unfold aodvAdd
  by_cases hkeep : (rt (aodvSlot rt d)).valid = true ∧ (rt (aodvSlot rt d)).hops ≤ hops ∧
      (rt (aodvSlot rt d)).dst = d
  · simp [hkeep]
  · by_cases hr : r = aodvSlot rt d
    · subst hr
      right
      refine ⟨rfl, ?_, by simp [hkeep]⟩
      intro hv hd
      by_contra hlt
      exact hkeep ⟨hv, UInt8.not_lt.mp hlt, hd⟩
    · left
      simp [hkeep, hr]

theorem aodvAdd_within (rt : Routes) (d nh : Ip4) (hops : UInt8) (seq : UInt32) :
    Within (aodvAdd rt d nh hops seq) d hops.toNat := by
  unfold aodvAdd
  by_cases hkeep : (rt (aodvSlot rt d)).valid = true ∧ (rt (aodvSlot rt d)).hops ≤ hops ∧
      (rt (aodvSlot rt d)).dst = d
  · simp only [hkeep, and_self, if_true]
    exact ⟨_, hkeep.1, hkeep.2.2, hkeep.2.1⟩
  · simp only [hkeep, if_false]
    exact ⟨aodvSlot rt d, by simp⟩

/-- With room, no route gets longer or lost. -/
theorem Within.aodvAdd (h : Within rt d' k) (hroom : HasRoom rt d) :
    Within (aodvAdd rt d nh hops seq) d' k := by
  obtain ⟨r, hv, hd, hr⟩ := h
  obtain hsame | ⟨hslot, hshorter, hnew⟩ := aodvAdd_apply rt d nh hops seq r
  · exact ⟨r, by rw [hsame]; exact ⟨hv, hd, hr⟩⟩
  · obtain hf | ⟨_, hfree⟩ := aodvSlot_of_hasRoom hroom
    · have hdd : (rt r).dst = d := by
        rw [hslot]
        exact (aodvFind_some hf).2
      have hlt : hops.toNat < (rt r).hops.toNat := hshorter hv hdd
      refine ⟨r, by rw [hnew], ?_, ?_⟩
      · rw [hnew, ← hd, hdd]
      · rw [hnew]
        exact (hlt.le).trans hr
    · rw [← hslot, hv] at hfree
      simp at hfree

theorem Single.aodvAdd (hs : Single rt) (hroom : HasRoom rt d) :
    Single (aodvAdd rt d nh hops seq) := by
  -- the slot that is written is the only one of its destination
  have hother : ∀ r, (rt r).valid = true → (rt r).dst = d → r = aodvSlot rt d := by
    intro r hv hd
    obtain hf | ⟨hf, _⟩ := aodvSlot_of_hasRoom hroom
    · obtain ⟨hv', hd'⟩ := aodvFind_some hf
      exact hs _ _ hv hv' (hd.trans hd'.symm)
    · exact absurd hd (aodvFind_none hf hv)
  intro r r' hv hv' hd
  obtain h | ⟨hr, _, h⟩ := aodvAdd_apply rt d nh hops seq r <;>
    obtain h' | ⟨hr', _, h'⟩ := aodvAdd_apply rt d nh hops seq r' <;>
    rw [h] at hv hd <;> rw [h'] at hv' hd
  · exact hs r r' hv hv' hd
  · exact (hother r hv hd).trans hr'.symm
  · exact hr.trans (hother r' hv' hd.symm).symm
  · exact hr.trans hr'.symm

/-- The packet is a control message that teaches a route to `d`. -/
def Packet.Teaches (e : Packet) (d : Ip4) : Prop :=
  e.proto = 17 ∧ e.dport = aodvPort ∧
    (e.p.kind = aodvRreq ∧ e.p.orig = d ∨ e.p.kind = aodvRrep ∧ e.p.dst = d)

namespace Payload

variable (p : Payload) (kind b₁ b₂ : UInt8) (orig dst : Ip4)

@[simp] theorem further_kind : p.further.kind = p.kind := by
  simp [further, Payload.kind]

@[simp] theorem further_orig : p.further.orig = p.orig := by
  simp [further, Payload.orig]

@[simp] theorem further_dst : p.further.dst = p.dst := by
  simp [further, Payload.dst]

@[simp] theorem further_hop : p.further.hop = p.hop + 1 := by
  simp [further, Payload.hop]

@[simp] theorem build_kind : (build kind b₁ b₂ orig dst seq).kind = kind := rfl

@[simp] theorem build_orig : (build kind b₁ b₂ orig dst seq).orig = orig := by
  funext i
  fin_cases i <;> rfl

@[simp] theorem build_dst : (build kind b₁ b₂ orig dst seq).dst = dst := by
  funext i
  fin_cases i <;> rfl

end Payload

namespace Node

variable {n : Node} {w : Surroundings} {e m : Packet}

@[simp] theorem learn_wifiIp : (n.learn d e).wifiIp = n.wifiIp := rfl

@[simp] theorem learn_gRt :
    (n.learn d e).gRt = aodvAdd n.gRt d e.src (e.p.hop + 1) e.p.seq := rfl

@[simp] theorem aodvRemember_wifiIp (o : Ip4) (id : UInt16) :
    (n.aodvRemember o id).wifiIp = n.wifiIp := rfl

@[simp] theorem aodvRemember_gRt (o : Ip4) (id : UInt16) :
    (n.aodvRemember o id).gRt = n.gRt := rfl

/-- A message that the node with address `ip` puts on the air when it has learned
a route to `d` from `e`: the same one hop further, or where the node is. -/
def Says (ip d : Ip4) (e m : Packet) : Prop :=
  m.src = ip ∧ ∀ d', m.Teaches d' → d' = ip ∨ d' = d ∧ m.p.hop = e.p.hop + 1

theorem says_further (h : e.Teaches d) (dip : Ip4) :
    Says n.wifiIp d e (n.wifiUdpTx dip e.p.further) := by
  refine ⟨rfl, fun d' h' => Or.inr ⟨?_, by simp [wifiUdpTx]⟩⟩
  obtain ⟨_, _, h⟩ := h
  obtain ⟨_, _, h'⟩ := h'
  simp only [wifiUdpTx, Payload.further_kind, Payload.further_orig, Payload.further_dst] at h'
  obtain ⟨hk, ho⟩ | ⟨hk, hd⟩ := h <;> obtain ⟨hk', ho'⟩ | ⟨hk', hd'⟩ := h'
  · exact ho'.symm.trans ho
  · rw [hk] at hk'
    exact absurd hk' (by decide)
  · rw [hk] at hk'
    exact absurd hk' (by decide)
  · exact hd'.symm.trans hd

theorem says_reply (n : Node) (w : Surroundings) :
    Says n.wifiIp d e (n.aodvReply w e).2 := by
  refine ⟨rfl, fun d' h => Or.inl ?_⟩
  obtain ⟨_, _, ⟨hk, _⟩ | ⟨_, hd⟩⟩ := h
  · simp [aodvReply, wifiUdpTx, aodvRrep, aodvRreq] at hk
  · simpa [aodvReply, wifiUdpTx] using hd.symm

/-- What the handler does: it keeps the table and sends at most the packet
itself on, or it enters a route and sends at most a message that says so. -/
theorem aodvIpIn_cases (n : Node) (w : Surroundings) (e : Packet) :
    (n.aodvIpIn w e).1.wifiIp = n.wifiIp ∧
      ((n.aodvIpIn w e).1.gRt = n.gRt ∧ (∀ m ∈ (n.aodvIpIn w e).2.1, m = e) ∨
        ∃ d, n.learns w e = some d ∧ e.Teaches d ∧
          (n.aodvIpIn w e).1.gRt = aodvAdd n.gRt d e.src (e.p.hop + 1) e.p.seq ∧
          ∀ m ∈ (n.aodvIpIn w e).2.1, Says n.wifiIp d e m) := by
  by_cases hproto : e.proto = 17
  · by_cases hport : e.dport = aodvPort
    · by_cases hrreq : e.p.kind = aodvRreq
      · have hteach : e.Teaches e.p.orig := ⟨hproto, hport, Or.inl ⟨hrreq, rfl⟩⟩
        by_cases hseen : n.aodvSeen w.behind e.p.orig e.p.rid = true
        · simp [aodvIpIn, hproto, hport, hrreq, hseen]
        · have hlearns : n.learns w e = some e.p.orig := by
            simp [learns, hproto, hport, hrreq, hseen]
          let n₁ := (n.aodvRemember e.p.orig e.p.rid).learn e.p.orig e
          by_cases hme : e.p.dst = n.wifiIp
          · have hin : n.aodvIpIn w e = ((n₁.aodvReply w e).1, [(n₁.aodvReply w e).2], true) := by
              simp [aodvIpIn, hproto, hport, hrreq, hseen, hme, n₁]
            rw [hin]
            refine ⟨rfl, Or.inr ⟨_, hlearns, hteach, rfl, ?_⟩⟩
            simpa [n₁] using says_reply n₁ w
          · have hin : n.aodvIpIn w e = (n₁, [n₁.aodvBcast e.p.further], true) := by
              simp [aodvIpIn, hproto, hport, hrreq, hseen, hme, n₁]
            rw [hin]
            refine ⟨rfl, Or.inr ⟨_, hlearns, hteach, rfl, ?_⟩⟩
            simpa using! says_further (n := n₁) hteach _
      · by_cases hrrep : e.p.kind = aodvRrep
        · have hteach : e.Teaches e.p.dst := ⟨hproto, hport, Or.inr ⟨hrrep, rfl⟩⟩
          have hlearns : n.learns w e = some e.p.dst := by
            simp [learns, hproto, hport, hrrep, show aodvRrep ≠ aodvRreq by decide]
          let n₁ := n.learn e.p.dst e
          -- the message goes no further, or along the route to the originator
          have hin : n.aodvIpIn w e = (n₁, [], true) ∨
              ∃ dip, n.aodvIpIn w e = (n₁, [n₁.wifiUdpTx dip e.p.further], true) := by
            by_cases hme : e.p.orig = n.wifiIp
            · exact Or.inl (by simp [aodvIpIn, hproto, hport, hrrep, hme, n₁, aodvRrep, aodvRreq])
            · cases hf : aodvFind n₁.gRt e.p.orig with
              | none =>
                refine Or.inl ?_
                simp [n₁] at hf
                simp [aodvIpIn, hproto, hport, hrrep, hme, n₁, hf, aodvRrep, aodvRreq]
              | some rr =>
                simp [n₁] at hf
                by_cases hw : w.resolved = true
                · refine Or.inr ⟨(n₁.gRt rr).nh, ?_⟩
                  simp [aodvIpIn, hproto, hport, hrrep, hme, n₁, hf, hw, aodvRrep, aodvRreq]
                · refine Or.inl ?_
                  simp [aodvIpIn, hproto, hport, hrrep, hme, n₁, hf, hw, aodvRrep, aodvRreq]
          obtain hin | ⟨dip, hin⟩ := hin <;> rw [hin]
          · exact ⟨rfl, Or.inr ⟨_, hlearns, hteach, rfl, by simp⟩⟩
          · refine ⟨rfl, Or.inr ⟨_, hlearns, hteach, rfl, ?_⟩⟩
            simpa using! says_further (n := n₁) hteach dip
        · simp [aodvIpIn, hproto, hport, hrreq, hrrep]
    · simp [aodvIpIn, hproto, hport]
  · by_cases htransit : e.dst ≠ n.wifiIp ∧ e.dst 0 ≠ 255
    · cases hf : aodvFind n.gRt e.dst with
      | none => simp [aodvIpIn, hproto, htransit, hf]
      | some r => by_cases hw : w.resolved = true <;> simp [aodvIpIn, hproto, htransit, hf, hw]
    · simp [aodvIpIn, hproto, htransit]

end Node

variable {ι : Type*} {net : Network ι} {s s' : Air ι}

/-- The node with address `a` can send towards `d`, as far as `k` hops. -/
def Air.Vouches (net : Network ι) (s : Air ι) (a d : Ip4) (k : ℕ) : Prop :=
  ∃ j, net.addr j = a ∧ (a = d ∨ Within (s.node j).gRt d k)

structure RoutesSound (net : Network ι) (s : Air ι) : Prop where
  own : ∀ i, (s.node i).wifiIp = net.addr i
  single : ∀ i, Single (s.node i).gRt
  sent : ∀ m ∈ s.sent, ∀ d, m.Teaches d → s.Vouches net m.src d m.p.hop.toNat
  routes : ∀ i r, ((s.node i).gRt r).valid = true → ((s.node i).gRt r).dst ≠ net.addr i →
    ∃ k < ((s.node i).gRt r).hops.toNat,
      s.Vouches net ((s.node i).gRt r).nh ((s.node i).gRt r).dst k

theorem Air.Vouches.keep {a : Ip4} (h : s.Vouches net a d k)
    (hkeep : ∀ j, Within (s.node j).gRt d k → Within (s'.node j).gRt d k) :
    s'.Vouches net a d k := by
  obtain ⟨j, hj, rfl | hw⟩ := h
  · exact ⟨j, hj, Or.inl rfl⟩
  · exact ⟨j, hj, Or.inr (hkeep j hw)⟩

theorem routesSound_start (net : Network ι) : RoutesSound net net.start where
  own _ := rfl
  single i r r' hv := by simp [Network.start] at hv
  sent := by simp [Network.start]
  routes i r hv := by simp [Network.start] at hv

section Steps

variable [DecidableEq ι]

/-- A node that keeps its table may send what its table vouches for. -/
theorem RoutesSound.put_same (hs : RoutesSound net s) {i : ι} {n : Node} {out : List Packet}
    (hip : n.wifiIp = (s.node i).wifiIp) (hrt : n.gRt = (s.node i).gRt)
    (hout : ∀ m ∈ out, ∀ d, m.Teaches d → s.Vouches net m.src d m.p.hop.toNat) :
    RoutesSound net (s.put i n out) := by
  have hrts : ∀ j, ((s.put i n out).node j).gRt = (s.node j).gRt := by
    intro j
    by_cases hj : j = i
    · subst hj
      simp [Air.put, hrt]
    · simp [Air.put, hj]
  have hkeep : ∀ a d k, s.Vouches net a d k → (s.put i n out).Vouches net a d k := by
    intro a d k h
    exact h.keep fun j hw => by rwa [hrts]
  constructor
  · intro j
    by_cases hj : j = i
    · subst hj
      simp [Air.put, hip, hs.own]
    · simp [Air.put, hj, hs.own]
  · intro j
    rw [hrts]
    exact hs.single j
  · intro m hm d hd
    apply hkeep
    rcases List.mem_append.mp hm with hm | hm
    · exact hout m hm d hd
    · exact hs.sent m hm d hd
  · intro j r hv hd
    rw [hrts] at hv hd ⊢
    obtain ⟨k, hk, h⟩ := hs.routes j r hv hd
    exact ⟨k, hk, hkeep _ _ _ h⟩

/-- A node enters the route that a packet in flight teaches. -/
theorem RoutesSound.put_learned (hs : RoutesSound net s) {i : ι} {e : Packet} {n : Node}
    {out : List Packet} (he : e ∈ s.sent) (hd : e.Teaches d) (hroom : HasRoom (s.node i).gRt d)
    (hhop : e.p.hop.toNat + 1 < 256) (hip : n.wifiIp = (s.node i).wifiIp)
    (hrt : n.gRt = aodvAdd (s.node i).gRt d e.src (e.p.hop + 1) e.p.seq)
    (hout : ∀ m ∈ out, Node.Says (s.node i).wifiIp d e m) :
    RoutesSound net (s.put i n out) := by
  have hhops : (e.p.hop + 1).toNat = e.p.hop.toNat + 1 := by
    rw [UInt8.toNat_add]
    exact Nat.mod_eq_of_lt hhop
  have hself : (s.put i n out).node i = n := by simp [Air.put]
  have hrest : ∀ j, j ≠ i → (s.put i n out).node j = s.node j := by
    intro j hj
    simp [Air.put, hj]
  have hwithin : ∀ j d' k, Within (s.node j).gRt d' k →
      Within ((s.put i n out).node j).gRt d' k := by
    intro j d' k hw
    by_cases hj : j = i
    · subst hj
      rw [hself, hrt]
      exact hw.aodvAdd hroom
    · rwa [hrest j hj]
  have hkeep : ∀ a d' k, s.Vouches net a d' k → (s.put i n out).Vouches net a d' k :=
    fun a d' k h => h.keep fun j => hwithin j d' k
  constructor
  · intro j
    by_cases hj : j = i
    · subst hj
      rw [hself, hip, hs.own]
    · rw [hrest j hj, hs.own]
  · intro j
    by_cases hj : j = i
    · subst hj
      rw [hself, hrt]
      exact (hs.single j).aodvAdd hroom
    · rw [hrest j hj]
      exact hs.single j
  · intro m hm d' hd'
    rcases List.mem_append.mp hm with hm | hm
    · obtain ⟨hsrc, hsays⟩ := hout m hm
      refine ⟨i, by rw [hsrc, hs.own], ?_⟩
      obtain rfl | ⟨rfl, hmhop⟩ := hsays d' hd'
      · exact Or.inl hsrc
      · right
        rw [hself, hrt, hmhop]
        exact aodvAdd_within _ _ _ _ _
    · exact hkeep _ _ _ (hs.sent m hm d' hd')
  · intro j r hv hne
    by_cases hj : j = i
    · subst hj
      rw [hself, hrt] at hv hne ⊢
      obtain hold | ⟨_, _, hnew⟩ :=
        aodvAdd_apply (s.node j).gRt d e.src (e.p.hop + 1) e.p.seq r
      · rw [hold] at hv hne ⊢
        obtain ⟨k, hk, h⟩ := hs.routes j r hv hne
        exact ⟨k, hk, hkeep _ _ _ h⟩
      · rw [hnew]
        exact ⟨e.p.hop.toNat, by simp [hhops], hkeep _ _ _ (hs.sent e he d hd)⟩
    · rw [hrest j hj] at hv hne ⊢
      obtain ⟨k, hk, h⟩ := hs.routes j r hv hne
      exact ⟨k, hk, hkeep _ _ _ h⟩

/-- The step lemma. -/
theorem RoutesSound.step (hs : RoutesSound net s) {ev : Event ι} (hfits : s.Fits ev)
    (hstep : s.step ev = some s') : RoutesSound net s' := by
  cases ev with
  | discover i dst =>
    obtain rfl := Option.some.inj hstep
    refine hs.put_same rfl rfl ?_
    intro m hm d hd
    -- a request teaches a route to the node that sends it
    obtain rfl := List.mem_singleton.mp hm
    obtain ⟨_, _, ⟨_, ho⟩ | ⟨hk, _⟩⟩ := hd
    · refine ⟨i, (hs.own i).symm, Or.inl ?_⟩
      simpa [Node.aodvBcast, Node.wifiUdpTx] using ho
    · simp [Node.aodvBcast, Node.wifiUdpTx, aodvRrep, aodvRreq] at hk
  | receive i e w =>
    simp only [Air.step] at hstep
    split_ifs at hstep with he
    obtain rfl := Option.some.inj hstep
    obtain ⟨hip, ⟨hrt, hout⟩ | ⟨d, hlearns, hd, hrt, hout⟩⟩ :=
      Node.aodvIpIn_cases (s.node i) w e
    · refine hs.put_same hip hrt ?_
      intro m hm d hd
      obtain rfl := hout m hm
      exact hs.sent m he d hd
    · obtain ⟨hroom, hhop⟩ := hfits d hlearns
      exact hs.put_learned he hd hroom hhop hip hrt hout
  | transit e =>
    simp only [Air.step] at hstep
    split_ifs at hstep with hproto
    obtain rfl := Option.some.inj hstep
    refine ⟨hs.own, hs.single, ?_, hs.routes⟩
    intro m hm d hd
    rcases List.mem_cons.mp hm with rfl | hm
    · exact absurd hd.1 hproto
    · exact hs.sent m hm d hd

/-- The run lemma. -/
theorem Air.routesSound (h : Reachable Air.step Air.Fits net.start s) : RoutesSound net s :=
  h.invariant (RoutesSound net) (routesSound_start net) fun _ _ _ hs hfits hstep =>
    hs.step hfits hstep

end Steps

/-- Node `i` holds a route to `d` of `h` hops, and node `j` is its next hop. -/
def Air.Via (net : Network ι) (s : Air ι) (d : Ip4) (i j : ι) (h : ℕ) : Prop :=
  ∃ r, aodvFind (s.node i).gRt d = some r ∧ net.addr j = ((s.node i).gRt r).nh ∧
    ((s.node i).gRt r).hops.toNat = h

/-- The next-hop graph for the destination `d`. -/
abbrev Air.NextHop (net : Network ι) (s : Air ι) (d : Ip4) : ι → ι → Prop :=
  Hop (fun i => net.addr i = d) (s.Via net d)

theorem RoutesSound.descends (hs : RoutesSound net s) (d : Ip4) :
    Descends (fun i => net.addr i = d) (s.Via net d) where
  oneEstimate := by
    rintro i j j' h h' ⟨r, hr, _, rfl⟩ ⟨r', hr', _, rfl⟩
    rw [hr] at hr'
    cases hr'
    rfl
  closer := by
    rintro i j h hi ⟨r, hr, hj, rfl⟩
    obtain ⟨hv, rfl⟩ := aodvFind_some hr
    obtain ⟨k, hk, j', hj', hnear⟩ := hs.routes i r hv (Ne.symm hi)
    obtain rfl := net.distinct (hj.trans hj'.symm)
    refine ⟨by omega, ?_⟩
    by_cases htarget : net.addr j = ((s.node i).gRt r).dst
    · exact Or.inl htarget
    · obtain hnh | ⟨r', hv', hd', hle⟩ := hnear
      · exact absurd (hj.trans hnh) htarget
      · right
        obtain ⟨_, _, j'', hj'', _⟩ := hs.routes j r' hv' (by rw [hd']; exact Ne.symm htarget)
        refine ⟨j'', _, ⟨r', ?_, hj'', rfl⟩, hle.trans_lt hk⟩
        rw [← hd']
        exact (hs.single j).aodvFind hv'

/-- Loop freedom: a route leads to its destination or to a node with a shorter
one, the next-hop graphs have no cycles, and following a route reaches its
destination within its hop count. -/
theorem routes_loop_free [DecidableEq ι] (net : Network ι)
    (h : Reachable Air.step Air.Fits net.start s) :
    (∀ i r, ((s.node i).gRt r).valid = true → ((s.node i).gRt r).dst ≠ net.addr i →
      ∃ j, net.addr j = ((s.node i).gRt r).nh ∧
        (((s.node i).gRt r).nh = ((s.node i).gRt r).dst ∨
          ∃ r', ((s.node j).gRt r').valid = true ∧
            ((s.node j).gRt r').dst = ((s.node i).gRt r).dst ∧
            ((s.node j).gRt r').hops.toNat + 1 ≤ ((s.node i).gRt r).hops.toNat)) ∧
    (∀ d i, ¬ Relation.TransGen (s.NextHop net d) i i) ∧
    ∀ d i r, aodvFind (s.node i).gRt d = some r →
      ∃ n ≤ ((s.node i).gRt r).hops.toNat, ∃ j, net.addr j = d ∧
        Follows (s.NextHop net d) n i j := by
  have hs := Air.routesSound h
  refine ⟨?_, fun d i => (hs.descends d).acyclic i, ?_⟩
  · intro i r hv hd
    obtain ⟨k, hk, j, hj, hnear⟩ := hs.routes i r hv hd
    refine ⟨j, hj, hnear.imp_right ?_⟩
    rintro ⟨r', hv', hd', hle⟩
    exact ⟨r', hv', hd', by omega⟩
  · intro d i r hr
    by_cases hi : net.addr i = d
    · exact ⟨0, Nat.zero_le _, i, hi, .here i⟩
    · obtain ⟨hv, hd⟩ := aodvFind_some hr
      obtain ⟨_, _, j, hj, _⟩ := hs.routes i r hv (by rw [hd]; exact Ne.symm hi)
      exact (hs.descends d).reaches ⟨r, hr, hj, rfl⟩

/-- Two nodes, 10.0.0.1 and 10.0.0.2. -/
def pair : Network (Fin 2) where
  addr := ![![10, 0, 0, 1], ![10, 0, 0, 2]]
  distinct := by decide

/-- The first node looks for the second, which answers. -/
def discovery : List (Event (Fin 2)) :=
  let w : Surroundings := { behind := fun _ => (0, 0), resolved := true, stack₁ := 0, stack₂ := 0 }
  [.discover 0 (pair.addr 1),
    .receive 1 ⟨pair.addr 0, ![255, 255, 255, 255], 17, aodvPort,
      ![1, 1, 0, 10, 0, 0, 1, 10, 0, 0, 2, 1, 0, 0, 0, 0]⟩ w,
    .receive 0 ⟨pair.addr 1, pair.addr 0, 17, aodvPort,
      ![2, 0, 0, 10, 0, 0, 1, 10, 0, 0, 2, 1, 0, 0, 0, 0]⟩ w]

theorem discovery_runs : (exec Air.step pair.start discovery).isSome := by
  decide

theorem routes_loop_free_pair :
    ∃ s, Reachable Air.step Air.Fits pair.start s ∧
      (∃ r, aodvFind (s.node 0).gRt (pair.addr 1) = some r ∧ ((s.node 0).gRt r).hops = 1) ∧
      ∀ d i, ¬ Relation.TransGen (s.NextHop pair d) i i := by
  have hreach : Reachable Air.step Air.Fits pair.start
      ((exec Air.step pair.start discovery).get discovery_runs) :=
    Reachable.start.exec (by decide) (Option.some_get discovery_runs).symm
  exact ⟨_, hreach, by decide, (routes_loop_free pair hreach).2.1⟩

end XinuRpi4.Routing
