import XinuRpi4.Dhcp.Servers
import XinuRpi4.Foundation.Runs

/-!
# The parameters a DHCP client uses

A run of the client together with the server it has sent its request to and the
ACK it was bound by. The client takes all parameters from an OFFER and only the
address from the ACK, and hands out the address in every state.
-/

namespace XinuRpi4.Dhcp

open XinuRpi4.Foundation XinuRpi4.Net

/-- A client, the server of the OFFER that it has requested, and the ACK that it
was bound by. -/
structure Adoption where
  client : DhcpClient
  requested : Ip4
  ack : Option DhcpReply
deriving DecidableEq

namespace Adoption

variable (a : Adoption) (m : DhcpReply)

/-- The client handles a reply with its transaction id. -/
def take : Adoption where
  client := (a.client.handleReply m).1
  requested := if a.client.TakesOffer m then m.opts.serverId else a.requested
  ack := if a.client.TakesAck m then some m else a.ack

def step : DhcpEvent → Option Adoption
  | .discover => some { a with client := a.client.dhcpSendDiscover.1 }
  | .receive f => some ((a.client.replyIn f).elim a a.take)

/-- A client that has been told its hardware address. -/
def start (mac : Mac) : Adoption where
  client := DhcpClient.boot.dhcpSetMac mac
  requested := 0
  ack := none

/-- The client is not bound, and has no address, or it is bound by an ACK of the
requested server and uses what that says. -/
def Adopted : Prop :=
  (a.client.gState ≠ .bound → a.client.dhcpGetIp = 0) ∧
    (a.client.gState = .bound →
      ∃ m, a.ack = some m ∧ m.opts.serverId = a.requested ∧ a.client.gMyIp = m.yiaddr ∧
        a.client.gNetmask = m.opts.netmask ∧ a.client.gRouterIp = m.opts.router ∧
        a.client.gLeaseSecs = m.opts.lease)

/-- A bound client keeps its parameters when a NAK or an OFFER comes in. -/
def Steadfast : DhcpEvent → Prop
  | .discover => True
  | .receive f =>
    ∀ m, decode f = some m → m.opts.msgType = 2 ∨ m.opts.msgType = 6 → a.client.gState = .bound →
      ∀ a', a.step (.receive f) = some a' → a'.client.parameters = a.client.parameters

/-- A reply that does no harm: an OFFER that the client takes has no address, an
ACK that it takes is from the server it has requested and repeats the OFFER, and
a NAK finds no bound client with an address. -/
def Harmless : Prop :=
  (a.client.TakesOffer m → m.yiaddr = 0) ∧
    (a.client.TakesAck m →
      m.opts.serverId = a.client.gServerIp ∧ m.opts.netmask = a.client.gNetmask ∧
        m.opts.router = a.client.gRouterIp ∧ m.opts.lease = a.client.gLeaseSecs) ∧
    (m.opts.msgType = 6 → a.client.gState = .bound → a.client.gMyIp = 0)

/-- The replies with the client's transaction id do no harm. -/
def Faithful : DhcpEvent → Prop
  | .discover => True
  | .receive f => ∀ m ∈ a.client.replyIn f, a.Harmless m

/-- What holds along a faithful run. -/
structure Inv : Prop where
  adopted : a.Adopted
  requested : a.client.gState = .requestSent ∨ a.client.gState = .bound →
    a.requested = a.client.gServerIp

variable {a m}

theorem start_inv (mac : Mac) : (start mac).Inv where
  adopted := ⟨fun _ => rfl, nofun⟩
  requested := by rintro (h | h) <;> cases h

theorem discover_inv (h : a.Inv) :
    ({ a with client := a.client.dhcpSendDiscover.1 } : Adoption).Inv := by
  rcases a.client.dhcpSendDiscover_state with hkeep | ⟨hinit, hsent⟩
  · exact
      { adopted := ⟨fun hb => h.adopted.1 (hkeep ▸ hb), fun hb => h.adopted.2 (hkeep ▸ hb)⟩
        requested := fun hb => h.requested (hkeep ▸ hb) }
  · refine ⟨⟨fun _ => h.adopted.1 ?_, fun hb => ?_⟩, fun hb => ?_⟩
    · rw [hinit]
      decide
    · exact absurd (hsent.symm.trans hb) (by decide)
    · exact absurd (hb.imp hsent.symm.trans hsent.symm.trans) (by decide)

/-- The OFFER that the client takes. -/
theorem take_offer (h : a.client.TakesOffer m) :
    (a.take m).client.gState = .requestSent ∧ (a.take m).client.gMyIp = m.yiaddr ∧
      (a.take m).client.gServerIp = (a.take m).requested := by
  simp [take, DhcpClient.handleReply_offer h, h]

/-- The ACK that the client takes. -/
theorem take_ack (h : a.client.TakesAck m) :
    (a.take m).client =
        { a.client with
          gAckCount := a.client.gAckCount + 1, gMyIp := m.yiaddr, gState := .bound } ∧
      (a.take m).requested = a.requested ∧ (a.take m).ack = some m := by
  have hoffer : ¬ a.client.TakesOffer m := by
    intro h'
    exact absurd (h.2.symm.trans h'.2) (by decide)
  simp [take, DhcpClient.handleReply_ack h, h, hoffer]

theorem take_other (hoffer : ¬ a.client.TakesOffer m) (hack : ¬ a.client.TakesAck m) :
    a.take m =
      { a with
        client :=
          { a.client with gState := if m.opts.msgType = 6 then .init else a.client.gState } } := by
  simp [take, DhcpClient.handleReply_other hoffer hack, hoffer, hack]

/-- What a reply does to the state that an OFFER or an ACK has not changed. -/
theorem take_inv (h : a.Inv) (hm : a.Harmless m) : (a.take m).Inv := by
  by_cases hoffer : a.client.TakesOffer m
  · obtain ⟨hstate, hip, hserver⟩ := take_offer hoffer
    refine ⟨⟨fun _ => hip.trans (hm.1 hoffer), fun hb => ?_⟩, fun _ => hserver.symm⟩
    exact absurd (hstate.symm.trans hb) (by decide)
  by_cases hack : a.client.TakesAck m
  · obtain ⟨hclient, hrequested, hlog⟩ := take_ack hack
    have hserver := h.requested (.inl hack.2)
    obtain ⟨hid, hmask, hrouter, hlease⟩ := hm.2.1 hack
    refine ⟨⟨fun hb => ?_, fun _ => ?_⟩, fun _ => ?_⟩
    · rw [hclient] at hb
      exact absurd rfl hb
    · rw [hclient, hrequested, hlog]
      exact ⟨m, rfl, hid.trans hserver.symm, rfl, hmask.symm, hrouter.symm, hlease.symm⟩
    · rw [hclient, hrequested]
      exact hserver
  rw [take_other hoffer hack]
  by_cases hnak : m.opts.msgType = 6
  · simp only [hnak, if_true]
    refine ⟨⟨fun _ => ?_, nofun⟩, by rintro (hb | hb) <;> cases hb⟩
    by_cases hbound : a.client.gState = .bound
    · exact hm.2.2 hnak hbound
    · exact h.adopted.1 hbound
  · simp only [hnak, if_false]
    exact h

/-- A reply that does harm breaks the adoption at once. -/
theorem take_broken (h : a.Inv) (hm : ¬ a.Harmless m) : ¬ (a.take m).Adopted := by
  intro hadopted
  refine hm ⟨fun hoffer => ?_, fun hack => ?_, fun hnak hbound => ?_⟩
  · obtain ⟨hstate, hip, -⟩ := take_offer hoffer
    rw [← hip]
    exact hadopted.1 (by rw [hstate]; decide)
  · obtain ⟨hclient, hrequested, hlog⟩ := take_ack hack
    obtain ⟨m', hm', hid, -, hmask, hrouter, hlease⟩ := hadopted.2 (by rw [hclient])
    cases hlog.symm.trans hm'
    rw [hclient] at hmask hrouter hlease
    exact ⟨(hid.trans hrequested).trans (h.requested (.inl hack.2)), hmask.symm, hrouter.symm,
      hlease.symm⟩
  · have hoffer : ¬ a.client.TakesOffer m := fun h' => absurd (hbound.symm.trans h'.2) (by decide)
    have hack : ¬ a.client.TakesAck m := fun h' => absurd (hbound.symm.trans h'.2) (by decide)
    rw [take_other hoffer hack, if_pos hnak] at hadopted
    exact hadopted.1 nofun

theorem step_inv {e : DhcpEvent} {a' : Adoption} (h : a.Inv) (he : a.Faithful e)
    (hstep : a.step e = some a') : a'.Inv := by
  cases e with
  | discover =>
    cases hstep
    exact discover_inv h
  | receive f =>
    cases hf : a.client.replyIn f with
    | none =>
      simp only [step, hf] at hstep
      cases hstep
      exact h
    | some m =>
      simp only [step, hf] at hstep
      cases hstep
      exact take_inv h (he m hf)

theorem step_broken {e : DhcpEvent} {a' : Adoption} (h : a.Inv) (he : ¬ a.Faithful e)
    (hstep : a.step e = some a') : ¬ a'.Adopted := by
  cases e with
  | discover => exact absurd trivial he
  | receive f =>
    simp only [Faithful, not_forall] at he
    obtain ⟨m, hf, hm⟩ := he
    rw [Option.mem_def] at hf
    simp only [step, hf] at hstep
    cases hstep
    exact take_broken h hm

/-- No reply changes the parameters of a bound client. -/
theorem take_bound (hbound : a.client.gState = .bound) :
    (a.take m).client.parameters = a.client.parameters := by
  have hoffer : ¬ a.client.TakesOffer m := fun h' => absurd (hbound.symm.trans h'.2) (by decide)
  have hack : ¬ a.client.TakesAck m := fun h' => absurd (hbound.symm.trans h'.2) (by decide)
  rw [take_other hoffer hack]
  rfl

theorem steadfast (a : Adoption) (e : DhcpEvent) : a.Steadfast e := by
  cases e with
  | discover => trivial
  | receive f =>
    intro _ _ _ hbound a' hstep
    cases hf : a.client.replyIn f with
    | none =>
      simp only [step, hf] at hstep
      cases hstep
      rfl
    | some m =>
      simp only [step, hf] at hstep
      cases hstep
      exact take_bound hbound

/-- Every run goes on to its end. -/
theorem exec_isSome (a : Adoption) (es : List DhcpEvent) : (exec step a es).isSome := by
  induction es generalizing a with
  | nil => rfl
  | cons e es ih => cases e <;> exact ih _

/-- A run adopts what it should, and a bound client keeps it, exactly when no
reply in it does harm. -/
theorem adopted_iff_faithful (mac : Mac) (es : List DhcpEvent) :
    Always step Adopted (start mac) es ∧ EachStep step Steadfast (start mac) es ↔
      EachStep step Faithful (start mac) es := by
  have hsteadfast : EachStep step Steadfast (start mac) es :=
    EachStep.of_forall (fun a e _ => a.steadfast e) _
  rw [and_iff_left hsteadfast]
  exact always_iff_eachStep Inv Adopted (fun _ h => h.adopted) (fun _ _ _ => step_inv)
    (fun _ _ _ => step_broken) (start_inv mac) (exec_isSome _ es)

/-- The client hands the offered address out while it waits for the ACK. -/
theorem offered_address_in_use :
    ¬ (Always step Adopted (start 0) [.discover, .receive (replyFrame homeOffer)] ∧
      EachStep step Steadfast (start 0) [.discover, .receive (replyFrame homeOffer)]) := by
  rintro ⟨halways, -⟩
  have hreply : ({ start 0 with client := (start 0).client.dhcpSendDiscover.1 } :
      Adoption).client.replyIn (replyFrame homeOffer) = some homeOffer := by
    rw [DhcpClient.replyIn, decode_replyFrame]
    decide
  have hrun : exec step (start 0) [.discover, .receive (replyFrame homeOffer)] =
      some (take { start 0 with client := (start 0).client.dhcpSendDiscover.1 } homeOffer) := by
    simp only [exec, step, Option.bind_some, hreply, Option.elim_some]
  have hip := (halways.of_exec hrun).1 (by decide)
  exact absurd hip (by decide)

end Adoption

end XinuRpi4.Dhcp
