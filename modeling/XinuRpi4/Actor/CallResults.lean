import XinuRpi4.Actor.CallMatching
import XinuRpi4.Actor.CallSimulation
import XinuRpi4.Actor.PendingCalls

/-!
# Synchronous calls of the actor system

When a blocked call has its answer on the way, and what it returns.

In every run that drops no request and no reply, and in which no actor ends that a
call still waits for, each process blocked in `ap_call` has its answer on the way.

In every run in which nothing poses as a reply and no slot is reused while a request
or a reply of its last owner is under way, each call returns what the handler of its
callee produced for its request.
-/

namespace XinuRpi4.Actor

open Foundation Process

namespace Sys

variable {s s' : Sys}

/-- Every process that is parked inside `ap_call` has its answer on the way: an
`AP_REPLY` in its mailbox, or a callee that exists and has the request, and gets on. -/
def AnswersComing (s : Sys) : Prop :=
  ∀ p self meths c f relock, s.kernel.state p = .wait →
    s.ctl p = .selecting self meths (.call c f) relock → s.view.Coming c

/-- The step keeps slots and processes together and loses no request and no answer. -/
def KeepsAnswers (s : Sys) (op : SysOp) : Prop :=
  s.KeepsSlots True op ∧ s.view.Answerable (s.act op)

theorem pending_answersComing (h : s.view.Pending) : s.AnswersComing := by
  intro p self meths c f relock hwait hctl
  refine h.coming p c ?_
  have hload : s.view.load p = ⟨some c, f.hand, none⟩ := by
    simp only [view, hwait, hctl]
    rfl
  rw [CallView.Blocked, hload]
  exact ⟨rfl, rfl⟩

theorem init_pending (lo hi : ℕ) (t : ActorTable) : (init lo hi t).view.Pending := by
  refine ⟨init_view_sound lo hi t, ?_, ?_⟩
  · intro p c d m hc
    rw [init_view_load] at hc
    cases hc
  · rintro p c ⟨hc, -⟩
    rw [init_view_load] at hc
    cases hc

/-- In every run whose steps keep answers, every blocked call has its answer on the way. -/
theorem blocked_call_answered (lo hi : ℕ) (t : ActorTable) (s : Sys)
    (h : Reachable step KeepsAnswers (init lo hi t) s) : s.AnswersComing := by
  have hinv : s.Base True ∧ s.Shaped ∧ s.view.Pending := by
    refine h.invariant (fun s => s.Base True ∧ s.Shaped ∧ s.view.Pending)
      ⟨init_base True lo hi t, fun _ => trivial, init_pending lo hi t⟩ ?_
    rintro s op s' ⟨hb, hsh, hp⟩ ⟨hslots, hans⟩ hstep
    exact ⟨hb.step hslots hstep, hsh.step hb hslots hstep,
      hp.next hans (hb.step_next hsh hp.toSound hslots hstep)⟩
  exact pending_answersComing hinv.2.2

/-- A post of a process that is in no call, with a message that is no request and no reply. -/
theorem keepsAnswers_post {d : ActorId} {m : ApMsg} {next : PostCont}
    (hcur : s.cur = .posting d m next) (htag : m.tag = none)
    (hcall : (s.view.load s.kernel.currpid).call = none) : s.KeepsAnswers .postStep := by
  refine ⟨trivial, ?_⟩
  simp only [act, hcur]
  refine ⟨fun h => absurd htag h, fun h => absurd hcall h⟩

/-- A request goes to another actor, which is in no call. -/
theorem keepsAnswers_request {d : ActorId} {m : ApMsg} {next : PostCont} {q : Slot}
    (hcur : s.cur = .posting d m next) (hroom : ¬ (s.table.act d).mailbox.Full)
    (hdead : ¬ s.table.dead d) (hq : s.view.owner d = some q) (hne : q ≠ s.kernel.currpid)
    (hcall : (s.view.load q).call = none) : s.KeepsAnswers .postStep := by
  refine ⟨trivial, ?_⟩
  simp only [act, hcur]
  refine ⟨fun _ => decide_eq_false hroom, fun _ => ⟨hdead, q, hq, fun hpath => ?_⟩⟩
  rcases hpath.cases_head with heq | ⟨r, ⟨c, e, hb, -⟩, -⟩
  · exact hne heq
  · rw [hb.1] at hcall
    cases hcall

/-- Actor 0 calls actor 1 and blocks. -/
theorem blocked_call_answered_pending :
    ∃ s, exec step (init 4096 65536 bootTable) [.spawn 0, .spawn 0, .send 0 7 0 0 0 0, .postStep,
        .resched, .recvStep 0, .lockStep, .call 1 3 0 0 0 0, .postStep, .selectStep] = some s ∧
      s.kernel.state 1 = .wait ∧ s.AnswersComing := by
  have hview : (exec step (init 4096 65536 bootTable) [.spawn 0, .spawn 0, .send 0 7 0 0 0 0,
      .postStep, .resched, .recvStep 0, .lockStep, .call 1 3 0 0 0 0, .postStep, .selectStep]).map
      (fun s => s.kernel.state 1) = some .wait := by decide
  obtain ⟨s, hs, hview⟩ := Option.map_eq_some_iff.mp hview
  refine ⟨s, hs, hview, blocked_call_answered 4096 65536 bootTable s (Reachable.start.exec ?_ hs)⟩
  have hspawn : ∀ s : Sys, s.Base False → s.KeepsAnswers (.spawn 0) := by
    intro s hb
    have hkeeps : s.KeepsSlots False (.spawn 0) := NoSelfKill.keepsSlots hb trivial
    refine ⟨hkeeps, ?_⟩
    simp only [act]
    split <;> trivial
  have hbase := init_base False 4096 65536 bootTable
  refine ⟨hspawn _ hbase, fun s₁ h₁ => ?_⟩
  have hkeeps : (init 4096 65536 bootTable).KeepsSlots False (.spawn 0) :=
    NoSelfKill.keepsSlots hbase trivial
  refine ⟨hspawn _ (hbase.step hkeeps h₁), fun s₂ h₂ => ⟨⟨trivial, ?_⟩, fun s₃ h₃ => ?_⟩⟩
  · simp only [act]
    split <;> trivial
  have hpost : (exec step (init 4096 65536 bootTable) [.spawn 0, .spawn 0, .send 0 7 0 0 0 0]).map
      (fun s => (s.cur, (s.view.load s.kernel.currpid).call)) =
      some (.posting 0 (sendMsg 7 0 0 0 0) (.send .code), none) := by decide
  simp only [exec, h₁, h₂, h₃, Option.bind_some, Option.map_some, Option.some.injEq,
    Prod.mk.injEq] at hpost
  refine ⟨keepsAnswers_post hpost.1 rfl hpost.2, fun s₄ h₄ => ⟨⟨trivial, trivial⟩, fun s₅ h₅ => ?_⟩⟩
  refine ⟨⟨trivial, ?_⟩, fun s₆ h₆ => ⟨⟨trivial, trivial⟩, fun s₇ h₇ => ?_⟩⟩
  · simp only [act]
    repeat' split
    all_goals trivial
  have hcall : (exec step (init 4096 65536 bootTable) [.spawn 0, .spawn 0, .send 0 7 0 0 0 0,
      .postStep, .resched, .recvStep 0, .lockStep]).map
      (fun s => (s.cur, s.view.owner 0, s.kernel.currpid, (s.table.postCheck 1).2)) =
      some (.running (.handler 0 (sendMsg 7 0 0 0 0)), some 1, 1, some 1) := by decide
  simp only [exec, h₁, h₂, h₃, h₄, h₅, h₆, h₇, Option.bind_some, Option.map_some,
    Option.some.injEq, Prod.mk.injEq] at hcall
  obtain ⟨hcur, howner, hpid, hcheck⟩ := hcall
  refine ⟨⟨trivial, ?_⟩, fun s₈ h₈ => ?_⟩
  · simp only [act, hcur, Ctl.running?, Option.bind_some, Frame.self]
    exact ⟨by rw [howner, hpid], by rw [hcheck]; simp⟩
  have hreq : (exec step (init 4096 65536 bootTable) [.spawn 0, .spawn 0, .send 0 7 0 0 0 0,
      .postStep, .resched, .recvStep 0, .lockStep, .call 1 3 0 0 0 0]).map
      (fun s => (s.cur, decide (s.table.act 1).mailbox.Full, s.table.dead 1)) =
      some (.posting 1 ⟨3, 0, 0, 0, 0, 0, some 0⟩
        (.call ⟨0, 1, 0⟩ (.handler 0 (sendMsg 7 0 0 0 0))), false, false) := by decide
  have hfree : (exec step (init 4096 65536 bootTable) [.spawn 0, .spawn 0, .send 0 7 0 0 0 0,
      .postStep, .resched, .recvStep 0, .lockStep, .call 1 3 0 0 0 0]).map
      (fun s => (s.view.owner 1, s.kernel.currpid, (s.view.load 2).call)) = some (some 2, 1, none) := by
    decide
  simp only [exec, h₁, h₂, h₃, h₄, h₅, h₆, h₇, h₈, Option.bind_some, Option.map_some,
    Option.some.injEq, Prod.mk.injEq, decide_eq_false_iff_not] at hreq hfree
  obtain ⟨hcur', hroom, hdead⟩ := hreq
  obtain ⟨hq, hpid', hfree⟩ := hfree
  refine ⟨keepsAnswers_request hcur' hroom (by simp [hdead]) hq (by rw [hpid']; decide) hfree,
    fun s₉ h₉ => ⟨⟨trivial, ?_⟩, fun _ _ => trivial⟩⟩
  have hsel : (exec step (init 4096 65536 bootTable) [.spawn 0, .spawn 0, .send 0 7 0 0 0 0,
      .postStep, .resched, .recvStep 0, .lockStep, .call 1 3 0 0 0 0, .postStep]).map
      (fun s => (s.cur, s.table.queue 0)) =
      some (.selecting 0 [apReply] (.call ⟨0, 1, 0⟩ (.handler 0 (sendMsg 7 0 0 0 0))) none, []) := by
    decide
  simp only [exec, h₁, h₂, h₃, h₄, h₅, h₆, h₇, h₈, h₉, Option.bind_some, Option.map_some,
    Option.some.injEq, Prod.mk.injEq] at hsel
  simp only [act, hsel.1, hsel.2, List.find?_nil]
  trivial

/-- Actor 0 calls actor 1, which takes the request and waits in its handler; the boot
process kills it. Nobody will answer actor 0. -/
theorem killed_callee_blocks_caller :
    ¬ ∀ s, Reachable step (fun _ _ => True) (init 4096 65536 bootTable) s → s.AnswersComing := by
  intro hclaim
  let ops : List SysOp := [.spawn 0, .spawn 0, .send 0 7 0 0 0 0, .postStep, .resched, .recvStep 0,
    .lockStep, .call 1 3 0 0 0 0, .postStep, .selectStep, .recvStep 0, .lockStep, .select [5],
    .selectStep, .forceKill 1]
  have hview : (exec step (init 4096 65536 bootTable) ops).map
      (fun s => (s.kernel.state 1, s.ctl 1, s.view.queue 0, s.view.owner 1)) =
      some (.wait, .selecting 0 [apReply]
        (.call ⟨0, 1, 0⟩ (.handler 0 (sendMsg 7 0 0 0 0))) (some (1, 0)), [], none) := by decide
  obtain ⟨s, hs, hview⟩ := Option.map_eq_some_iff.mp hview
  simp only [Prod.mk.injEq] at hview
  obtain ⟨hstate, hctl, hqueue, howner⟩ := hview
  have hreach := Reachable.start.exec (.of_forall (fun _ _ _ => trivial) _) hs
  cases hclaim s hreach 1 0 [apReply] _ _ _ hstate hctl with
  | replied _ h =>
    obtain ⟨m, hm, -⟩ := h
    rw [hqueue] at hm
    cases hm
  | carried _ d q hd hq =>
    obtain rfl : d = 1 := by
      have hd' : (1 : ℤ) = d.val := hd
      exact Fin.ext (by simp; omega)
    rw [howner] at hq
    cases hq

/-- What a call returned is what the handler of its callee produced for it. -/
def CallsMatch (s : Sys) : Prop := ∀ r ∈ s.returns, r ∈ s.answers

/-- The step keeps slots and processes together and cannot mix up calls. -/
def KeepsReplies (s : Sys) (op : SysOp) : Prop :=
  s.KeepsSlots True op ∧ s.view.Separate (s.act op)

theorem init_matched (lo hi : ℕ) (t : ActorTable) : (init lo hi t).view.Matched := by
  have hcount : ∀ n, (init lo hi t).view.copies n = 0 := by
    intro n
    unfold CallView.copies
    simp only [init_view_queue, init_view_load]
    simp [Load.count, countTag, Load.empty]
  refine ⟨init_view_sound lo hi t, ?_, fun n _ => hcount n, ?_, ?_, ?_, ?_⟩
  · intro n
    rw [hcount]
    exact Nat.zero_le _
  · intro i m _ hm
    rw [init_view_queue] at hm
    cases hm
  · intro p i m hm
    rw [init_view_load] at hm
    cases hm
  · intro p d m hm
    rw [init_view_load] at hm
    cases hm
  · intro r hr
    cases hr

/-- In every run whose steps keep replies apart, every call has returned the answer to
its own request. -/
theorem call_returns_own_answer (lo hi : ℕ) (t : ActorTable) (s : Sys)
    (h : Reachable step KeepsReplies (init lo hi t) s) : s.CallsMatch := by
  have hinv : s.Base True ∧ s.Shaped ∧ s.view.Matched := by
    refine h.invariant (fun s => s.Base True ∧ s.Shaped ∧ s.view.Matched)
      ⟨init_base True lo hi t, fun _ => trivial, init_matched lo hi t⟩ ?_
    rintro s op s' ⟨hb, hsh, hm⟩ ⟨hslots, hsep⟩ hstep
    exact ⟨hb.step hslots hstep, hsh.step hb hslots hstep,
      hm.next hsep (hb.step_next hsh hm.toSound hslots hstep)⟩
  exact hinv.2.2.matched

/-- Operations that neither send, call nor spawn cannot mix up calls. -/
theorem separate_of_other {op : SysOp} (hsend : ∀ d m a0 a1 a2 a3, op ≠ .send d m a0 a1 a2 a3)
    (hcall : ∀ d m a0 a1 a2 a3, op ≠ .call d m a0 a1 a2 a3) (hspawn : ∀ n, op ≠ .spawn n) :
    s.view.Separate (s.act op) := by
  cases op with
  | send d m a0 a1 a2 a3 => exact absurd rfl (hsend d m a0 a1 a2 a3)
  | call d m a0 a1 a2 a3 => exact absurd rfl (hcall d m a0 a1 a2 a3)
  | spawn n => exact absurd rfl (hspawn n)
  | _ =>
    simp only [act]
    repeat' split
    all_goals trivial

/-- With nothing queued and nothing carried, nothing is outstanding, and a spawn keeps it so. -/
theorem quiet_spawn {o : Prop} (hb : s.Base o) {n : ℕ} (hslots : s.KeepsSlots True (.spawn n))
    (hqueue : ∀ i, s.view.queue i = []) (hload : ∀ p, s.view.load p = .empty) :
    s.KeepsReplies (.spawn n) ∧ ∀ s', s.step (.spawn n) = some s' →
      (∀ i, s'.view.queue i = []) ∧ ∀ p, s'.view.load p = .empty := by
  constructor
  · refine ⟨hslots, ?_⟩
    simp only [act]
    split
    · rintro (⟨j, m, -, hm, -⟩ | ⟨p, d, m, hm, -⟩ | ⟨p, d, m, hm, -⟩)
      · rw [hqueue] at hm
        cases hm
      · rw [hload] at hm
        cases hm
      · rw [hload] at hm
        cases hm
    · trivial
  · intro s' hs
    obtain ⟨f, -, hs⟩ := asCode_eq hs
    obtain ⟨⟨r, s₁⟩, hspawn, rfl⟩ := Option.map_eq_some_iff.mp hs
    have hnext := apSpawn_next hb hspawn
    simp only [act] at hnext
    generalize s₁.view = v' at hnext
    split at hnext
    · next i t ht =>
      cases hnext with
      | spawn i p hfree hp =>
        refine ⟨fun j => ?_, hload⟩
        by_cases hj : j = i
        · subst hj
          exact CallView.setQueue_queue_self ..
        · exact (CallView.setQueue_queue_of_ne _ _ hj).trans (hqueue j)
    · cases hnext
      exact ⟨hqueue, hload⟩

/-- Actor 0 calls actor 1, which answers 42. -/
theorem call_returns_own_answer_once :
    ∃ s, exec step (init 4096 65536 bootTable) [.spawn 0, .spawn 0, .send 0 7 0 0 0 0, .postStep,
        .resched, .recvStep 0, .lockStep, .call 1 3 0 0 0 0, .postStep, .selectStep, .recvStep 0,
        .lockStep, .ret 42, .postStep, .finishStep, .recvStep 0, .relockStep, .selectStep] = some s ∧
      s.returns = [⟨0, 1, 42⟩] ∧ s.CallsMatch := by
  have hview : (exec step (init 4096 65536 bootTable) [.spawn 0, .spawn 0, .send 0 7 0 0 0 0,
      .postStep, .resched, .recvStep 0, .lockStep, .call 1 3 0 0 0 0, .postStep, .selectStep,
      .recvStep 0, .lockStep, .ret 42, .postStep, .finishStep, .recvStep 0, .relockStep,
      .selectStep]).map (fun s => s.returns) = some [⟨0, 1, 42⟩] := by decide
  obtain ⟨s, hs, hview⟩ := Option.map_eq_some_iff.mp hview
  refine ⟨s, hs, hview, call_returns_own_answer 4096 65536 bootTable s (Reachable.start.exec ?_ hs)⟩
  have hother : ∀ (s : Sys) (op : SysOp), s.KeepsSlots True op →
      (∀ d m a0 a1 a2 a3, op ≠ .send d m a0 a1 a2 a3) →
      (∀ d m a0 a1 a2 a3, op ≠ .call d m a0 a1 a2 a3) → (∀ n, op ≠ .spawn n) →
      s.KeepsReplies op := fun s op hk h₁ h₂ h₃ => ⟨hk, separate_of_other h₁ h₂ h₃⟩
  have hbase := init_base False 4096 65536 bootTable
  have hkeeps : (init 4096 65536 bootTable).KeepsSlots False (.spawn 0) :=
    NoSelfKill.keepsSlots hbase trivial
  obtain ⟨hok, hquiet⟩ := quiet_spawn hbase hkeeps (init_view_queue 4096 65536 bootTable)
    (init_view_load 4096 65536 bootTable)
  refine ⟨hok, fun s₁ h₁ => ?_⟩
  have hbase₁ := hbase.step hkeeps h₁
  have hkeeps₁ : s₁.KeepsSlots False (.spawn 0) := NoSelfKill.keepsSlots hbase₁ trivial
  obtain ⟨hok₁, -⟩ := quiet_spawn hbase₁ hkeeps₁ (hquiet s₁ h₁).1 (hquiet s₁ h₁).2
  refine ⟨hok₁, fun s₂ h₂ => ⟨⟨trivial, ?_⟩, fun s₃ h₃ => ?_⟩⟩
  · simp only [act]
    split
    · exact (by decide : (7 : ℤ) ≠ apReply)
    · trivial
  refine ⟨hother _ _ trivial (by simp) (by simp) (by simp), fun s₄ h₄ => ?_⟩
  refine ⟨hother _ _ trivial (by simp) (by simp) (by simp), fun s₅ h₅ => ?_⟩
  refine ⟨hother _ _ trivial (by simp) (by simp) (by simp), fun s₆ h₆ => ?_⟩
  refine ⟨hother _ _ trivial (by simp) (by simp) (by simp), fun s₇ h₇ => ?_⟩
  have hcall : (exec step (init 4096 65536 bootTable) [.spawn 0, .spawn 0, .send 0 7 0 0 0 0,
      .postStep, .resched, .recvStep 0, .lockStep]).map
      (fun s => (s.cur, s.view.owner 0, s.kernel.currpid)) =
      some (.running (.handler 0 (sendMsg 7 0 0 0 0)), some 1, 1) := by decide
  simp only [exec, h₁, h₂, h₃, h₄, h₅, h₆, h₇, Option.bind_some, Option.map_some,
    Option.some.injEq, Prod.mk.injEq] at hcall
  obtain ⟨hcur, howner, hpid⟩ := hcall
  refine ⟨⟨trivial, ?_⟩, fun s₈ _ => ?_⟩
  · simp only [act, hcur, Ctl.running?, Option.bind_some, Frame.self]
    exact ⟨by rw [howner, hpid], (by decide : (3 : ℤ) ≠ apReply)⟩
  -- the rest neither sends, calls nor spawns
  refine .of_forall (fun s op hop => ?_) s₈
  simp only [List.mem_cons, List.not_mem_nil, or_false] at hop
  rcases hop with rfl | rfl | rfl | rfl | rfl | rfl | rfl | rfl | rfl | rfl <;>
    exact hother s _ trivial (by simp) (by simp) (by simp)

/-- Actor 0 calls actor 1 and is killed, and its slot is reused. The new actor 0 calls
actor 2, and returns with the reply of actor 1 to the old one. -/
theorem stale_reply_is_taken :
    ¬ ∀ s, Reachable step (fun _ _ => True) (init 4096 131072 bootTable) s → s.CallsMatch := by
  intro hclaim
  let ops : List SysOp := [.spawn 0, .spawn 0, .spawn 0, .send 0 7 0 0 0 0, .postStep, .resched,
    .recvStep 0, .lockStep, .call 1 3 0 0 0 0, .postStep, .selectStep,
    .recvStep 0, .lockStep, .forceKill 0, .spawn 0, .send 0 8 0 0 0 0, .postStep,
    .ret 111, .postStep, .finishStep, .recvStep 0, .recvStep 0,
    .recvStep 0, .lockStep, .call 2 5 0 0 0 0, .postStep, .selectStep]
  have hview : (exec step (init 4096 131072 bootTable) ops).map (fun s => (s.returns, s.answers)) =
      some ([⟨1, 2, 111⟩], [⟨0, 1, 111⟩]) := by decide
  obtain ⟨s, hs, hview⟩ := Option.map_eq_some_iff.mp hview
  simp only [Prod.mk.injEq] at hview
  have hmatch := hclaim s (Reachable.start.exec (.of_forall (fun _ _ _ => trivial) _) hs)
  rw [CallsMatch, hview.1, hview.2] at hmatch
  exact absurd (hmatch ⟨1, 2, 111⟩ (by simp)) (by simp)

end Sys

end XinuRpi4.Actor
