import XinuRpi4.Actor.CallProtocol
import XinuRpi4.Actor.OneProcess

/-!
# The actor system follows the call protocol

Every step of the system is an action of the protocol of synchronous calls, which
can be read off the state before the step.
-/

namespace XinuRpi4.Actor

open Foundation Process

/-- The message a handler works on. -/
def Frame.hand : Frame → Option (ActorId × ApMsg)
  | .handler self m => some (self, m)
  | _ => none

/-- What a process that posts carries on when it is done. -/
def PostCont.load : PostCont → Load
  | .send f => ⟨none, f.hand, none⟩
  | .call c f => ⟨some c, f.hand, none⟩
  | .reply _ => .empty

def SelectCont.load : SelectCont → Load
  | .select f => ⟨none, f.hand, none⟩
  | .call c f => ⟨some c, f.hand, none⟩

/-- What a process carries where it stands. -/
def Ctl.load : Ctl → Load
  | .running f => ⟨none, f.hand, none⟩
  | .recv _ => .empty
  | .locking f _ => ⟨none, f.hand, none⟩
  | .posting dest m next => { next.load with flight := some (dest, m) }
  | .selecting _ _ next _ => next.load
  | .finishing _ => .empty

@[simp] theorem PostCont.resume_load (next : PostCont) : next.resume.load = next.load := by
  cases next <;> rfl

@[simp] theorem PostCont.load_flight (next : PostCont) : next.load.flight = none := by
  cases next <;> rfl

theorem PostCont.land_load (next : PostCont) : { next.load with flight := none } = next.load := by
  cases next <;> rfl

/-- A call waits in `ap_select` for a reply to its own slot. -/
def Ctl.Shaped : Ctl → Prop
  | .selecting self meths (.call c _) _ => self = c.self ∧ meths = [apReply]
  | _ => True

theorem PostCont.resume_shaped (next : PostCont) : next.resume.Shaped := by
  cases next with
  | call c f => exact ⟨rfl, rfl⟩
  | _ => trivial

theorem ActorTable.modify_queue {t : ActorTable} {i : ActorId} {f : ActorEnt → ActorEnt}
    (h : (f (t.act i)).mailbox = (t.act i).mailbox) : (t.modify i f).queue = t.queue := by
  funext j
  by_cases hj : j = i
  · subst hj
    simp [ActorTable.queue, h]
  · simp [ActorTable.queue, ActorTable.modify_act_of_ne _ _ hj]

namespace Sys

variable {s s' : Sys} {o : Prop}

/-- The system as the call protocol sees it. -/
def view (s : Sys) : CallView where
  owner i := Kernel.slotOf (s.table.act i).pid
  doomed := s.table.dead
  queue := s.table.queue
  load p := if s.kernel.state p = .free then .empty else (s.ctl p).load
  curReply := s.table.curReply
  nextTag := s.nextTag
  answers := s.answers
  returns := s.returns

/-- The action of the protocol that an operation amounts to. -/
def act (s : Sys) : SysOp → CallAct
  | .send dest method a0 a1 a2 a3 =>
    match (s.table.postCheck dest).2 with
    | some i => .send s.kernel.currpid i (sendMsg method a0 a1 a2 a3)
    | none => .idle
  | .call dest method a0 a1 a2 a3 =>
    match s.cur.running?.bind Frame.self with
    | some self => .call s.kernel.currpid ⟨self, dest, s.nextTag⟩
        (s.request self method a0 a1 a2 a3) (s.table.postCheck dest).2
    | none => .idle
  | .postStep =>
    match s.cur with
    | .posting d m _ => .post s.kernel.currpid d m (decide (s.table.act d).mailbox.Full)
    | _ => .idle
  | .recvStep _ =>
    match s.cur with
    | .recv self =>
      match s.table.queue self with
      | m :: _ => .recv s.kernel.currpid self m
      | [] => .idle
    | _ => .idle
  | .selectStep =>
    match s.cur with
    | .selecting self meths next none =>
      match (s.table.queue self).find? (ApMsg.wanted meths), next with
      | some m, .select _ => .select s.kernel.currpid self m
      | some m, .call c _ => .reply s.kernel.currpid c m
      | none, _ => .idle
    | _ => .idle
  | .ret r =>
    match s.cur with
    | .running (.handler self m) => .answer s.kernel.currpid self m r
    | _ => .idle
  | .crash =>
    match s.cur with
    | .running (.handler self m) =>
      if (s.table.act self).pid = s.kernel.currpid.val ∧ s.table.jmpArmed self then
        .answer s.kernel.currpid self m apCrashReply
      else .idle
    | _ => .idle
  | .finishStep =>
    match s.cur with
    | .finishing self => if s.table.dead self then .release fun i => i = self else .idle
    | _ => .idle
  | .spawn _ =>
    match s.table.spawnSlot with
    | some (i, _) => .spawn i
    | none => .idle
  | .suicide id =>
    match s.table.slotOf id with
    | some i => .doom i
    | none => .idle
  | .forceKill id =>
    match s.table.slotOf id with
    | some i =>
      if (s.table.act i).pid = -1 ∨ (s.table.act i).protectedFromGc then .idle
      else .release fun j => j = i
    | none => .idle
  | .gcSweep thresholdMs dryRun nowMs =>
    if dryRun then .idle
    else .release fun i => (s.table.act i).pid ≠ -1 ∧ s.idle thresholdMs nowMs i
  | .reset => .release fun _ => true
  | .killall => .release fun _ => true
  | _ => .idle

def Shaped (s : Sys) : Prop := ∀ p, (s.ctl p).Shaped

theorem view_load_cur (hb : s.Base o) : s.view.load s.kernel.currpid = s.cur.load :=
  if_neg hb.curr_alive

theorem Moves.view_load (hb : s.Base o) (hm : Moves s s') {l : Load}
    (hl : (s'.ctl s.kernel.currpid).load = l) :
    s'.view.load = Function.update s.view.load s.kernel.currpid l := by
  funext p
  by_cases hp : p = s.kernel.currpid
  · subst hp
    have halive : s'.kernel.state s.kernel.currpid ≠ .free := by
      rw [Ne, hm.pop.free_iff]
      exact hb.curr_alive
    rw [Function.update_self, ← hl]
    exact if_neg halive
  · rw [Function.update_of_ne hp]
    simp only [view, hm.pop.free_iff, hm.ctl_other p hp]

theorem Moves.view_owner (hm : Moves s s') : s'.view.owner = s.view.owner := by
  funext i
  simp only [view, hm.slots.pid]

/-- The step changes nothing that the protocol sees. -/
theorem Moves.view_eq (hb : s.Base o) (hm : Moves s s')
    (hl : (s'.ctl s.kernel.currpid).load = s.cur.load) (hqueue : s'.table.queue = s.table.queue)
    (hdead : s'.table.dead = s.table.dead) (hreply : s'.table.curReply = s.table.curReply)
    (htag : s'.nextTag = s.nextTag) (hans : s'.answers = s.answers)
    (hret : s'.returns = s.returns) : s'.view = s.view := by
  have hload : s'.view.load = s.view.load := by
    rw [hm.view_load hb hl, ← view_load_cur hb, Function.update_eq_self]
  exact CallView.ext hm.view_owner hdead hqueue hload hreply htag hans hret

/-- The checks of `ap_post` have passed for the slot. -/
theorem postCheck_eq_some {t : ActorTable} {dest : ℤ} {i : ActorId} :
    (t.postCheck dest).2 = some i ↔ t.slotOf dest = some i ∧ (t.act i).pid ≠ -1 := by
  unfold ActorTable.postCheck
  cases hs : t.slotOf dest with
  | none => simp
  | some j =>
    by_cases hpid : (t.act j).pid = -1
    · simp only [if_pos hpid]
      constructor
      · rintro ⟨⟩
      · rintro ⟨⟨⟩, h⟩
        exact absurd hpid h
    · simp only [if_neg hpid]
      constructor
      · rintro ⟨⟩
        exact ⟨rfl, hpid⟩
      · rintro ⟨⟨⟩, -⟩
        rfl

/-- A post that starts, after bookkeeping `s₀` of the same process. -/
theorem beginPost_view {s₀ : Sys} {dest : ℤ} {m : ApMsg} {next : PostCont} (hb : s.Base o)
    (hm : Moves s (s₀.beginPost dest m next))
    (hcurr : s₀.kernel.currpid = s.kernel.currpid) :
    (s₀.beginPost dest m next).view =
      { s₀.view with
        owner := s.view.owner
        load := Function.update s.view.load s.kernel.currpid
          { next.load with flight := (s₀.table.postCheck dest).2.map fun i => (i, m) } } := by
  have hself : ∀ (t : ActorTable) (c : Ctl),
      ({ s₀ with table := t }.goto c).ctl s.kernel.currpid = c := by
    intro t c
    rw [← hcurr]
    exact Function.update_self ..
  rcases s₀.beginPost_eq dest m next with ⟨i, hi, hpid, heq⟩ | ⟨hnone, oob, dead, heq⟩
  · have hcheck : (s₀.table.postCheck dest).2 = some i := postCheck_eq_some.mpr ⟨hi, hpid⟩
    rw [heq] at hm ⊢
    rw [hcheck]
    have hload : ((s₀.goto (.posting i m next)).ctl s.kernel.currpid).load =
        { next.load with flight := some (i, m) } := by
      rw [← hcurr, goto_ctl_self]
      rfl
    exact CallView.ext hm.view_owner rfl rfl (hm.view_load hb hload) rfl rfl rfl rfl
  · have hcheck : (s₀.table.postCheck dest).2 = none := by
      rw [Option.eq_none_iff_forall_ne_some]
      intro i hi
      obtain ⟨hslot, hpid⟩ := postCheck_eq_some.mp hi
      exact hpid (hnone i hslot)
    rw [heq] at hm ⊢
    rw [hcheck]
    have hload : (({ s₀ with table := { s₀.table with dropOob := oob, dropDead := dead } }.goto
        next.resume).ctl s.kernel.currpid).load = { next.load with flight := none } := by
      rw [hself, PostCont.resume_load, PostCont.land_load]
    exact CallView.ext hm.view_owner rfl rfl (hm.view_load hb hload) rfl rfl rfl rfl

attribute [local simp] act in
theorem apSend_next (hb : s.Base o) {dest method a0 a1 a2 a3 : ℤ}
    (hs : s.apSend dest method a0 a1 a2 a3 = some s') :
    CallView.Next s.view (s.act (.send dest method a0 a1 a2 a3)) s'.view := by
  have hm := hb.apSend_moves hs
  obtain ⟨f, hcur, rfl⟩ := apSend_eq hs
  have hload : s.view.load s.kernel.currpid = ⟨none, f.hand, none⟩ := by
    rw [view_load_cur hb, hcur]
    rfl
  have hview := beginPost_view hb hm rfl
  simp only [act]
  cases hcheck : (s.table.postCheck dest).2 with
  | none =>
    rw [hcheck] at hview
    refine CallView.Next.idle.of_eq (hview.trans ?_)
    refine CallView.ext rfl rfl rfl ?_ rfl rfl rfl rfl
    simp only [Option.map_none, PostCont.load]
    rw [← hload, Function.update_eq_self]
  | some i =>
    rw [hcheck] at hview
    refine (CallView.Next.send s.kernel.currpid i (sendMsg method a0 a1 a2 a3) ?_ ?_ rfl rfl).of_eq
      (hview.trans ?_)
    · rw [hload]
    · rw [hload]
    · rw [hload]
      rfl

theorem apCall_next (hb : s.Base o) {dest method a0 a1 a2 a3 : ℤ}
    (hs : s.apCall dest method a0 a1 a2 a3 = some s') :
    CallView.Next s.view (s.act (.call dest method a0 a1 a2 a3)) s'.view := by
  obtain ⟨f, self, hcur, hself, rfl⟩ := apCall_eq hs
  have hload : s.view.load s.kernel.currpid = ⟨none, f.hand, none⟩ := by
    rw [view_load_cur hb, hcur]
    rfl
  have hm : Moves s (s.beginPost dest (s.request self method a0 a1 a2 a3)
      (.call ⟨self, dest, s.nextTag⟩ f)) :=
    hb.beginPost_moves rfl rfl (.refl _) (by rw [hcur]; rfl)
  have hview := beginPost_view hb hm rfl
  have hact : s.act (.call dest method a0 a1 a2 a3) =
      .call s.kernel.currpid ⟨self, dest, s.nextTag⟩ (s.request self method a0 a1 a2 a3)
        (s.table.postCheck dest).2 := by
    simp only [act, hcur, Ctl.running?, Option.bind_some, hself]
  rw [hact]
  refine (CallView.Next.call s.kernel.currpid ⟨self, dest, s.nextTag⟩
    (s.request self method a0 a1 a2 a3) (s.table.postCheck dest).2 ?_ ?_ rfl rfl rfl ?_).of_eq
    ((congrArg (fun v : CallView => { v with nextTag := s.nextTag + 1 }) hview).trans ?_)
  · rw [hload]
  · rw [hload]
  · exact fun i hi => (ActorTable.slotOf_eq_some (postCheck_eq_some.mp hi).1).1
  · rw [hload]
    rfl

/-- The masked section of `ap_post` as the protocol sees it. -/
theorem postSection_view (t : ActorTable) (i : ActorId) (m : ApMsg) :
    (t.postSection i m).1.queue =
        (if decide (t.act i).mailbox.Full then t.queue
          else Function.update t.queue i (t.queue i ++ [m])) ∧
      (t.postSection i m).1.dead = t.dead ∧ (t.postSection i m).1.curReply = t.curReply := by
  unfold ActorTable.postSection
  by_cases hfull : (t.act i).mailbox.Full
  · rw [if_pos hfull, decide_eq_true hfull, if_pos rfl]
    exact ⟨rfl, rfl, rfl⟩
  · rw [if_neg hfull, decide_eq_false hfull]
    refine ⟨?_, rfl, rfl⟩
    funext j
    by_cases hj : j = i
    · subst hj
      simp [ActorTable.queue, Ring.contents_push _ m hfull]
    · simp [ActorTable.queue, ActorTable.modify_act_of_ne _ _ hj, hj]

theorem postStep_next (hb : s.Base o) (hs : s.postStep = some s') :
    CallView.Next s.view (s.act .postStep) s'.view := by
  have hm := hb.postStep_moves hs
  obtain ⟨d, m, next, hcur, rfl⟩ := postStep_eq hs
  have hload : s.view.load s.kernel.currpid = { next.load with flight := some (d, m) } := by
    rw [view_load_cur hb, hcur]
    rfl
  have hnew : ((s.goto next.resume).ctl s.kernel.currpid).load = next.load := by
    rw [goto_ctl_self, PostCont.resume_load]
  obtain ⟨hqueue, hdead, hreply⟩ := postSection_view s.table d m
  simp only [act, hcur]
  refine (CallView.Next.post s.kernel.currpid d m _ (by rw [hload])).of_eq ?_
  have hvload := hm.view_load hb hnew
  rw [hload]
  by_cases hfull : (s.table.act d).mailbox.Full
  · simp only [hfull, decide_true, if_true] at hqueue ⊢
    refine CallView.ext hm.view_owner hdead hqueue ?_ hreply rfl rfl rfl
    rw [hvload, ← PostCont.land_load]
    rfl
  · simp only [hfull, decide_false] at hqueue ⊢
    refine CallView.ext hm.view_owner hdead hqueue ?_ hreply rfl rfl rfl
    rw [hvload, ← PostCont.land_load]
    rfl

theorem recvSection_view (t : ActorTable) (i : ActorId) (nowMs : ℕ) :
    (t.recvSection i nowMs).1.queue = Function.update t.queue i (t.queue i).tail ∧
      (t.recvSection i nowMs).1.dead = t.dead ∧
      (t.recvSection i nowMs).1.curReply = t.curReply := by
  refine ⟨?_, ?_, ?_⟩
  · funext j
    by_cases hj : j = i
    · subst hj
      rw [(t.recvSection_queue j nowMs).1, Function.update_self]
    · rw [Function.update_of_ne hj, ActorTable.queue, ActorTable.queue,
        t.recvSection_act_of_ne nowMs hj]
  · unfold ActorTable.recvSection
    split_ifs <;> rfl
  · unfold ActorTable.recvSection
    split_ifs <;> rfl

theorem recvStep_next (hb : s.Base o) {nowMs : ℕ} (hs : s.recvStep nowMs = some s') :
    CallView.Next s.view (s.act (.recvStep nowMs)) s'.view := by
  have hm := hb.recvStep_moves hs
  obtain ⟨self, hcur, hrun⟩ := recvStep_eq hs
  obtain ⟨hqueue, hdead, hreply⟩ := recvSection_view s.table self nowMs
  have hhead := (s.table.recvSection_queue self nowMs).2
  simp only [act, hcur]
  rcases hrun with ⟨t, m, hrecv, rfl⟩ | ⟨t, hrecv, rfl⟩
  · rw [hrecv] at hqueue hdead hreply hhead
    obtain ⟨rest, hrest⟩ := List.head?_eq_some_iff.mp hhead.symm
    have hpid : (s.table.act self).pid = s.kernel.currpid.val := by
      rcases hb.proc_pid s.kernel.currpid self hb.curr_alive (by rw [← cur, hcur]; rfl) with
        h | ⟨-, -, -, hearly⟩
      · exact h
      · rw [← cur, hcur] at hearly
        exact absurd rfl hearly
    have hnull : s.kernel.currpid ≠ nullproc := hb.ne_null (i := self) (by rw [← cur, hcur]; rfl)
    rw [hrest]
    refine (CallView.Next.recv s.kernel.currpid self m rest ?_ ?_ hrest).of_eq ?_
    · simp only [view, hpid]
      exact Kernel.slotOf_val _ hnull
    · rw [view_load_cur hb, hcur]
      rfl
    · have hl : ((s.goto (.locking (.handler self m) 0)).ctl s.kernel.currpid).load =
          ⟨none, some (self, m), none⟩ := by
        rw [goto_ctl_self]
        rfl
      have hq : t.queue = Function.update s.table.queue self rest := by
        rw [hqueue, hrest]
        rfl
      refine CallView.ext hm.view_owner hdead hq (hm.view_load hb hl) ?_ rfl rfl rfl
      exact congrArg (fun f => Function.update f self m.replyTo) hreply
  · rw [hrecv] at hqueue hdead hreply hhead
    have hnil : s.table.queue self = [] := List.head?_eq_none_iff.mp hhead.symm
    rw [hnil]
    refine CallView.Next.idle.of_eq (hm.view_eq hb rfl ?_ hdead hreply rfl rfl rfl)
    rw [hqueue, hnil, List.tail_nil, ← hnil, Function.update_eq_self]

theorem selectSection_view (t : ActorTable) (i : ActorId) (meths : List ℤ) :
    (t.selectSection i meths).1.queue =
        Function.update t.queue i ((t.queue i).eraseP (ApMsg.wanted meths)) ∧
      (t.selectSection i meths).1.dead = t.dead ∧
      (t.selectSection i meths).1.curReply = t.curReply := by
  refine ⟨?_, ?_, ?_⟩
  · funext j
    by_cases hj : j = i
    · subst hj
      rw [(t.selectSection_queue j meths).1, Function.update_self]
    · rw [Function.update_of_ne hj, ActorTable.queue, ActorTable.queue,
        t.selectSection_act_of_ne meths hj]
  · unfold ActorTable.selectSection
    split <;> rfl
  · unfold ActorTable.selectSection
    split <;> rfl

theorem selectStep_next (hb : s.Base o) (hsh : s.Shaped) (hs : s.selectStep = some s') :
    CallView.Next s.view (s.act .selectStep) s'.view := by
  have hm := hb.selectStep_moves hs
  obtain ⟨self, meths, next, hcur, hrun⟩ := selectStep_eq hs
  obtain ⟨hqueue, hdead, hreply⟩ := selectSection_view s.table self meths
  have hfind := (s.table.selectSection_queue self meths).2
  have hload : s.view.load s.kernel.currpid = next.load := by
    rw [view_load_cur hb, hcur]
    rfl
  simp only [act, hcur]
  rcases hrun with ⟨t, m, hsel, rfl⟩ | ⟨t, relock, hsel, rfl⟩
  · rw [hsel] at hqueue hdead hreply hfind
    rw [← hfind]
    cases next with
    | select f =>
      refine (CallView.Next.select s.kernel.currpid self m meths ?_ hfind.symm).of_eq ?_
      · rw [hload]
        rfl
      · have hl : ((s.goto (.running f)).ctl s.kernel.currpid).load = ⟨none, f.hand, none⟩ := by
          rw [goto_ctl_self]
          rfl
        refine CallView.ext hm.view_owner hdead hqueue ?_ hreply rfl rfl rfl
        rw [hm.view_load hb hl]
        exact (congrArg _ hload.symm).trans (Function.update_eq_self ..)
    | call c f =>
      have hshape := hsh s.kernel.currpid
      rw [← cur, hcur] at hshape
      obtain ⟨rfl, rfl⟩ := hshape
      refine (CallView.Next.reply s.kernel.currpid c m ?_ ?_ hfind.symm).of_eq ?_
      · rw [hload]
        rfl
      · rw [hload]
        rfl
      · have hl : ((s.goto (.running f)).ctl s.kernel.currpid).load = ⟨none, f.hand, none⟩ := by
          rw [goto_ctl_self]
          rfl
        refine CallView.ext hm.view_owner hdead hqueue ?_ hreply rfl rfl rfl
        rw [hm.view_load hb hl, hload]
        rfl
  · rw [hsel] at hqueue hdead hreply hfind
    rw [← hfind]
    refine CallView.Next.idle.of_eq (hm.view_eq hb ?_ ?_ hdead hreply rfl rfl rfl)
    · simp only [goto_ctl_self, hcur]
      rfl
    · have hnone := List.find?_eq_none.mp hfind.symm
      rw [hqueue, List.eraseP_of_forall_not hnone, Function.update_eq_self]

theorem lockStep_next (hb : s.Base o) (hs : s.lockStep = some s') :
    CallView.Next s.view (s.act .lockStep) s'.view := by
  have hm := hb.lockStep_moves hs
  obtain ⟨f, spins, hcur, ⟨k, hk, rfl⟩ | rfl⟩ := lockStep_eq hs
  · refine CallView.Next.idle.of_eq (hm.view_eq hb ?_ ?_ ?_ ?_ rfl rfl rfl)
    · simp only [goto_ctl_self, hcur]
      rfl
    all_goals cases f <;> rfl
  · refine CallView.Next.idle.of_eq (hm.view_eq hb ?_ rfl rfl rfl rfl rfl rfl)
    simp only [goto_ctl_self, hcur]
    rfl

theorem relockStep_next (hb : s.Base o) (hs : s.relockStep = some s') :
    CallView.Next s.view (s.act .relockStep) s'.view := by
  have hm := hb.relockStep_moves hs
  obtain ⟨self, meths, next, saved, spins, hcur, ⟨k, hk, rfl⟩ | rfl⟩ := relockStep_eq hs
  · refine CallView.Next.idle.of_eq (hm.view_eq hb ?_ rfl rfl rfl rfl rfl rfl)
    simp only [goto_ctl_self, hcur]
    rfl
  · refine CallView.Next.idle.of_eq (hm.view_eq hb ?_ rfl rfl rfl rfl rfl rfl)
    simp only [goto_ctl_self, hcur]
    rfl

/-- The owner of a slot, if it has one. -/
theorem view_owner (hb : s.Base o) (i : ActorId) :
    s.view.owner i = none ∧ (s.table.act i).pid = -1 ∨
      ∃ p : Slot, s.view.owner i = some p ∧ (s.table.act i).pid = p.val ∧ i.val < s.table.nact.val := by
  by_cases hpid : (s.table.act i).pid = -1
  · left
    refine ⟨?_, hpid⟩
    simp only [view, hpid]
    rfl
  · right
    obtain ⟨hlt, p, hp, -, hactor⟩ := hb.pid_proc i hpid
    refine ⟨p, ?_, hp, hlt⟩
    simp only [view, hp]
    exact Kernel.slotOf_val p (hb.ne_null hactor)

/-- The slot that gets a reply is the one the checks of `ap_post` let pass. -/
theorem replySlot_eq (hb : s.Base o) {m : ApMsg} (h0 : 0 ≤ m.replyTo) :
    s.view.replySlot m = (s.table.postCheck m.replyTo).2 := by
  apply Option.ext
  intro i
  rw [postCheck_eq_some]
  unfold CallView.replySlot
  constructor
  · intro hi
    split_ifs at hi with hlt
    simp only at hi
    split_ifs at hi with hnone
    obtain rfl := Option.some.inj hi
    rcases view_owner hb ⟨m.replyTo.toNat, by omega⟩ with ⟨h, -⟩ | ⟨p, -, hp, hn⟩
    · exact absurd h hnone
    · refine ⟨?_, by omega⟩
      have hslot := ActorTable.slotOf_val hn
      simpa [h0] using hslot
  · rintro ⟨hslot, hpid⟩
    obtain ⟨hto, -⟩ := ActorTable.slotOf_eq_some hslot
    have hlt := i.isLt
    rw [dif_pos ⟨by omega, by omega⟩]
    simp only [hto, Int.toNat_natCast, Fin.eta]
    rcases view_owner hb i with ⟨-, h⟩ | ⟨p, hp, -⟩
    · exact absurd h hpid
    · simp [hp]

/-- The handler of a request is over with the value `r`. -/
theorem answer_next (hb : s.Base o) {self : ActorId} {m : ApMsg} (r : ℤ)
    (hcur : s.cur = .running (.handler self m)) :
    CallView.Next s.view (.answer s.kernel.currpid self m r)
      (s.answer self m.replyTo r m.tag).view := by
  have hm := hb.answer_moves m.replyTo r m.tag (by rw [hcur]; rfl)
  have hload : s.view.load s.kernel.currpid = ⟨none, some (self, m), none⟩ := by
    rw [view_load_cur hb, hcur]
    rfl
  refine (CallView.Next.answer s.kernel.currpid self m r hload).of_eq ?_
  unfold answer at hm ⊢
  by_cases h0 : 0 ≤ m.replyTo
  · rw [if_pos h0] at hm ⊢
    have hcheck : ((s.disarm self r m.tag).table.postCheck m.replyTo).2 =
        (s.table.postCheck m.replyTo).2 := by
      apply Option.ext
      intro i
      rw [postCheck_eq_some, postCheck_eq_some]
      rfl
    rw [beginPost_view hb hm rfl, replySlot_eq hb h0, hcheck]
    rfl
  · rw [if_neg h0] at hm ⊢
    have hslot : s.view.replySlot m = none := dif_neg fun h => h0 h.1
    rw [hslot]
    have hl : (((s.disarm self r m.tag).goto (.finishing self)).ctl s.kernel.currpid).load =
        .empty := by
      change ((s.goto (.finishing self)).ctl s.kernel.currpid).load = .empty
      rw [goto_ctl_self]
      rfl
    exact CallView.ext hm.view_owner rfl rfl (hm.view_load hb hl) rfl rfl rfl rfl

theorem handlerReturn_next (hb : s.Base o) {r : ℤ} (hs : s.handlerReturn r = some s') :
    CallView.Next s.view (s.act (.ret r)) s'.view := by
  have hm := hb.handlerReturn_moves hs
  rcases handlerReturn_eq hs with ⟨actor, hcur, rfl⟩ | ⟨self, m, hcur, rfl⟩
  · simp only [act, hcur]
    refine CallView.Next.idle.of_eq (hm.view_eq hb ?_ ?_ ?_ ?_ rfl rfl rfl)
    · simp only [goto_ctl_self, hcur]
      rfl
    all_goals
      dsimp only
      unfold ActorTable.apNoteMsg
      split
    all_goals first | rfl | exact ActorTable.modify_queue rfl
  · simp only [act, hcur]
    exact answer_next hb r hcur

theorem apCrash_next (hb : s.Base o) (hv : s.view.Sound) (hs : s.apCrash = some s') :
    CallView.Next s.view (s.act .crash) s'.view := by
  obtain ⟨f, hcur, ⟨rfl, hno⟩ | ⟨self, i, hself, hpid, harmed, rfl⟩⟩ := apCrash_eq hs
  · have hact : s'.act .crash = .idle := by
      simp only [act, hcur]
      cases f with
      | code => rfl
      | direct a => rfl
      | handler self m =>
        dsimp only
        rw [if_neg]
        intro h
        have hlt := (hb.pid_proc self (by omega)).1
        exact hno self (mem_slots.mpr hlt) h
    rw [hact]
    exact .idle
  · have hactor : s.cur.actor = some i := (hb.actor_of_pid hpid).2
    obtain rfl : i = self := Option.some.inj ((hb.argSlot_eq hactor).symm.trans hself)
    cases f with
    | code =>
      rw [hcur] at hactor
      cases hactor
    | direct a =>
      rw [hcur] at hactor
      cases hactor
    | handler j m =>
      rw [hcur] at hactor
      cases hactor
      have hload : s.view.load s.kernel.currpid = ⟨none, some (i, m), none⟩ := by
        rw [view_load_cur hb, hcur]
        rfl
      have howner : s.view.owner i = some s.kernel.currpid := by
        rcases view_owner hb i with ⟨-, h⟩ | ⟨p, hp, hval, -⟩
        · omega
        · rw [hp]
          exact congrArg some (Fin.ext (by omega))
      have hreply : s.table.curReply i = m.replyTo :=
        hv.replyTo s.kernel.currpid i m (by rw [hload]) howner
      have hint : toInt m.replyTo = m.replyTo := by
        rcases hv.addressed m (Or.inr (Or.inl ⟨s.kernel.currpid, i, by rw [hload]⟩)) with h | ⟨j, h⟩
        · rw [h]
          decide
        · have hj := j.isLt
          have hn : apNact = 2047 := rfl
          rw [h]
          exact toInt_of_lt (by omega)
      simp only [act, hcur, hpid, harmed, and_self, if_true]
      rw [hreply, hint]
      exact answer_next hb apCrashReply hcur

/-- Slots were freed, and their processes ended, the running one excepted. -/
structure Cuts (s s' : Sys) : Prop where
  currpid : s'.kernel.currpid = s.kernel.currpid
  ctl : s'.ctl = s.ctl
  pid : ∀ i, (s'.table.act i).pid = (s.table.act i).pid ∨ (s'.table.act i).pid = -1
  free_iff : ∀ p, s'.kernel.state p = .free ↔ s.kernel.state p = .free ∨
    p ≠ s.kernel.currpid ∧ ∃ i, (s.table.act i).pid = p.val ∧ (s'.table.act i).pid = -1
  mailbox : ∀ i, (s'.table.act i).mailbox = (s.table.act i).mailbox
  dead : ∀ i, s'.table.dead i = s.table.dead i ∨
    (s.table.act i).pid ≠ -1 ∧ (s'.table.act i).pid = -1
  curReply : s'.table.curReply = s.table.curReply
  nextTag : s'.nextTag = s.nextTag
  answers : s'.answers = s.answers
  returns : s'.returns = s.returns

theorem Cuts.refl (s : Sys) : Cuts s s where
  currpid := rfl
  ctl := rfl
  pid _ := Or.inl rfl
  free_iff p := by
    refine ⟨Or.inl, ?_⟩
    rintro (h | ⟨-, i, hi, hi'⟩)
    · exact h
    · omega
  mailbox _ := rfl
  dead _ := Or.inl rfl
  curReply := rfl
  nextTag := rfl
  answers := rfl
  returns := rfl

theorem Cuts.trans {s'' : Sys} (h : Cuts s s') (h' : Cuts s' s'') : Cuts s s'' where
  currpid := h'.currpid.trans h.currpid
  ctl := h'.ctl.trans h.ctl
  pid i := by
    rcases h'.pid i with hi | hi
    · rw [hi]
      exact h.pid i
    · exact Or.inr hi
  free_iff p := by
    rw [h'.free_iff, h.free_iff, h.currpid]
    constructor
    · rintro ((hf | ⟨hc, i, hi, hi'⟩) | ⟨hc, i, hi, hi'⟩)
      · exact Or.inl hf
      · refine Or.inr ⟨hc, i, hi, ?_⟩
        rcases h'.pid i with heq | heq
        · exact heq.trans hi'
        · exact heq
      · rcases h.pid i with heq | heq
        · exact Or.inr ⟨hc, i, heq ▸ hi, hi'⟩
        · omega
    · rintro (hf | ⟨hc, i, hi, hi'⟩)
      · exact Or.inl (Or.inl hf)
      · rcases h.pid i with heq | heq
        · exact Or.inr ⟨hc, i, heq.trans hi, hi'⟩
        · exact Or.inl (Or.inr ⟨hc, i, hi, heq⟩)
  mailbox i := (h'.mailbox i).trans (h.mailbox i)
  dead i := by
    rcases h'.dead i with hi | ⟨hi, hi'⟩
    · rcases h.dead i with hj | ⟨hj, hj'⟩
      · exact Or.inl (hi.trans hj)
      · refine Or.inr ⟨hj, ?_⟩
        rcases h'.pid i with heq | heq
        · exact heq.trans hj'
        · exact heq
    · refine Or.inr ⟨fun hm => hi ?_, hi'⟩
      rcases h.pid i with heq | heq
      · exact heq.trans hm
      · exact heq
  curReply := h'.curReply.trans h.curReply
  nextTag := h'.nextTag.trans h.nextTag
  answers := h'.answers.trans h.answers
  returns := h'.returns.trans h.returns

theorem Base.slotOf_pid (hb : s.Base o) {i : ActorId} {p : Slot} :
    Kernel.slotOf (s.table.act i).pid = some p ↔ (s.table.act i).pid = p.val := by
  constructor
  · intro h
    rcases view_owner hb i with ⟨hnone, -⟩ | ⟨q, hq, hval, -⟩
    · rw [view] at hnone
      simp only at hnone
      rw [hnone] at h
      cases h
    · simp only [view] at hq
      rw [hq] at h
      cases h
      exact hval
  · intro h
    rw [h]
    exact Kernel.slotOf_val p (hb.ne_null (hb.actor_of_pid h).2)

/-- `proc_kill` of the process of one slot, which is freed. -/
theorem Base.kill_cuts (hb : s.Base o) {i : ActorId} {k : Kernel}
    (hpid : (s.table.act i).pid ≠ -1) (hk : s.kernel.procKill (s.table.act i).pid = some k)
    (hkernel : s'.kernel = k) (hctl : s'.ctl = s.ctl)
    (hact : s'.table.act = (s.table.modify i fun a => { a with pid := -1 }).act)
    (hdead : ∀ j, j ≠ i → s'.table.dead j = s.table.dead j)
    (hreply : s'.table.curReply = s.table.curReply) (htag : s'.nextTag = s.nextTag)
    (hans : s'.answers = s.answers) (hret : s'.returns = s.returns) : Cuts s s' := by
  have hkill := Kernel.procKill_kills hb.sched hk
  subst hkernel
  have hself : s'.table.act i = { s.table.act i with pid := -1 } := by
    rw [hact, ActorTable.modify_act_self]
  have hother : ∀ j, j ≠ i → s'.table.act j = s.table.act j := fun j hj => by
    rw [hact, ActorTable.modify_act_of_ne _ _ hj]
  refine ⟨hkill.currpid_eq, hctl, ?_, ?_, ?_, ?_, hreply, htag, hans, hret⟩
  · intro j
    by_cases hj : j = i
    · subst hj
      exact Or.inr (by rw [hself])
    · exact Or.inl (by rw [hother j hj])
  · intro p
    simp only [hkill.state_eq, hb.slotOf_pid]
    constructor
    · intro h
      split_ifs at h with hp
      · exact Or.inr ⟨hp.2, i, hp.1, by rw [hself]⟩
      · exact Or.inl h
    · rintro (h | ⟨hc, j, hj, hj'⟩)
      · split_ifs
        · rfl
        · exact h
      · by_cases hji : j = i
        · subst hji
          rw [if_pos ⟨hj, hc⟩]
        · rw [hother j hji] at hj'
          omega
  · intro j
    by_cases hj : j = i
    · subst hj
      rw [hself]
    · rw [hother j hj]
  · intro j
    by_cases hj : j = i
    · subst hj
      exact Or.inr ⟨hpid, by rw [hself]⟩
    · exact Or.inl (hdead j hj)

/-- A killed process carries nothing; the running one goes on, without a call. -/
theorem Cuts.killed (h : Cuts s s') (hb : s.Base o) {f : Frame} (hcur : s.cur = .running f)
    {i : ActorId} {p : Slot} (hi : (s'.table.act i).pid = -1) (hp : s.view.owner i = some p) :
    s'.view.load p = .empty ∨ s'.view.load p = s.view.load p ∧ (s.view.load p).call = none := by
  have hpid : (s.table.act i).pid = p.val := hb.slotOf_pid.mp hp
  by_cases hpc : p = s.kernel.currpid
  · subst hpc
    have halive : s'.kernel.state s.kernel.currpid ≠ .free := by
      rw [Ne, h.free_iff]
      rintro (hf | ⟨hne, -⟩)
      · exact hb.curr_alive hf
      · exact hne rfl
    right
    constructor
    · simp only [view, h.ctl]
      rw [if_neg halive, if_neg hb.curr_alive]
    · rw [view_load_cur hb, hcur]
      rfl
  · exact Or.inl (if_pos ((h.free_iff p).mpr (Or.inr ⟨hpc, i, hpid, hi⟩)))

/-- The other processes carry what they carried. -/
theorem Cuts.kept (h : Cuts s s') (hb : s.Base o) {p : Slot}
    (hp : ∀ i, (s'.table.act i).pid = -1 → s.view.owner i ≠ some p) :
    s'.view.load p = s.view.load p := by
  have hiff : s'.kernel.state p = .free ↔ s.kernel.state p = .free := by
    rw [h.free_iff]
    refine ⟨?_, Or.inl⟩
    rintro (hf | ⟨-, i, hi, hi'⟩)
    · exact hf
    · exact absurd (hb.slotOf_pid.mpr hi) (hp i hi')
  simp only [view, h.ctl, hiff]

/-- Freeing slots is an action of the protocol. -/
theorem Cuts.next (h : Cuts s s') (hb : s.Base o) {f : Frame} (hcur : s.cur = .running f)
    {D : ActorId → Bool} (hD : ∀ i, (s'.table.act i).pid = if D i then -1 else (s.table.act i).pid) :
    CallView.Next s.view (.release D) s'.view := by
  refine .release D s'.view ?_ ?_ ?_ ?_ (Or.inl ?_) h.curReply h.nextTag h.answers h.returns
  · intro i
    simp only [view, hD i]
    split_ifs
    · rfl
    · rfl
  · intro i hi
    rcases h.dead i with heq | ⟨hne, heq⟩
    · exact heq
    · rw [hD, if_neg hi] at heq
      exact absurd heq hne
  · intro p i hi hp
    exact h.killed hb hcur (by rw [hD, if_pos hi]) hp
  · intro p hp
    refine h.kept hb fun i hi hip => ?_
    by_cases hDi : D i
    · exact hp i hDi hip
    · rw [hD, if_neg hDi] at hi
      have := hb.slotOf_pid.mp hip
      omega
  · funext i
    simp only [view, ActorTable.queue, h.mailbox]

theorem apForceKill_next (hb : s.Base o) {id r : ℤ} {f : Frame} (hcur : s.cur = .running f)
    (hs : s.apForceKill id = some (r, s')) :
    CallView.Next s.view (s.act (.forceKill id)) s'.view := by
  rcases apForceKill_eq hs with ⟨rfl, -, hskip⟩ | ⟨i, k, hi, hpid, hprot, hk, rfl⟩
  · have hact : s'.act (.forceKill id) = .idle := by
      simp only [act]
      cases hi : s'.table.slotOf id with
      | none => rfl
      | some i =>
        dsimp only
        rw [if_pos (hskip i hi)]
    rw [hact]
    exact .idle
  · have hact : s.act (.forceKill id) = .release fun j => j = i := by
      simp only [act, hi]
      rw [if_neg]
      simp [hpid, hprot]
    rw [hact]
    have hcuts : Cuts s { s with
        kernel := k
        table := { s.table.modify i fun a => { a with pid := -1 } with
          dead := Function.update s.table.dead i true } } :=
      hb.kill_cuts hpid hk rfl rfl rfl (fun j hj => Function.update_of_ne hj ..) rfl rfl rfl rfl
    refine hcuts.next hb hcur fun j => ?_
    by_cases hj : j = i
    · subst hj
      simp
    · simp [ActorTable.modify_act_of_ne _ _ hj, hj]

/-- In the middle of a sweep the idle slots so far are freed, and no others. -/
structure Swept.Idle (s : Sys) (thresholdMs : ℤ) (nowMs : ℕ) (s' : Sys) : Prop where
  swept : Swept True s s'
  cuts : Cuts s s'
  only : ∀ i, (s'.table.act i).pid = -1 →
    (s.table.act i).pid = -1 ∨ s.idle thresholdMs nowMs i

theorem Swept.Idle.sweepSlot {thresholdMs : ℤ} {nowMs : ℕ} {w w' : Sweep} {i : ActorId} {f : Frame}
    (hcur : s.cur = .running f) (hi : i ∈ s.table.slots) (h : Swept.Idle s thresholdMs nowMs w.sys)
    (hw : Sys.sweepSlot thresholdMs false nowMs w i = some w') :
    Swept.Idle s thresholdMs nowMs w'.sys ∧
      (s.idle thresholdMs nowMs i → (w'.sys.table.act i).pid = -1) ∧
      ∀ j, (s.idle thresholdMs nowMs j → (w.sys.table.act j).pid = -1) →
        s.idle thresholdMs nowMs j → (w'.sys.table.act j).pid = -1 := by
  have hswept := h.swept.sweepSlot hcur (fun _ _ _ => trivial) hw
  unfold Sys.sweepSlot at hw
  split_ifs at hw with hpid hidle hdry
  · cases hw
    exact ⟨h, fun _ => hpid, fun _ hj => hj⟩
  · cases hdry
  · obtain ⟨⟨r, s₁⟩, hkill, rfl⟩ := Option.map_eq_some_iff.mp hw
    rw [idle_congr (h.swept.act i hpid) h.swept.nact] at hidle
    rcases apForceKill_eq hkill with ⟨-, -, hskip⟩ | ⟨j, k, hj, hjpid, hprot, hk, rfl⟩
    · exfalso
      have hlt : i.val < w.sys.table.nact.val := by
        rw [h.swept.nact]
        exact mem_slots.mp hi
      rcases hskip i (ActorTable.slotOf_val hlt) with hm1 | hprot
      · exact hpid hm1
      · rw [h.swept.act i hpid] at hprot
        simp [idle, hprot] at hidle
    · obtain ⟨hij, -⟩ := ActorTable.slotOf_eq_some hj
      obtain rfl : j = i := Fin.ext (by omega)
      have hcut : Cuts w.sys { w.sys with
          kernel := k
          table := { w.sys.table.modify j fun a => { a with pid := -1 } with
            dead := Function.update w.sys.table.dead j true } } :=
        h.swept.base.kill_cuts hpid hk rfl rfl rfl (fun l hl => Function.update_of_ne hl ..) rfl rfl
          rfl rfl
      refine ⟨⟨hswept, h.cuts.trans hcut, ?_⟩, ?_, ?_⟩
      · intro l hl
        by_cases hlj : l = j
        · subst hlj
          exact Or.inr hidle
        · simp only [ActorTable.modify_act_of_ne _ _ hlj] at hl
          exact h.only l hl
      · intro _
        simp
      · intro l hl hidl
        by_cases hlj : l = j
        · subst hlj
          simp
        · simp only [ActorTable.modify_act_of_ne _ _ hlj]
          exact hl hidl
  · cases hw
    rw [idle_congr (h.swept.act i hpid) h.swept.nact] at hidle
    exact ⟨h, fun hi => absurd hi hidle, fun _ hj => hj⟩

theorem apGcSweep_next (hb : s.Base True) {thresholdMs : ℤ} {dryRun : Bool} {nowMs : ℕ} {w : Sweep}
    {f : Frame} (hcur : s.cur = .running f)
    (hs : s.apGcSweep thresholdMs dryRun nowMs = some w) :
    CallView.Next s.view (s.act (.gcSweep thresholdMs dryRun nowMs)) w.sys.view := by
  cases dryRun with
  | true =>
    have hsame : w.sys = s := by
      refine exec_invariant (fun w => w.sys = s) ?_ rfl hs
      intro i _ w w' hw hstep
      unfold Sys.sweepSlot at hstep
      split_ifs at hstep with hpid hidle hdry
      · cases hstep
        exact hw
      · cases hstep
        exact hw
      · exact absurd rfl hdry
      · cases hstep
        exact hw
    rw [hsame]
    exact .idle
  | false =>
    obtain ⟨hall, hkilled, -⟩ := exec_forall (fun w => Swept.Idle s thresholdMs nowMs w.sys)
      (fun i w => s.idle thresholdMs nowMs i → (w.sys.table.act i).pid = -1)
      (fun i hi _ _ hI hstep => hI.sweepSlot hcur hi hstep)
      ⟨hb.swept, .refl s, fun _ => Or.inl⟩ hs
    have hact : s.act (.gcSweep thresholdMs false nowMs) =
        .release fun i => (s.table.act i).pid ≠ -1 ∧ s.idle thresholdMs nowMs i := rfl
    rw [hact]
    refine hall.cuts.next hb hcur fun i => ?_
    by_cases hD : (s.table.act i).pid ≠ -1 ∧ s.idle thresholdMs nowMs i
    · rw [if_pos (by simpa using hD)]
      exact hkilled i (mem_slots.mpr (hb.pid_proc i hD.1).1) hD.2
    · rw [if_neg (by simpa using hD)]
      rcases hall.cuts.pid i with h | h
      · exact h
      · rcases hall.only i h with h' | h'
        · rw [h, h']
        · by_cases hm1 : (s.table.act i).pid = -1
          · rw [h, hm1]
          · exact absurd ⟨hm1, h'⟩ hD

/-- The loop of `ap_killall` frees slots. -/
theorem reapAll_cuts (hb : s.Base o) (hself : ∀ i, (s.table.act i).pid ≠ s.kernel.currpid.val)
    (hs : exec reap s s.table.slots = some s') : Cuts s s' := by
  have hboth : Swept o s s' ∧ Cuts s s' := by
    refine exec_invariant (fun s' => Swept o s s' ∧ Cuts s s') ?_ ⟨hb.swept, .refl s⟩ hs
    rintro i - s₁ s₂ ⟨hv, hc⟩ hstep
    refine ⟨(hv.reap (hself i) hstep).1, hc.trans ?_⟩
    unfold reap at hstep
    split_ifs at hstep with hpos
    · obtain ⟨k, hk, rfl⟩ := Option.map_eq_some_iff.mp hstep
      exact hv.base.kill_cuts (by omega) hk rfl rfl rfl (fun _ _ => rfl) rfl rfl rfl rfl
    · cases hstep
      exact .refl _
  exact hboth.2

theorem apKillall_next (hb : s.Base o) {f : Frame} (hcur : s.cur = .running f)
    (hself : ∀ i, (s.table.act i).pid ≠ s.kernel.currpid.val) (hs : s.apKillall = some s') :
    CallView.Next s.view (s.act .killall) s'.view := by
  obtain ⟨s₁, hrun, rfl⟩ := Option.map_eq_some_iff.mp hs
  have hcuts := reapAll_cuts hb hself hrun
  have hall := (hb.reapAll hself hrun).2
  exact hcuts.next hb hcur fun i => by simpa using hall i

theorem apReset_next (hb : s.Base o) {f : Frame} (hcur : s.cur = .running f)
    (hself : ∀ i, (s.table.act i).pid ≠ s.kernel.currpid.val) (hs : s.apReset = some s') :
    CallView.Next s.view (s.act .reset) s'.view := by
  obtain ⟨k, hrun, rfl⟩ := Option.map_eq_some_iff.mp hs
  obtain ⟨s₁, hrun₁, rfl, hctl, -⟩ := exec_killPid (slots_nodup _) (fun _ _ => rfl) hrun
  have hcuts := reapAll_cuts hb hself hrun₁
  have hall := (hb.reapAll hself hrun₁).2
  -- the loads are those after the first loop
  have hload : ∀ p, (Sys.view { s with
      kernel := s₁.kernel.aiplForceRelease, table := s.table.clear }).load p = s₁.view.load p := by
    intro p
    simp only [view, hctl]
    rfl
  refine .release _ _ (fun i => ?_) (fun i hi => absurd rfl hi) ?_ ?_ (Or.inr ⟨?_, ?_⟩) rfl rfl rfl rfl
  · rfl
  · intro p i _ hp
    rw [hload]
    exact hcuts.killed hb hcur (hall i) hp
  · intro p hp
    rw [hload]
    exact hcuts.kept hb fun i _ => hp i rfl
  · intro i
    exact Ring.contents_clear _
  · intro i
    rfl

/-- A new process carries nothing. -/
theorem create_view_load (hb : s.Base o) {entry : ProcEntry} {n : ℕ} {name : List Char}
    {arg pid : ℤ} {k : Kernel} {c : Ctl} (hc : c.load = .empty)
    (hk : s.kernel.procCreateArg entry n name arg = some (pid, k)) (hkernel : s'.kernel = k)
    (hctl : s'.ctl = (Kernel.slotOf pid).elim s.ctl fun p => Function.update s.ctl p c) :
    s'.view.load = s.view.load := by
  subst hkernel
  funext p
  obtain ⟨-, -, ⟨rfl, hstate, -⟩ | ⟨q, hq0, hfree, rfl, hstate, -⟩⟩ :=
    Kernel.procCreateArg_effect hb.sched hk
  · simp only [view, hctl, hstate]
    rfl
  · rw [Kernel.slotOf_val q hq0] at hctl
    simp only [view, hctl, hstate]
    by_cases hpq : p = q
    · subst hpq
      simp [hfree, hc]
    · simp [hpq]

theorem createOther_next (hb : s.Base o) {addr n : ℕ} {name : List Char} {arg : ℤ}
    (hs : s.createOther addr n name arg = some s') : CallView.Next s.view .idle s'.view := by
  obtain ⟨pid, k, hc, rfl⟩ := createOther_eq hs
  exact CallView.Next.idle.of_eq
    (CallView.ext rfl rfl rfl (create_view_load hb rfl hc rfl rfl) rfl rfl rfl rfl)

theorem apSpawn_next (hb : s.Base o) {nowMs : ℕ} {r : ℤ}
    (hs : s.apSpawn nowMs = some (r, s')) :
    CallView.Next s.view (s.act (.spawn nowMs)) s'.view := by
  rcases apSpawn_eq hs with ⟨hnone, rfl⟩ | ⟨i, t, pid, k, ht, hc, rfl⟩
  · simp only [act, hnone]
    exact .idle
  · simp only [act, ht]
    obtain ⟨ht', -⟩ := spawnSlot_spec ht
    have hact : t.act = s.table.act := by rw [ht']
    refine (CallView.Next.spawn i (Kernel.slotOf (if pid < 0 then -1 else pid)) ?_ ?_).of_eq
      (CallView.ext ?_ ?_ ?_ (create_view_load hb rfl hc rfl rfl) ?_ rfl rfl rfl)
    · simp only [view, hb.spawnSlot_pid ht]
      rfl
    · intro q hq
      obtain ⟨-, -, ⟨rfl, -⟩ | ⟨p, hp0, hfree, rfl, -⟩⟩ := Kernel.procCreateArg_effect hb.sched hc
      · cases hq
      · have hpos : ¬ ((p.val : ℤ) < 0) := by omega
        rw [if_neg hpos, Kernel.slotOf_val p hp0] at hq
        cases hq
        refine ⟨if_pos hfree, fun j hj => ?_⟩
        exact (hb.actor_of_pid (hb.slotOf_pid.mp hj)).1 hfree
    · funext j
      by_cases hj : j = i
      · subst hj
        simp [view]
      · simp [view, hj, ActorTable.modify_act_of_ne _ _ hj, ActorTable.resetSlot_act_of_ne _ _ hj,
          hact]
    · simp only [view, ActorTable.modify, ActorTable.resetSlot]
      rw [ht']
    · funext j
      by_cases hj : j = i
      · subst hj
        simp [view, CallView.setQueue, ActorTable.queue, ActorTable.resetSlot, Ring.contents_clear]
      · simp [view, CallView.setQueue, ActorTable.queue, hj, ActorTable.modify_act_of_ne _ _ hj,
          ActorTable.resetSlot_act_of_ne _ _ hj, hact]
    · simp only [view, ActorTable.modify, ActorTable.resetSlot]
      rw [ht']
      rfl

theorem finishStep_next (hb : s.Base o) (hs : s.finishStep = some s') :
    CallView.Next s.view (s.act .finishStep) s'.view := by
  obtain ⟨self, hcur, ⟨hdead, k, hk, rfl⟩ | ⟨hdead, rfl⟩⟩ := finishStep_eq hs
  · have hactor : s.cur.actor = some self := by
      rw [hcur]
      rfl
    have hempty : s.view.load s.kernel.currpid = .empty := by
      rw [view_load_cur hb, hcur]
      rfl
    obtain ⟨a, hun⟩ := s.kernel.aiplUnlockAll_eq
    rw [hun] at hk
    have hexit := Kernel.procExit_exits (Kernel.SamePop.of_aipl hb.sched a).scheduled hb.null_alive
      (hb.ne_null hactor) hk
    -- the process that ends carries nothing any more
    have hload : ∀ p, (Sys.view { s with
        kernel := k
        table := s.table.modify self fun a => { a with pid := -1 } }).load p = s.view.load p := by
      intro p
      by_cases hp : p = s.kernel.currpid
      · subst hp
        rw [hempty]
        exact if_pos ((hexit.free_iff _).mpr (Or.inr rfl))
      · have hiff : k.state p = .free ↔ s.kernel.state p = .free := by
          rw [hexit.free_iff]
          exact ⟨fun h => h.resolve_right hp, Or.inl⟩
        simp only [view, hiff]
    simp only [act, hcur, hdead, if_true]
    refine .release _ _ ?_ (fun _ _ => rfl) ?_ (fun p _ => hload p) (Or.inl ?_) rfl rfl rfl rfl
    · intro i
      by_cases hi : i = self
      · subst hi
        simp only [view, ActorTable.modify_act_self, decide_true, if_true]
        rfl
      · simp [view, hi, ActorTable.modify_act_of_ne _ _ hi]
    · intro p i hi hp
      obtain rfl : i = self := by simpa using hi
      have hpid : (s.table.act i).pid = p.val := hb.slotOf_pid.mp hp
      rw [hload]
      rcases hb.proc_pid s.kernel.currpid i hb.curr_alive hactor with heq | ⟨-, heq, -⟩
      · obtain rfl : p = s.kernel.currpid := Fin.ext (by omega)
        exact Or.inl hempty
      · omega
    · have hqueue : (s.table.modify self fun a => { a with pid := -1 }).queue = s.table.queue :=
        ActorTable.modify_queue rfl
      exact hqueue
  · simp only [act, hcur, hdead]
    refine CallView.Next.idle.of_eq
      ((hb.loop_moves hcur hdead).view_eq hb ?_ rfl rfl rfl rfl rfl rfl)
    simp only [goto_ctl_self, hcur]
    rfl

theorem view_of_code {c : Ctl} (hb : s.Base o) (hcur : s.cur = .running .code)
    (hc : c.load = .empty) (hactor : c.actor = none) : (s.goto c).view = s.view := by
  have hm : Moves s (s.goto c) := by
    refine .of_goto rfl (samePop_refl hb) (.refl _) ?_ ?_
    · rw [hcur, hactor]
      rfl
    · rw [hcur]
      exact fun _ => Or.inr (by rintro i ⟨⟩)
  refine hm.view_eq hb ?_ rfl rfl rfl rfl rfl rfl
  rw [goto_ctl_self, hcur, hc]
  rfl

/-- Every step of the system is an action of the protocol. -/
theorem Base.step_next (hb : s.Base True) (hsh : s.Shaped) (hv : s.view.Sound) {op : SysOp}
    (hok : s.KeepsSlots True op) (hs : s.step op = some s') :
    CallView.Next s.view (s.act op) s'.view := by
  cases op with
  | send dest method a0 a1 a2 a3 => exact apSend_next hb hs
  | call dest method a0 a1 a2 a3 => exact apCall_next hb hs
  | select meths =>
    have hm := hb.apSelect_moves hs
    obtain ⟨f, self, hcur, -, rfl⟩ := apSelect_eq hs
    refine CallView.Next.idle.of_eq (hm.view_eq hb ?_ rfl rfl rfl rfl rfl rfl)
    simp only [goto_ctl_self, hcur]
    rfl
  | postStep => exact postStep_next hb hs
  | recvStep nowMs => exact recvStep_next hb hs
  | lockStep => exact lockStep_next hb hs
  | selectStep => exact selectStep_next hb hsh hs
  | relockStep => exact relockStep_next hb hs
  | ret r => exact handlerReturn_next hb hs
  | crash => exact apCrash_next hb hv hs
  | finishStep => exact finishStep_next hb hs
  | spawn nowMs =>
    obtain ⟨f, -, hs⟩ := asCode_eq hs
    obtain ⟨⟨r, s₁⟩, hspawn, rfl⟩ := Option.map_eq_some_iff.mp hs
    exact apSpawn_next hb hspawn
  | suicide id =>
    obtain ⟨f, -, hs⟩ := asCode_eq hs
    cases hs
    simp only [act, ActorTable.apSuicide]
    cases s.table.slotOf id with
    | none => exact .idle
    | some i => exact .doom i
  | gcProtect id on =>
    obtain ⟨f, -, hs⟩ := asCode_eq hs
    cases hs
    have hm : Moves s { s with table := s.table.apGcProtect id on } :=
      .of_stay rfl (samePop_refl hb) (s.table.apGcProtect_sameSlots id on)
    refine CallView.Next.idle.of_eq (hm.view_eq hb rfl ?_ ?_ ?_ rfl rfl rfl)
    all_goals
      dsimp only
      unfold ActorTable.apGcProtect
      split
    all_goals first | rfl | exact ActorTable.modify_queue rfl
  | forceKill id =>
    obtain ⟨f, hcur, hs⟩ := asCode_eq hs
    obtain ⟨⟨r, s₁⟩, hkill, rfl⟩ := Option.map_eq_some_iff.mp hs
    exact apForceKill_next hb hcur hkill
  | gcSweep thresholdMs dryRun nowMs =>
    obtain ⟨f, hcur, hs⟩ := asCode_eq hs
    obtain ⟨w, hsweep, rfl⟩ := Option.map_eq_some_iff.mp hs
    exact apGcSweep_next hb hcur hsweep
  | reset =>
    obtain ⟨f, hcur, hs⟩ := asCode_eq hs
    exact apReset_next hb hcur hok hs
  | killall =>
    obtain ⟨f, hcur, hs⟩ := asCode_eq hs
    exact apKillall_next hb hcur hok hs
  | direct actor =>
    obtain ⟨f, hcur, hs⟩ := asCode_eq hs
    split_ifs at hs with hf
    cases hs
    exact CallView.Next.idle.of_eq (view_of_code hb (by rw [hcur, hf]) rfl rfl)
  | lock =>
    obtain ⟨f, hcur, hs⟩ := asCode_eq hs
    split_ifs at hs with hf
    cases hs
    exact CallView.Next.idle.of_eq (view_of_code hb (by rw [hcur, hf]) rfl rfl)
  | unlock =>
    obtain ⟨f, hcur, hs⟩ := asCode_eq hs
    split_ifs at hs with hf
    cases hs
    obtain ⟨a, hk⟩ := s.kernel.aiplUnlock_eq
    refine CallView.Next.idle.of_eq (CallView.ext rfl rfl rfl ?_ rfl rfl rfl rfl)
    simp only [view, hk]
    rfl
  | create addr n name arg =>
    obtain ⟨f, -, hs⟩ := asCode_eq hs
    exact createOther_next hb hs
  | exit =>
    obtain ⟨f, hcur, hs⟩ := asCode_eq hs
    split_ifs at hs with hf
    obtain ⟨k, hk, rfl⟩ := Option.map_eq_some_iff.mp hs
    have hexit := Kernel.procExit_exits hb.sched hb.null_alive hf.2 hk
    refine CallView.Next.idle.of_eq (CallView.ext rfl rfl rfl ?_ rfl rfl rfl rfl)
    funext p
    by_cases hp : p = s.kernel.currpid
    · subst hp
      rw [view_load_cur hb, hcur, hf.1]
      exact if_pos ((hexit.free_iff _).mpr (Or.inr rfl))
    · have hiff : k.state p = .free ↔ s.kernel.state p = .free := by
        rw [hexit.free_iff]
        exact ⟨fun h => h.resolve_right hp, Or.inl⟩
      simp only [view, hiff]
  | resched =>
    cases hs
    have hm : Moves s { s with kernel := s.kernel.procResched } :=
      .of_stay rfl (Kernel.procResched_samePop hb.sched) (.refl _)
    exact CallView.Next.idle.of_eq (hm.view_eq hb rfl rfl rfl rfl rfl rfl rfl)

theorem Shaped.of_goto {c : Ctl} (h : s.Shaped) (hc : c.Shaped) (hctl : s'.ctl = (s.goto c).ctl) :
    s'.Shaped := by
  intro p
  rw [hctl]
  by_cases hp : p = s.kernel.currpid
  · subst hp
    rw [goto_ctl_self]
    exact hc
  · rw [goto_ctl_of_ne s c hp]
    exact h p

theorem Shaped.of_eq (h : s.Shaped) (hctl : s'.ctl = s.ctl) : s'.Shaped := by
  intro p
  rw [hctl]
  exact h p

theorem Shaped.beginPost {s₀ : Sys} {dest : ℤ} {m : ApMsg} {next : PostCont} (h : s₀.Shaped) :
    (s₀.beginPost dest m next).Shaped := by
  rcases s₀.beginPost_eq dest m next with ⟨i, -, -, heq⟩ | ⟨-, oob, dead, heq⟩
  · rw [heq]
    exact h.of_goto (c := .posting i m next) trivial rfl
  · rw [heq]
    exact h.of_goto (c := next.resume) next.resume_shaped rfl

theorem Shaped.answer {self : ActorId} {replyTo r : ℤ} {tag : Option ℕ} (h : s.Shaped) :
    (s.answer self replyTo r tag).Shaped := by
  have hd : (s.disarm self r tag).Shaped := h.of_eq rfl
  unfold Sys.answer
  split_ifs
  · exact hd.beginPost
  · exact hd.of_goto (c := .finishing self) trivial rfl

theorem Shaped.create {pid : ℤ} {c : Ctl} (h : s.Shaped) (hc : c.Shaped)
    (hctl : s'.ctl = (Kernel.slotOf pid).elim s.ctl fun p => Function.update s.ctl p c) :
    s'.Shaped := by
  intro p
  rw [hctl]
  cases Kernel.slotOf pid with
  | none => exact h p
  | some q =>
    by_cases hp : p = q
    · subst hp
      simpa using hc
    · simpa [hp] using h p

theorem Shaped.step (h : s.Shaped) (hb : s.Base True) {op : SysOp} (hok : s.KeepsSlots True op)
    (hs : s.step op = some s') : s'.Shaped := by
  cases op with
  | send dest method a0 a1 a2 a3 =>
    obtain ⟨f, hcur, rfl⟩ := apSend_eq hs
    exact h.beginPost
  | call dest method a0 a1 a2 a3 =>
    obtain ⟨f, self, hcur, -, rfl⟩ := apCall_eq hs
    have hpost : (s.beginPost dest (s.request self method a0 a1 a2 a3)
      (.call ⟨self, dest, s.nextTag⟩ f)).Shaped := h.beginPost
    exact hpost.of_eq rfl
  | select meths =>
    obtain ⟨f, self, hcur, -, rfl⟩ := apSelect_eq hs
    exact h.of_goto (c := .selecting self meths (.select f) none) trivial rfl
  | postStep =>
    obtain ⟨d, m, next, hcur, rfl⟩ := postStep_eq hs
    exact h.of_goto next.resume_shaped rfl
  | recvStep nowMs =>
    obtain ⟨self, hcur, ⟨t, m, -, rfl⟩ | ⟨t, -, rfl⟩⟩ := recvStep_eq hs
    · exact h.of_goto (c := .locking (.handler self m) 0) trivial rfl
    · exact h.of_eq rfl
  | lockStep =>
    obtain ⟨f, spins, hcur, ⟨k, -, rfl⟩ | rfl⟩ := lockStep_eq hs
    · exact h.of_goto (c := .running f) trivial rfl
    · exact h.of_goto (c := .locking f (spins + 1)) trivial rfl
  | selectStep =>
    obtain ⟨self, meths, next, hcur, ⟨t, m, -, rfl⟩ | ⟨t, relock, -, rfl⟩⟩ := selectStep_eq hs
    · exact h.of_goto (c := .running next.frame) trivial rfl
    · refine h.of_goto (c := .selecting self meths next relock) ?_ rfl
      have hold := h s.kernel.currpid
      rw [← cur, hcur] at hold
      cases next <;> exact hold
  | relockStep =>
    obtain ⟨self, meths, next, saved, spins, hcur, ⟨k, -, rfl⟩ | rfl⟩ := relockStep_eq hs
    all_goals
      have hold := h s.kernel.currpid
      rw [← cur, hcur] at hold
    · refine h.of_goto (c := .selecting self meths next none) ?_ rfl
      cases next <;> exact hold
    · refine h.of_goto (c := .selecting self meths next (some (saved, spins + 1))) ?_ rfl
      cases next <;> exact hold
  | ret r =>
    rcases handlerReturn_eq hs with ⟨actor, hcur, rfl⟩ | ⟨self, m, hcur, rfl⟩
    · exact h.of_goto (c := .running .code) trivial rfl
    · exact h.answer
  | crash =>
    obtain ⟨f, hcur, ⟨rfl, -⟩ | ⟨self, i, -, -, -, rfl⟩⟩ := apCrash_eq hs
    · exact h
    · exact h.answer
  | finishStep =>
    obtain ⟨self, hcur, ⟨-, k, -, rfl⟩ | ⟨-, rfl⟩⟩ := finishStep_eq hs
    · exact h.of_eq rfl
    · exact h.of_goto (c := .recv self) trivial rfl
  | spawn nowMs =>
    obtain ⟨f, -, hs⟩ := asCode_eq hs
    obtain ⟨⟨r, s₁⟩, hspawn, rfl⟩ := Option.map_eq_some_iff.mp hs
    rcases apSpawn_eq hspawn with ⟨-, rfl⟩ | ⟨i, t, pid, k, -, -, rfl⟩
    · exact h
    · exact h.create (c := .recv i) trivial rfl
  | suicide id =>
    obtain ⟨f, -, hs⟩ := asCode_eq hs
    cases hs
    exact h.of_eq rfl
  | gcProtect id on =>
    obtain ⟨f, -, hs⟩ := asCode_eq hs
    cases hs
    exact h.of_eq rfl
  | forceKill id =>
    obtain ⟨f, hcur, hs⟩ := asCode_eq hs
    obtain ⟨⟨r, s₁⟩, hkill, rfl⟩ := Option.map_eq_some_iff.mp hs
    rcases apForceKill_eq hkill with ⟨rfl, -⟩ | ⟨i, k, -, -, -, -, rfl⟩
    · exact h
    · exact h.of_eq rfl
  | gcSweep thresholdMs dryRun nowMs =>
    obtain ⟨f, hcur, hs⟩ := asCode_eq hs
    obtain ⟨w, hsweep, rfl⟩ := Option.map_eq_some_iff.mp hs
    exact h.of_eq (hb.apGcSweep hcur hok hsweep).ctl
  | reset =>
    obtain ⟨f, -, hs⟩ := asCode_eq hs
    obtain ⟨k, -, rfl⟩ := Option.map_eq_some_iff.mp hs
    exact h.of_eq rfl
  | killall =>
    obtain ⟨f, -, hs⟩ := asCode_eq hs
    obtain ⟨s₁, hrun, rfl⟩ := Option.map_eq_some_iff.mp hs
    exact h.of_eq (hb.reapAll hok hrun).1.ctl
  | direct actor =>
    obtain ⟨f, -, hs⟩ := asCode_eq hs
    split_ifs at hs
    cases hs
    exact h.of_goto (c := .locking (.direct actor) 0) trivial rfl
  | lock =>
    obtain ⟨f, -, hs⟩ := asCode_eq hs
    split_ifs at hs
    cases hs
    exact h.of_goto (c := .locking .code 0) trivial rfl
  | unlock =>
    obtain ⟨f, -, hs⟩ := asCode_eq hs
    split_ifs at hs
    cases hs
    exact h.of_eq rfl
  | create addr n name arg =>
    obtain ⟨f, -, hs⟩ := asCode_eq hs
    obtain ⟨pid, k, -, rfl⟩ := createOther_eq hs
    exact h.create (c := .running .code) trivial rfl
  | exit =>
    obtain ⟨f, -, hs⟩ := asCode_eq hs
    split_ifs at hs
    obtain ⟨k, -, rfl⟩ := Option.map_eq_some_iff.mp hs
    exact h.of_eq rfl
  | resched =>
    cases hs
    exact h.of_eq rfl

theorem init_view_load (lo hi : ℕ) (t : ActorTable) (p : Slot) :
    (init lo hi t).view.load p = .empty := by
  simp only [view]
  split_ifs
  · rfl
  · rfl

theorem init_view_queue (lo hi : ℕ) (t : ActorTable) (i : ActorId) :
    (init lo hi t).view.queue i = [] := Ring.contents_clear _

/-- At the start the protocol is idle. -/
theorem init_view_sound (lo hi : ℕ) (t : ActorTable) : (init lo hi t).view.Sound := by
  refine ⟨?_, ?_, ?_, ?_⟩
  · intro i j p h
    cases h
  · intro p c h
    rw [init_view_load] at h
    cases h
  · intro p i m h
    rw [init_view_load] at h
    cases h
  · rintro m (⟨i, hm⟩ | ⟨p, i, hm⟩ | ⟨p, i, hm⟩)
    · rw [init_view_queue] at hm
      cases hm
    · rw [init_view_load] at hm
      cases hm
    · rw [init_view_load] at hm
      cases hm

end Sys

end XinuRpi4.Actor
