import XinuRpi4.Actor.OneProcess

/-!
# No lost wake-up

A process that is parked in `ap_recv` or `ap_select` finds nothing to take in its
mailbox, its slot is marked as waiting, and the pid that `ap_post` would wake is
its own. A handler that `cc_actor_send_msg` runs directly is not in the process
of its actor: when it waits in `ap_select`, the wake-up goes to the actor's
process, which does not wait for it.
-/

namespace XinuRpi4.Actor

open Foundation Process

/-- The mailbox a process waits on when it is parked here, and what it would take. -/
def Ctl.awaits : Ctl → Option (ActorId × (ApMsg → Bool))
  | .recv self => some (self, fun _ => true)
  | .selecting self meths _ _ => some (self, ApMsg.wanted meths)
  | _ => none

/-- Mailboxes, flags and pids are the same. -/
def ActorTable.SameMail (t t' : ActorTable) : Prop :=
  ∀ i, (t'.act i).mailbox = (t.act i).mailbox ∧ (t'.act i).waiting = (t.act i).waiting ∧
    (t'.act i).pid = (t.act i).pid

namespace ActorTable

variable {t : ActorTable}

theorem SameMail.of_act {t' : ActorTable} (h : t'.act = t.act) : SameMail t t' := by
  intro i
  rw [h]
  exact ⟨rfl, rfl, rfl⟩

theorem modify_sameMail {i : ActorId} {f : ActorEnt → ActorEnt}
    (h : (f (t.act i)).mailbox = (t.act i).mailbox ∧ (f (t.act i)).waiting = (t.act i).waiting ∧
      (f (t.act i)).pid = (t.act i).pid) : SameMail t (t.modify i f) := by
  intro j
  by_cases hj : j = i
  · subst hj
    rw [modify_act_self]
    exact h
  · rw [modify_act_of_ne t f hj]
    exact ⟨rfl, rfl, rfl⟩

theorem apNoteMsg_sameMail (t : ActorTable) (id : ℤ) : SameMail t (t.apNoteMsg id) := by
  unfold apNoteMsg
  split
  · exact .of_act rfl
  · exact modify_sameMail ⟨rfl, rfl, rfl⟩

theorem apGcProtect_sameMail (t : ActorTable) (id : ℤ) (on : Bool) :
    SameMail t (t.apGcProtect id on) := by
  unfold apGcProtect
  split
  · exact .of_act rfl
  · exact modify_sameMail ⟨rfl, rfl, rfl⟩

theorem apSuicide_sameMail (t : ActorTable) (id : ℤ) : SameMail t (t.apSuicide id) := by
  unfold apSuicide
  split <;> exact .of_act rfl

end ActorTable

namespace Sys

variable {s s' : Sys} {p : Slot} {i : ActorId} {w : ApMsg → Bool}

/-- A process parked on slot `i`, waiting for what `w` accepts. -/
structure Parked (s : Sys) (p : Slot) (i : ActorId) (w : ApMsg → Bool) : Prop where
  nothing : ∀ m ∈ s.table.queue i, ¬ w m
  waiting : (s.table.act i).waiting
  pid : (s.table.act i).pid = p.val

/-- Every parked process may stay parked. -/
def Waits (s : Sys) : Prop :=
  ∀ p i w, s.kernel.state p = .wait → (s.ctl p).awaits = some (i, w) → s.Parked p i w

/-- Parked processes stay parked on the same slot, or wake up. -/
theorem Waits.of_parked (h : s.Waits)
    (hp : ∀ p, s'.kernel.state p = .wait → s.kernel.state p = .wait ∧ s'.ctl p = s.ctl p)
    (ht : ∀ p i w, s'.kernel.state p = .wait → s.Parked p i w → s'.Parked p i w) : s'.Waits := by
  intro p i w hw haw
  obtain ⟨hold, hctl⟩ := hp p hw
  rw [hctl] at haw
  exact ht p i w hw (h p i w hold haw)

theorem Parked.of_same (h : s.Parked p i w)
    (hmail : (s'.table.act i).mailbox = (s.table.act i).mailbox ∧
      (s'.table.act i).waiting = (s.table.act i).waiting ∧
      (s'.table.act i).pid = (s.table.act i).pid) : s'.Parked p i w := by
  refine ⟨?_, by rw [hmail.2.1]; exact h.waiting, by rw [hmail.2.2]; exact h.pid⟩
  rw [ActorTable.queue, hmail.1]
  exact h.nothing

/-- A step that touches no mailbox and puts nobody to sleep. -/
structure Still (s s' : Sys) : Prop where
  moves : Moves s s'
  mail : ActorTable.SameMail s.table s'.table
  wait_of : ∀ p, s'.kernel.state p = .wait → s.kernel.state p = .wait

theorem wait_ne_curr (h : s.kernel.Scheduled) (hp : s.kernel.state p = .wait) :
    p ≠ s.kernel.currpid := by
  rintro rfl
  rw [Kernel.curr_state h] at hp
  cases hp

theorem Waits.still {o : Prop} (h : s.Waits) (hb : s.Base o) (hs : Still s s') : s'.Waits := by
  refine h.of_parked ?_ ?_
  · intro p hp
    have hold := hs.wait_of p hp
    exact ⟨hold, hs.moves.ctl_other p (wait_ne_curr hb.sched hold)⟩
  · exact fun p i w _ hpk => hpk.of_same (hs.mail i)

section Still

variable {o : Prop}

theorem beginPost_still (h : s.Base o) {s₀ : Sys} {dest : ℤ} {m : ApMsg} {next : PostCont}
    (hctl : s₀.ctl = s.ctl) (hk : s₀.kernel = s.kernel) (hact : s₀.table.act = s.table.act)
    (hslots : ActorTable.SameSlots s.table s₀.table) (hactor : next.actor = s.cur.actor) :
    Still s (s₀.beginPost dest m next) := by
  have hm : Moves s (s₀.beginPost dest m next) := h.beginPost_moves hctl hk hslots hactor
  rcases s₀.beginPost_eq dest m next with ⟨i, -, -, heq⟩ | ⟨-, oob, dead, heq⟩
  · rw [heq] at hm ⊢
    refine ⟨hm, .of_act hact, fun p hp => ?_⟩
    rw [goto, hk] at hp
    exact hp
  · rw [heq] at hm ⊢
    refine ⟨hm, .of_act hact, fun p hp => ?_⟩
    rw [goto, hk] at hp
    exact hp

theorem answer_still (h : s.Base o) {self : ActorId} (replyTo r : ℤ) (tag : Option ℕ)
    (hactor : s.cur.actor = some self) : Still s (s.answer self replyTo r tag) := by
  have hm := h.answer_moves replyTo r tag hactor
  unfold answer at hm ⊢
  split_ifs at hm ⊢
  · exact beginPost_still h rfl rfl rfl ⟨fun _ => rfl, rfl, fun _ h => h⟩ hactor.symm
  · exact ⟨hm, .of_act rfl, fun _ h => h⟩

theorem apSend_still (h : s.Base o) {dest method a0 a1 a2 a3 : ℤ}
    (hs : s.apSend dest method a0 a1 a2 a3 = some s') : Still s s' := by
  obtain ⟨f, hcur, rfl⟩ := apSend_eq hs
  exact beginPost_still h rfl rfl rfl (.refl _) (by rw [hcur]; rfl)

theorem apCall_still (h : s.Base o) {dest method a0 a1 a2 a3 : ℤ}
    (hs : s.apCall dest method a0 a1 a2 a3 = some s') : Still s s' := by
  have hm := h.apCall_moves hs
  obtain ⟨f, self, hcur, -, rfl⟩ := apCall_eq hs
  have hst : Still s (s.beginPost dest (s.request self method a0 a1 a2 a3)
      (.call ⟨self, dest, s.nextTag⟩ f)) :=
    beginPost_still h rfl rfl rfl (.refl _) (by rw [hcur]; rfl)
  exact ⟨hm, hst.mail, hst.wait_of⟩

theorem apSelect_still (h : s.Base o) {meths : List ℤ} (hs : s.apSelect meths = some s') :
    Still s s' := by
  have hm := h.apSelect_moves hs
  obtain ⟨f, self, hcur, -, rfl⟩ := apSelect_eq hs
  exact ⟨hm, .of_act rfl, fun _ h => h⟩

theorem arm_sameMail (t : ActorTable) (f : Frame) : ActorTable.SameMail t (arm t f) := by
  cases f <;> exact .of_act rfl

theorem lockStep_still (h : s.Base o) (hs : s.lockStep = some s') : Still s s' := by
  have hm := h.lockStep_moves hs
  obtain ⟨f, spins, hcur, ⟨k, hk, rfl⟩ | rfl⟩ := lockStep_eq hs
  · obtain ⟨a, rfl⟩ := Kernel.aiplRound_eq hk
    exact ⟨hm, arm_sameMail s.table f, fun _ h => h⟩
  · exact ⟨hm, .of_act rfl, fun _ hp => Kernel.procResched_wait h.sched hp⟩

theorem relockStep_still (h : s.Base o) (hs : s.relockStep = some s') : Still s s' := by
  have hm := h.relockStep_moves hs
  obtain ⟨self, meths, next, saved, spins, hcur, ⟨k, hk, rfl⟩ | rfl⟩ := relockStep_eq hs
  · obtain ⟨a, rfl⟩ := Kernel.aiplRound_eq hk
    exact ⟨hm, .of_act rfl, fun _ h => h⟩
  · exact ⟨hm, .of_act rfl, fun _ hp => Kernel.procResched_wait h.sched hp⟩

theorem handlerReturn_still (h : s.Base o) {r : ℤ} (hs : s.handlerReturn r = some s') :
    Still s s' := by
  have hm := h.handlerReturn_moves hs
  rcases handlerReturn_eq hs with ⟨actor, hcur, rfl⟩ | ⟨self, m, hcur, rfl⟩
  · obtain ⟨a, hk⟩ := s.kernel.aiplUnlock_eq
    refine ⟨hm, s.table.apNoteMsg_sameMail actor.val, fun p hp => ?_⟩
    simp only [hk] at hp
    exact hp
  · exact answer_still h m.replyTo r m.tag (by rw [hcur]; rfl)

theorem apCrash_still (h : s.Base o) (hs : s.apCrash = some s') : Still s s' := by
  have hm := h.apCrash_moves hs
  obtain ⟨f, hcur, ⟨rfl, -⟩ | ⟨self, i, hself, hpid, -, rfl⟩⟩ := apCrash_eq hs
  · exact ⟨hm, .of_act rfl, fun _ h => h⟩
  · have hactor : s.cur.actor = some i := (h.actor_of_pid hpid).2
    obtain rfl : i = self := Option.some.inj ((h.argSlot_eq hactor).symm.trans hself)
    exact answer_still h _ _ _ hactor

end Still

section Waits

variable {o : Prop}

theorem Parked.ne_null (hb : s.Base o) (h : s.Parked p i w) : p ≠ nullproc :=
  hb.ne_null (hb.actor_of_pid h.pid).2

/-- Nothing but the mailbox of `i` changes, which loses messages at most. -/
theorem Parked.of_subset {j : ActorId} (h : s.Parked p i w)
    (hother : i ≠ j → s'.table.act i = s.table.act i)
    (hsub : ∀ m ∈ s'.table.queue j, m ∈ s.table.queue j)
    (hwaiting : (s.table.act j).waiting → (s'.table.act j).waiting)
    (hpid : ∀ i, (s'.table.act i).pid = (s.table.act i).pid) : s'.Parked p i w := by
  by_cases hij : i = j
  · subst hij
    exact ⟨fun m hm => h.nothing m (hsub m hm), hwaiting h.waiting, by rw [hpid]; exact h.pid⟩
  · apply h.of_same
    rw [hother hij]
    exact ⟨rfl, rfl, rfl⟩

/-- A post wakes the process that is parked on the slot. -/
theorem Waits.postStep (h : s.Waits) (hb : s.Base o) (hs : s.postStep = some s') : s'.Waits := by
  have hm := hb.postStep_moves hs
  obtain ⟨dest, m, next, hcur, rfl⟩ := postStep_eq hs
  by_cases hfull : (s.table.act dest).mailbox.Full
  · have hsec : s.table.postSection dest m =
        ({ s.table with dropFull := s.table.dropFull + 1 }, none) := if_pos hfull
    rw [hsec] at hm ⊢
    exact h.still hb ⟨hm, .of_act rfl, fun _ h => h⟩
  · have hwake : ∀ p, ((s.table.postSection dest m).2.elim s.kernel s.kernel.procReady).state p =
        .wait → s.kernel.state p = .wait ∧ ∀ w, ¬ s.Parked p dest w := by
      intro p hp
      have hsnd : (s.table.postSection dest m).2 =
          if (s.table.act dest).waiting then some (s.table.act dest).pid else none := by
        simp only [ActorTable.postSection, if_neg hfull]
      rw [hsnd] at hp
      by_cases hwt : (s.table.act dest).waiting
      · rw [if_pos hwt] at hp
        obtain ⟨hold, hslot⟩ := Kernel.procReady_wait hp
        refine ⟨hold, fun w hpk => hslot ?_⟩
        rw [hpk.pid]
        exact Kernel.slotOf_val p (hpk.ne_null hb)
      · rw [if_neg hwt] at hp
        exact ⟨hp, fun w hpk => hwt hpk.waiting⟩
    refine h.of_parked ?_ ?_
    · intro p hp
      obtain ⟨hold, -⟩ := hwake p hp
      exact ⟨hold, hm.ctl_other p (wait_ne_curr hb.sched hold)⟩
    · intro p i w hp hpk
      have hi : i ≠ dest := by
        rintro rfl
        exact (hwake p hp).2 w hpk
      apply hpk.of_same
      simp only [ActorTable.postSection_act_of_ne _ _ hi, and_self]

/-- A receive that blocks parks the process of the slot. -/
theorem Waits.recvStep (h : s.Waits) (hb : s.Base o) {nowMs : ℕ}
    (hs : s.recvStep nowMs = some s') : s'.Waits := by
  have hm := hb.recvStep_moves hs
  obtain ⟨self, hcur, hres⟩ := recvStep_eq hs
  obtain ⟨hqueue, hout⟩ := s.table.recvSection_queue self nowMs
  have hwaiting := s.table.recvSection_waiting self nowMs
  have hact : ∀ i, i ≠ self → (s.table.recvSection self nowMs).1.act i = s.table.act i :=
    fun i hi => s.table.recvSection_act_of_ne nowMs hi
  rcases hres with ⟨t, m, hrecv, rfl⟩ | ⟨t, hrecv, rfl⟩
  · rw [hrecv] at hqueue hwaiting hact
    refine h.of_parked ?_ ?_
    · intro p hp
      exact ⟨hp, hm.ctl_other p (wait_ne_curr hb.sched hp)⟩
    · intro p i w _ hpk
      refine hpk.of_subset (j := self) (hact i) ?_ ?_ hm.slots.pid
      · intro m' hm'
        exact List.mem_of_mem_tail (hqueue ▸ hm')
      · intro hw
        rw [hwaiting, hw]
        simp
  · rw [hrecv] at hqueue hwaiting hout hact
    have hnil : s.table.queue self = [] := List.head?_eq_none_iff.mp hout.symm
    have hstay : ∀ p i w, s.Parked p i w →
        Parked { s with table := t, kernel := s.kernel.procBlock } p i w := by
      intro p i w hpk
      refine hpk.of_subset (j := self) (hact i) ?_ ?_ hm.slots.pid
      · intro m' hm'
        exact List.mem_of_mem_tail (hqueue ▸ hm')
      · intro _
        rw [hwaiting]
        simp
    intro p i w hp haw
    rcases Kernel.procBlock_wait hb.sched hp with hold | rfl
    · exact hstay p i w (h p i w hold haw)
    · change s.cur.awaits = _ at haw
      rw [hcur] at haw
      cases haw
      refine ⟨?_, ?_, ?_⟩
      · simp only [hqueue, hnil, List.tail_nil, List.not_mem_nil, false_implies, implies_true]
      · rw [hwaiting]
        simp
      · rw [hm.slots.pid]
        rcases hb.proc_pid s.kernel.currpid self hb.curr_alive (by rw [← cur, hcur]; rfl) with
          heq | ⟨-, -, -, hearly⟩
        · exact heq
        · rw [← cur, hcur] at hearly
          exact absurd rfl hearly

/-- A select that blocks parks the process of the slot, if it runs there. -/
theorem Waits.selectStep (h : s.Waits) (hb : s.Base o)
    (hown : ∀ self meths next, s.cur = .selecting self meths next none →
      (s.table.act self).pid ≠ s.kernel.currpid.val → ∃ m ∈ s.table.queue self, m.method ∈ meths)
    (hs : s.selectStep = some s') : s'.Waits := by
  have hm := hb.selectStep_moves hs
  obtain ⟨self, meths, next, hcur, hres⟩ := selectStep_eq hs
  obtain ⟨hqueue, hout⟩ := s.table.selectSection_queue self meths
  have hwaiting := s.table.selectSection_waiting self meths
  have hact : ∀ i, i ≠ self → (s.table.selectSection self meths).1.act i = s.table.act i :=
    fun i hi => s.table.selectSection_act_of_ne meths hi
  rcases hres with ⟨t, m, hsel, rfl⟩ | ⟨t, relock, hsel, rfl⟩
  · rw [hsel] at hqueue hwaiting hact
    refine h.of_parked ?_ ?_
    · intro p hp
      exact ⟨hp, hm.ctl_other p (wait_ne_curr hb.sched hp)⟩
    · intro p i w _ hpk
      refine hpk.of_subset (j := self) (hact i) ?_ ?_ hm.slots.pid
      · intro m' hm'
        exact List.mem_of_mem_eraseP (hqueue ▸ hm')
      · intro hw
        rw [hwaiting, hw]
        simp
  · rw [hsel] at hqueue hwaiting hout hact
    have hnone := List.find?_eq_none.mp hout.symm
    have hpid : (s.table.act self).pid = s.kernel.currpid.val := by
      by_contra hne
      obtain ⟨m, hmem, hmeth⟩ := hown self meths next hcur hne
      exact hnone m hmem (by simpa [ApMsg.wanted] using hmeth)
    intro p i w hp haw
    obtain ⟨a, hk⟩ := s.kernel.aiplUnlockAll_eq
    simp only [hk] at hp
    rcases Kernel.procBlock_wait (Kernel.SamePop.of_aipl hb.sched a).scheduled hp with hold | rfl
    · have hne := wait_ne_curr hb.sched hold
      simp only [goto_ctl_of_ne s _ hne] at haw
      refine (h p i w hold haw).of_subset (j := self) (hact i) ?_ ?_ hm.slots.pid
      · intro m' hm'
        exact List.mem_of_mem_eraseP (hqueue ▸ hm')
      · intro _
        rw [hwaiting]
        simp
    · simp only [goto_ctl_self] at haw
      cases haw
      refine ⟨fun m hmem => ?_, by rw [hwaiting]; simp, by rw [hm.slots.pid]; exact hpid⟩
      exact hnone m (List.mem_of_mem_eraseP (hqueue ▸ hmem))

theorem Waits.finishStep (h : s.Waits) (hb : s.Base o) (hs : s.finishStep = some s') : s'.Waits := by
  obtain ⟨self, hcur, ⟨-, k, hk, rfl⟩ | ⟨-, rfl⟩⟩ := finishStep_eq hs
  · have hactor : s.cur.actor = some self := by
      rw [hcur]
      rfl
    obtain ⟨a, hun⟩ := s.kernel.aiplUnlockAll_eq
    rw [hun] at hk
    have hexit := Kernel.procExit_exits (Kernel.SamePop.of_aipl hb.sched a).scheduled hb.null_alive
      (hb.ne_null hactor) hk
    refine h.of_parked (fun p hp => ⟨(hexit.wait_of p hp).1, rfl⟩) ?_
    intro p i w hp hpk
    have hne : p ≠ s.kernel.currpid := (hexit.wait_of p hp).2
    have hi : i ≠ self := by
      rintro rfl
      rcases hb.proc_pid s.kernel.currpid i hb.curr_alive hactor with heq | ⟨-, heq, -⟩
      · exact hne (Fin.ext (by have := hpk.pid; omega))
      · have := hpk.pid
        omega
    apply hpk.of_same
    simp only [ActorTable.modify_act_of_ne _ _ hi, and_self]
  · obtain ⟨a, hun⟩ := s.kernel.aiplUnlockAll_eq
    refine h.of_parked (fun p hp => ?_) fun p i w _ hpk => hpk.of_same ⟨rfl, rfl, rfl⟩
    simp only [hun] at hp
    have hold : s.kernel.state p = .wait := hp
    exact ⟨hold, goto_ctl_of_ne s _ (wait_ne_curr hb.sched hold)⟩

/-- Creating a process disturbs nobody who waits. -/
theorem create_wait {entry : ProcEntry} {n : ℕ} {name : List Char} {arg pid : ℤ} {k : Kernel}
    {c : Ctl} (hb : s.Base o) (hc : s.kernel.procCreateArg entry n name arg = some (pid, k))
    (hp : k.state p = .wait) :
    s.kernel.state p = .wait ∧
      ((Kernel.slotOf pid).elim s.ctl fun q => Function.update s.ctl q c) p = s.ctl p := by
  obtain ⟨-, -, ⟨rfl, hstate, -⟩ | ⟨q, hq0, -, rfl, hstate, -⟩⟩ :=
    Kernel.procCreateArg_effect hb.sched hc
  · rw [hstate] at hp
    exact ⟨hp, rfl⟩
  · have hpq : p ≠ q := by
      rintro rfl
      rw [hstate, Function.update_self] at hp
      cases hp
    rw [hstate, Function.update_of_ne hpq] at hp
    refine ⟨hp, ?_⟩
    rw [Kernel.slotOf_val q hq0]
    exact Function.update_of_ne hpq ..

theorem Waits.createOther (h : s.Waits) (hb : s.Base o) {addr n : ℕ} {name : List Char} {arg : ℤ}
    (hs : s.createOther addr n name arg = some s') : s'.Waits := by
  obtain ⟨pid, k, hc, rfl⟩ := createOther_eq hs
  exact h.of_parked (fun p hp => create_wait hb hc hp)
    fun p i w _ hpk => hpk.of_same ⟨rfl, rfl, rfl⟩

theorem Waits.apSpawn (h : s.Waits) (hb : s.Base o) {nowMs : ℕ} {r : ℤ}
    (hs : s.apSpawn nowMs = some (r, s')) : s'.Waits := by
  rcases apSpawn_eq hs with ⟨-, rfl⟩ | ⟨j, t, pid, k, ht, hc, rfl⟩
  · exact h
  · refine h.of_parked (fun p hp => create_wait hb hc hp) ?_
    intro p i w _ hpk
    have hij : i ≠ j := by
      rintro rfl
      have hpid := hpk.pid
      rw [hb.spawnSlot_pid ht] at hpid
      omega
    apply hpk.of_same
    have hact : t.act i = s.table.act i := by rw [(spawnSlot_spec ht).1]
    simp only [ActorTable.modify_act_of_ne _ _ hij, ActorTable.resetSlot_act_of_ne _ _ hij, hact,
      and_self]

theorem Waits.exitOther (h : s.Waits) (hb : s.Base o) {k : Kernel}
    (hnull : s.kernel.currpid ≠ nullproc) (hk : s.kernel.procExit = some k) :
    Waits { s with kernel := k } := by
  have hexit := Kernel.procExit_exits hb.sched hb.null_alive hnull hk
  exact h.of_parked (fun p hp => ⟨(hexit.wait_of p hp).1, rfl⟩)
    fun p i w _ hpk => hpk.of_same ⟨rfl, rfl, rfl⟩

/-- Whoever is parked on a slot that is killed is gone. -/
theorem Waits.kill (h : s.Waits) (hb : s.Base o) {j : ActorId} {k : Kernel}
    (hk : s.kernel.procKill (s.table.act j).pid = some k) (hkernel : s'.kernel = k)
    (hctl : s'.ctl = s.ctl)
    (hact : s'.table.act = (s.table.modify j fun a => { a with pid := -1 }).act) : s'.Waits := by
  have hkill := Kernel.procKill_kills hb.sched hk
  subst hkernel
  have hold : ∀ p, s'.kernel.state p = .wait → s.kernel.state p = .wait ∧
      Kernel.slotOf (s.table.act j).pid ≠ some p := by
    intro p hp
    rw [hkill.state_eq] at hp
    split_ifs at hp with hslot
    refine ⟨hp, fun hs => hslot ⟨hs, wait_ne_curr hb.sched hp⟩⟩
  refine h.of_parked (fun p hp => ⟨(hold p hp).1, by rw [hctl]⟩) ?_
  intro p i w hp hpk
  have hij : i ≠ j := by
    rintro rfl
    apply (hold p hp).2
    rw [hpk.pid]
    exact Kernel.slotOf_val p (hpk.ne_null hb)
  apply hpk.of_same
  rw [hact, ActorTable.modify_act_of_ne _ _ hij]
  exact ⟨rfl, rfl, rfl⟩

theorem Waits.apForceKill (h : s.Waits) (hb : s.Base o) {id r : ℤ}
    (hs : s.apForceKill id = some (r, s')) : s'.Waits := by
  rcases apForceKill_eq hs with ⟨rfl, -⟩ | ⟨i, k, -, -, -, hk, rfl⟩
  · exact h
  · exact h.kill hb hk rfl rfl rfl

theorem Waits.apGcSweep (h : s.Waits) (hb : s.Base o) {thresholdMs : ℤ} {dryRun : Bool}
    {nowMs : ℕ} {v : Sweep} {f : Frame} (hcur : s.cur = .running f)
    (hself : ∀ i, (s.table.act i).pid = s.kernel.currpid.val → s.idle thresholdMs nowMs i →
      ¬ dryRun → o)
    (hs : s.apGcSweep thresholdMs dryRun nowMs = some v) : v.sys.Waits := by
  have hboth : Swept o s v.sys ∧ v.sys.Waits := by
    refine exec_invariant (fun v => Swept o s v.sys ∧ v.sys.Waits) ?_ ⟨hb.swept, h⟩ hs
    rintro i - v v' ⟨hv, hw⟩ hstep
    refine ⟨hv.sweepSlot hcur (hself i) hstep, ?_⟩
    unfold sweepSlot at hstep
    split_ifs at hstep
    · cases hstep
      exact hw
    · cases hstep
      exact hw
    · obtain ⟨⟨r, s₁⟩, hkill, rfl⟩ := Option.map_eq_some_iff.mp hstep
      exact hw.apForceKill hv.base hkill
    · cases hstep
      exact hw
  exact hboth.2

/-- With no slot in use nobody is parked. -/
theorem Waits.of_reaped (hall : ∀ i, (s.table.act i).pid = -1) (h : s.Waits)
    (hp : ∀ p, s'.kernel.state p = .wait → s.kernel.state p = .wait ∧ s'.ctl p = s.ctl p) :
    s'.Waits := by
  refine h.of_parked hp fun p i w _ hpk => ?_
  have hpid := hpk.pid
  rw [hall i] at hpid
  omega

theorem Waits.reapAll (h : s.Waits) (hb : s.Base o)
    (hself : ∀ i, (s.table.act i).pid ≠ s.kernel.currpid.val)
    (hs : exec reap s s.table.slots = some s') : s'.Waits := by
  have hboth : Swept o s s' ∧ s'.Waits := by
    refine exec_invariant (fun s' => Swept o s s' ∧ s'.Waits) ?_ ⟨hb.swept, h⟩ hs
    rintro i - s₁ s₂ ⟨hv, hw⟩ hstep
    refine ⟨(hv.reap (hself i) hstep).1, ?_⟩
    unfold reap at hstep
    split_ifs at hstep
    · obtain ⟨k, hk, rfl⟩ := Option.map_eq_some_iff.mp hstep
      exact hw.kill hv.base hk rfl rfl rfl
    · cases hstep
      exact hw
  exact hboth.2

theorem Waits.apKillall (h : s.Waits) (hb : s.Base o)
    (hself : ∀ i, (s.table.act i).pid ≠ s.kernel.currpid.val) (hs : s.apKillall = some s') :
    s'.Waits := by
  obtain ⟨s₁, hrun, rfl⟩ := Option.map_eq_some_iff.mp hs
  exact (h.reapAll hb hself hrun).of_reaped (hb.reapAll hself hrun).2 fun p hp => ⟨hp, rfl⟩

theorem Waits.apReset (h : s.Waits) (hb : s.Base o)
    (hself : ∀ i, (s.table.act i).pid ≠ s.kernel.currpid.val) (hs : s.apReset = some s') :
    s'.Waits := by
  obtain ⟨k, hrun, rfl⟩ := Option.map_eq_some_iff.mp hs
  obtain ⟨s₁, hrun₁, rfl, hctl, -⟩ := exec_killPid (slots_nodup _) (fun _ _ => rfl) hrun
  exact (h.reapAll hb hself hrun₁).of_reaped (hb.reapAll hself hrun₁).2
    fun p hp => ⟨hp, by rw [hctl]⟩

/-- The step keeps wake-ups on their slots: slots and processes stay together, and
a select in another process than the slot's does not block. -/
def KeepsWakeups (s : Sys) (op : SysOp) : Prop :=
  s.KeepsSlots True op ∧
    (op = .selectStep → ∀ self meths next, s.cur = .selecting self meths next none →
      (s.table.act self).pid ≠ s.kernel.currpid.val → ∃ m ∈ s.table.queue self, m.method ∈ meths)

theorem Waits.step (h : s.Waits) (hb : s.Base True) {op : SysOp} (hok : s.KeepsWakeups op)
    (hs : s.step op = some s') : s'.Waits := by
  obtain ⟨hslots, hsel⟩ := hok
  cases op with
  | send dest method a0 a1 a2 a3 => exact h.still hb (apSend_still hb hs)
  | call dest method a0 a1 a2 a3 => exact h.still hb (apCall_still hb hs)
  | select meths => exact h.still hb (apSelect_still hb hs)
  | postStep => exact h.postStep hb hs
  | recvStep nowMs => exact h.recvStep hb hs
  | lockStep => exact h.still hb (lockStep_still hb hs)
  | selectStep => exact h.selectStep hb (hsel rfl) hs
  | relockStep => exact h.still hb (relockStep_still hb hs)
  | ret r => exact h.still hb (handlerReturn_still hb hs)
  | crash => exact h.still hb (apCrash_still hb hs)
  | finishStep => exact h.finishStep hb hs
  | spawn nowMs =>
    obtain ⟨f, -, hs⟩ := asCode_eq hs
    obtain ⟨⟨r, s₁⟩, hspawn, rfl⟩ := Option.map_eq_some_iff.mp hs
    exact h.apSpawn hb hspawn
  | suicide id =>
    obtain ⟨f, -, hs⟩ := asCode_eq hs
    cases hs
    exact h.of_parked (fun p hp => ⟨hp, rfl⟩)
      fun p i w _ hpk => hpk.of_same (s.table.apSuicide_sameMail id i)
  | gcProtect id on =>
    obtain ⟨f, -, hs⟩ := asCode_eq hs
    cases hs
    exact h.of_parked (fun p hp => ⟨hp, rfl⟩)
      fun p i w _ hpk => hpk.of_same (s.table.apGcProtect_sameMail id on i)
  | forceKill id =>
    obtain ⟨f, hcur, hs⟩ := asCode_eq hs
    obtain ⟨⟨r, s₁⟩, hkill, rfl⟩ := Option.map_eq_some_iff.mp hs
    exact h.apForceKill hb hkill
  | gcSweep thresholdMs dryRun nowMs =>
    obtain ⟨f, hcur, hs⟩ := asCode_eq hs
    obtain ⟨v, hsweep, rfl⟩ := Option.map_eq_some_iff.mp hs
    exact h.apGcSweep hb hcur hslots hsweep
  | reset =>
    obtain ⟨f, -, hs⟩ := asCode_eq hs
    exact h.apReset hb hslots hs
  | killall =>
    obtain ⟨f, -, hs⟩ := asCode_eq hs
    exact h.apKillall hb hslots hs
  | direct actor =>
    obtain ⟨f, hcur, hs⟩ := asCode_eq hs
    split_ifs at hs
    cases hs
    exact h.of_parked (fun p hp => ⟨hp, goto_ctl_of_ne s _ (wait_ne_curr hb.sched hp)⟩)
      fun p i w _ hpk => hpk.of_same ⟨rfl, rfl, rfl⟩
  | lock =>
    obtain ⟨f, hcur, hs⟩ := asCode_eq hs
    split_ifs at hs
    cases hs
    exact h.of_parked (fun p hp => ⟨hp, goto_ctl_of_ne s _ (wait_ne_curr hb.sched hp)⟩)
      fun p i w _ hpk => hpk.of_same ⟨rfl, rfl, rfl⟩
  | unlock =>
    obtain ⟨f, hcur, hs⟩ := asCode_eq hs
    split_ifs at hs
    cases hs
    obtain ⟨a, hk⟩ := s.kernel.aiplUnlock_eq
    refine h.of_parked (fun p hp => ?_) fun p i w _ hpk => hpk.of_same ⟨rfl, rfl, rfl⟩
    simp only [hk] at hp
    exact ⟨hp, rfl⟩
  | create addr n name arg =>
    obtain ⟨f, -, hs⟩ := asCode_eq hs
    exact h.createOther hb hs
  | exit =>
    obtain ⟨f, hcur, hs⟩ := asCode_eq hs
    split_ifs at hs with hf
    obtain ⟨k, hk, rfl⟩ := Option.map_eq_some_iff.mp hs
    exact h.exitOther hb hf.2 hk
  | resched =>
    cases hs
    exact h.of_parked (fun p hp => ⟨Kernel.procResched_wait hb.sched hp, rfl⟩)
      fun p i w _ hpk => hpk.of_same ⟨rfl, rfl, rfl⟩

end Waits

/-- No message that a parked process waits for is in its mailbox, and the next
post to the mailbox readies that very process. -/
structure NoLostWakeup (s : Sys) : Prop where
  recv : ∀ p i, s.kernel.state p = .wait → s.ctl p = .recv i →
    s.table.queue i = [] ∧ (s.table.act i).waiting ∧ (s.table.act i).pid = p.val
  select : ∀ p i meths next relock, s.kernel.state p = .wait →
    s.ctl p = .selecting i meths next relock →
    (∀ m ∈ s.table.queue i, m.method ∉ meths) ∧ (s.table.act i).waiting ∧
      (s.table.act i).pid = p.val
  wakes : ∀ p i w, s.kernel.state p = .wait → (s.ctl p).awaits = some (i, w) →
    ∀ m, (s.table.mailList i).HasRoom → ∃ pid, (s.table.postSection i m).2 = some pid ∧
      (s.kernel.procReady pid).state p = .ready

theorem Waits.noLostWakeup {o : Prop} (h : s.Waits) (hb : s.Base o) : s.NoLostWakeup where
  recv p i hp hctl := by
    obtain ⟨hnothing, hwaiting, hpid⟩ := h p i (fun _ => true) hp (by rw [hctl]; rfl)
    refine ⟨?_, hwaiting, hpid⟩
    rw [List.eq_nil_iff_forall_not_mem]
    exact fun m hm => hnothing m hm rfl
  select p i meths next relock hp hctl := by
    obtain ⟨hnothing, hwaiting, hpid⟩ := h p i (ApMsg.wanted meths) hp (by rw [hctl]; rfl)
    refine ⟨fun m hm hmeth => hnothing m hm ?_, hwaiting, hpid⟩
    simpa [ApMsg.wanted] using hmeth
  wakes p i w hp haw m hroom := by
    have hpk := h p i w hp haw
    rw [ActorTable.hasRoom_iff] at hroom
    refine ⟨p.val, ?_, ?_⟩
    · simp only [ActorTable.postSection, if_neg hroom, hpk.waiting, hpk.pid, if_true]
    · rw [Kernel.procReady_state, Kernel.slotOf_val p (hpk.ne_null hb)]
      simp [hp]

/-- No wake-up is lost in a run in which slots and processes stay together and
handlers outside the process of their actor select only what is there. -/
theorem no_lost_wakeup (lo hi : ℕ) (t : ActorTable) (s : Sys)
    (h : Reachable step KeepsWakeups (init lo hi t) s) : s.NoLostWakeup := by
  have hinv : s.Base True ∧ s.Waits := by
    refine h.invariant (fun s => s.Base True ∧ s.Waits) ⟨init_base True lo hi t, ?_⟩ ?_
    · rintro p i w - ⟨⟩
    · rintro s op s' ⟨hb, hw⟩ hok hstep
      exact ⟨hb.step hok.1 hstep, hw.step hb hok hstep⟩
  exact hinv.2.noLostWakeup hinv.1

/-- A spawned actor parks in `ap_recv`. -/
theorem no_lost_wakeup_parked :
    ∃ s, exec step (init 4096 65536 bootTable) [.spawn 0, .resched, .recvStep 0] = some s ∧
      s.kernel.state 1 = .wait ∧ s.ctl 1 = .recv 0 ∧ s.NoLostWakeup := by
  have hview : (exec step (init 4096 65536 bootTable) [.spawn 0, .resched, .recvStep 0]).map
      (fun s => (s.kernel.state 1, s.ctl 1)) = some (.wait, .recv 0) := by decide
  obtain ⟨s, hs, hview⟩ := Option.map_eq_some_iff.mp hview
  simp only [Prod.mk.injEq] at hview
  have hspawn : (init 4096 65536 bootTable).KeepsSlots False (.spawn 0) :=
    NoSelfKill.keepsSlots (init_base ..) trivial
  refine ⟨s, hs, hview.1, hview.2, no_lost_wakeup 4096 65536 bootTable s
    (Reachable.start.exec ?_ hs)⟩
  refine ⟨⟨hspawn, by simp⟩, fun _ _ => ⟨⟨trivial, by simp⟩, fun _ _ => ⟨⟨trivial, by simp⟩, ?_⟩⟩⟩
  exact fun _ _ => trivial

/-- A handler of actor 0 that another process calls directly selects from an empty
mailbox: it parks there, but a post would wake the process of the actor. -/
theorem direct_select_loses_wakeup :
    ¬ ∀ s, Reachable step (fun _ _ => True) (init 4096 65536 bootTable) s → s.NoLostWakeup := by
  intro hclaim
  let ops : List SysOp := [.create 1 4096 [] 0, .spawn 0, .resched, .direct 0, .lockStep,
    .select [3], .selectStep]
  have hview : (exec step (init 4096 65536 bootTable) ops).map
      (fun s => (s.kernel.state 1, s.ctl 1, (s.table.act 0).pid)) =
      some (.wait, .selecting 0 [3] (.select (.direct 0)) (some (1, 0)), 2) := by decide
  obtain ⟨s, hs, hview⟩ := Option.map_eq_some_iff.mp hview
  simp only [Prod.mk.injEq] at hview
  obtain ⟨hstate, hctl, hpid⟩ := hview
  have hno := hclaim s (Reachable.start.exec (.of_forall (fun _ _ _ => trivial) _) hs)
  have hpid' := (hno.select 1 0 [3] _ _ hstate hctl).2.2
  rw [hpid] at hpid'
  simp at hpid'

end Sys

end XinuRpi4.Actor
