import XinuRpi4.Actor.Steps

/-!
# One process for each actor slot

A process that runs `actor_proc_main` for a slot is the one whose pid the slot
records. `proc_kill` refuses the running process, so a handler that kills its own
actor leaves an orphan behind: the slot is free for reuse while the process goes
on. As long as no process kills its own slot there are no orphans, and slots and
actor processes correspond one to one.
-/

namespace XinuRpi4.Actor

open Foundation Process

/-- The actor whose receive loop is at the bottom of the stack. -/
def Frame.actor : Frame → Option ActorId
  | .handler self _ => some self
  | _ => none

def PostCont.actor : PostCont → Option ActorId
  | .send f => f.actor
  | .call _ f => f.actor
  | .reply self => some self

def Ctl.actor : Ctl → Option ActorId
  | .running f => f.actor
  | .recv self => some self
  | .locking f _ => f.actor
  | .posting _ _ next => next.actor
  | .selecting _ _ next _ => next.frame.actor
  | .finishing self => some self

/-- Between the end of an iteration of the receive loop and the handler of the next. -/
def Ctl.early : Ctl → Bool
  | .recv _ => true
  | .locking _ _ => true
  | _ => false

@[simp] theorem PostCont.resume_actor (next : PostCont) : next.resume.actor = next.actor := by
  cases next <;> rfl

@[simp] theorem PostCont.resume_early (next : PostCont) : next.resume.early = false := by
  cases next <;> rfl

/-- The role of a process fits the place where it stands. -/
def Ctl.Fits (c : Ctl) (r : ProcEntry × ℤ) : Prop :=
  match c.actor with
  | some i => r = (.actorProcMain, (i.val : ℤ))
  | none => r.1 ≠ .actorProcMain

theorem Ctl.Fits.congr {c c' : Ctl} {r : ProcEntry × ℤ} (h : c.Fits r)
    (hc : c'.actor = c.actor) : c'.Fits r := by
  unfold Fits at h ⊢
  rwa [hc]

/-- Slots, pids and pending suicides are the same, up to new suicides. -/
structure ActorTable.SameSlots (t t' : ActorTable) : Prop where
  pid : ∀ i, (t'.act i).pid = (t.act i).pid
  nact : t'.nact = t.nact
  dead : ∀ i, t.dead i → t'.dead i

namespace ActorTable

variable {t t' : ActorTable} {i : ActorId}

theorem SameSlots.refl (t : ActorTable) : SameSlots t t := ⟨fun _ => rfl, rfl, fun _ h => h⟩

theorem SameSlots.trans {t'' : ActorTable} (h : SameSlots t t') (h' : SameSlots t' t'') :
    SameSlots t t'' where
  pid i := (h'.pid i).trans (h.pid i)
  nact := h'.nact.trans h.nact
  dead i hi := h'.dead i (h.dead i hi)

theorem modify_sameSlots {f : ActorEnt → ActorEnt} (h : (f (t.act i)).pid = (t.act i).pid) :
    SameSlots t (t.modify i f) where
  pid j := by
    by_cases hj : j = i
    · subst hj
      rw [modify_act_self, h]
    · rw [modify_act_of_ne t f hj]
  nact := rfl
  dead _ h := h

theorem postSection_sameSlots (t : ActorTable) (i : ActorId) (m : ApMsg) :
    SameSlots t (t.postSection i m).1 := by
  unfold postSection
  split_ifs with hfull
  · exact ⟨fun _ => rfl, rfl, fun _ h => h⟩
  all_goals
    dsimp only
    exact modify_sameSlots rfl

theorem recvSection_sameSlots (t : ActorTable) (i : ActorId) (nowMs : ℕ) :
    SameSlots t (t.recvSection i nowMs).1 := by
  unfold recvSection
  split_ifs
  all_goals
    dsimp only
    exact modify_sameSlots rfl

theorem selectSection_sameSlots (t : ActorTable) (i : ActorId) (meths : List ℤ) :
    SameSlots t (t.selectSection i meths).1 := by
  unfold selectSection
  split
  all_goals
    dsimp only
    exact modify_sameSlots rfl

theorem apNoteMsg_sameSlots (t : ActorTable) (id : ℤ) : SameSlots t (t.apNoteMsg id) := by
  unfold apNoteMsg
  split
  · exact .refl t
  · exact modify_sameSlots rfl

theorem apGcProtect_sameSlots (t : ActorTable) (id : ℤ) (on : Bool) :
    SameSlots t (t.apGcProtect id on) := by
  unfold apGcProtect
  split
  · exact .refl t
  · exact modify_sameSlots rfl

theorem apSuicide_sameSlots (t : ActorTable) (id : ℤ) : SameSlots t (t.apSuicide id) := by
  unfold apSuicide
  split
  · exact .refl t
  · next i _ =>
    refine ⟨fun _ => rfl, rfl, fun j hj => ?_⟩
    by_cases hij : j = i
    · simp [hij]
    · simpa [hij] using hj

theorem resetSlot_act_of_ne (t : ActorTable) (nowMs : ℕ) {j : ActorId} (h : j ≠ i) :
    (t.resetSlot i nowMs).act j = t.act j := Function.update_of_ne h ..

theorem resetSlot_pid (t : ActorTable) (i j : ActorId) (nowMs : ℕ) :
    ((t.resetSlot i nowMs).act j).pid = (t.act j).pid := by
  by_cases hj : j = i
  · subst hj
    simp [resetSlot]
  · rw [resetSlot_act_of_ne t nowMs hj]

end ActorTable

namespace Sys

variable {o : Prop} {s s' : Sys}

/-- Slots and actor processes correspond. Orphans may exist if `o`; an orphan is
past the start of its last iteration and will end with it. -/
structure Base (o : Prop) (s : Sys) : Prop where
  sched : s.kernel.Scheduled
  null_alive : s.kernel.state nullproc ≠ .free
  null_code : (s.ctl nullproc).actor = none
  fits : ∀ p, s.kernel.state p ≠ .free → (s.ctl p).Fits (s.kernel.role p)
  pid_proc : ∀ i, (s.table.act i).pid ≠ -1 → i.val < s.table.nact.val ∧
    ∃ p : Slot, (s.table.act i).pid = p.val ∧ s.kernel.state p ≠ .free ∧ (s.ctl p).actor = some i
  proc_pid : ∀ (p : Slot) (i : ActorId), s.kernel.state p ≠ .free → (s.ctl p).actor = some i →
    (s.table.act i).pid = p.val ∨
      o ∧ (s.table.act i).pid = -1 ∧ s.table.dead i ∧ ¬ (s.ctl p).early

/-- A step that creates and ends no process and frees no slot. -/
structure Moves (s s' : Sys) : Prop where
  pop : Kernel.SamePop s.kernel s'.kernel
  slots : ActorTable.SameSlots s.table s'.table
  ctl_other : ∀ p, p ≠ s.kernel.currpid → s'.ctl p = s.ctl p
  actor : (s'.ctl s.kernel.currpid).actor = s.cur.actor
  early : (s'.ctl s.kernel.currpid).early →
    s.cur.early ∨ ∀ i, s.cur.actor = some i → ¬ s.table.dead i

theorem Moves.actor_eq (h : Moves s s') (p : Slot) : (s'.ctl p).actor = (s.ctl p).actor := by
  by_cases hp : p = s.kernel.currpid
  · subst hp
    exact h.actor
  · rw [h.ctl_other p hp]

theorem Base.moves (h : s.Base o) (hm : Moves s s') : s'.Base o where
  sched := hm.pop.scheduled
  null_alive := by
    rw [Ne, hm.pop.free_iff]
    exact h.null_alive
  null_code := by
    rw [hm.actor_eq]
    exact h.null_code
  fits p hp := by
    rw [Ne, hm.pop.free_iff] at hp
    rw [hm.pop.role_eq]
    exact (h.fits p hp).congr (hm.actor_eq p)
  pid_proc i hi := by
    rw [hm.slots.pid] at hi
    obtain ⟨hlt, p, hpid, hp, hactor⟩ := h.pid_proc i hi
    refine ⟨by rw [hm.slots.nact]; exact hlt, p, ?_, ?_, ?_⟩
    · rw [hm.slots.pid, hpid]
    · rwa [Ne, hm.pop.free_iff]
    · rw [hm.actor_eq, hactor]
  proc_pid p i hp hi := by
    rw [Ne, hm.pop.free_iff] at hp
    rw [hm.actor_eq] at hi
    rw [hm.slots.pid]
    rcases h.proc_pid p i hp hi with hpid | ⟨ho, hpid, hdead, hearly⟩
    · exact Or.inl hpid
    · refine Or.inr ⟨ho, hpid, hm.slots.dead i hdead, fun hearly' => ?_⟩
      by_cases hpc : p = s.kernel.currpid
      · subst hpc
        rcases hm.early hearly' with h' | h'
        · exact hearly h'
        · exact h' i hi hdead
      · rw [hm.ctl_other p hpc] at hearly'
        exact hearly hearly'

@[simp] theorem goto_ctl_self (s : Sys) (c : Ctl) : (s.goto c).ctl s.kernel.currpid = c :=
  Function.update_self ..

theorem goto_ctl_of_ne (s : Sys) (c : Ctl) {p : Slot} (h : p ≠ s.kernel.currpid) :
    (s.goto c).ctl p = s.ctl p := Function.update_of_ne h ..

/-- The current process moves within its role. -/
theorem Moves.of_goto {c : Ctl} (hctl : s'.ctl = (s.goto c).ctl)
    (hpop : Kernel.SamePop s.kernel s'.kernel) (hslots : ActorTable.SameSlots s.table s'.table)
    (hactor : c.actor = s.cur.actor)
    (hearly : c.early → s.cur.early ∨ ∀ i, s.cur.actor = some i → ¬ s.table.dead i) :
    Moves s s' where
  pop := hpop
  slots := hslots
  ctl_other p hp := by rw [hctl, goto_ctl_of_ne s c hp]
  actor := by rw [hctl, goto_ctl_self, hactor]
  early := by
    rw [hctl, goto_ctl_self]
    exact hearly

theorem Moves.of_stay (hctl : s'.ctl = s.ctl) (hpop : Kernel.SamePop s.kernel s'.kernel)
    (hslots : ActorTable.SameSlots s.table s'.table) : Moves s s' where
  pop := hpop
  slots := hslots
  ctl_other p _ := by rw [hctl]
  actor := by
    rw [hctl]
    rfl
  early h := by
    rw [hctl] at h
    exact Or.inl h

theorem samePop_refl (h : s.Base o) : Kernel.SamePop s.kernel s.kernel :=
  .of_congr h.sched rfl rfl rfl rfl

/-- A post that starts, after some bookkeeping. -/
theorem Base.beginPost_moves (h : s.Base o) {s₀ : Sys} {dest : ℤ} {m : ApMsg} {next : PostCont}
    (hctl : s₀.ctl = s.ctl) (hk : s₀.kernel = s.kernel)
    (hslots : ActorTable.SameSlots s.table s₀.table) (hactor : next.actor = s.cur.actor) :
    Moves s (s₀.beginPost dest m next) := by
  have hgoto : ∀ c, (s₀.goto c).ctl = (s.goto c).ctl := fun c => by rw [goto, goto, hctl, hk]
  rcases s₀.beginPost_eq dest m next with ⟨i, -, -, heq⟩ | ⟨-, oob, dead, heq⟩
  · rw [heq]
    refine .of_goto (hgoto _) ?_ hslots hactor (by simp [Ctl.early])
    rw [goto, hk]
    exact samePop_refl h
  · rw [heq]
    refine .of_goto (c := next.resume) (hgoto _) ?_ ?_ ?_ (by simp)
    · rw [goto, hk]
      exact samePop_refl h
    · exact hslots.trans ⟨fun _ => rfl, rfl, fun _ h => h⟩
    · rw [PostCont.resume_actor, hactor]

theorem Base.answer_moves (h : s.Base o) {self : ActorId} (replyTo r : ℤ) (tag : Option ℕ)
    (hactor : s.cur.actor = some self) : Moves s (s.answer self replyTo r tag) := by
  have hslots : ActorTable.SameSlots s.table (s.disarm self r tag).table :=
    ⟨fun _ => rfl, rfl, fun _ h => h⟩
  unfold answer
  split_ifs
  · exact h.beginPost_moves rfl rfl hslots hactor.symm
  · exact .of_goto (c := .finishing self) rfl (samePop_refl h) hslots hactor.symm
      (by simp [Ctl.early])

theorem Base.apSend_moves (h : s.Base o) {dest method a0 a1 a2 a3 : ℤ}
    (hs : s.apSend dest method a0 a1 a2 a3 = some s') : Moves s s' := by
  obtain ⟨f, hcur, rfl⟩ := apSend_eq hs
  exact h.beginPost_moves rfl rfl (.refl _) (by rw [hcur]; rfl)

theorem Base.apCall_moves (h : s.Base o) {dest method a0 a1 a2 a3 : ℤ}
    (hs : s.apCall dest method a0 a1 a2 a3 = some s') : Moves s s' := by
  obtain ⟨f, self, hcur, -, rfl⟩ := apCall_eq hs
  have hm : Moves s (s.beginPost dest (s.request self method a0 a1 a2 a3)
      (.call ⟨self, dest, s.nextTag⟩ f)) :=
    h.beginPost_moves rfl rfl (.refl _) (by rw [hcur]; rfl)
  exact ⟨hm.pop, hm.slots, hm.ctl_other, hm.actor, hm.early⟩

theorem Base.apSelect_moves (h : s.Base o) {meths : List ℤ} (hs : s.apSelect meths = some s') :
    Moves s s' := by
  obtain ⟨f, self, hcur, -, rfl⟩ := apSelect_eq hs
  refine .of_goto rfl (samePop_refl h) (.refl _) ?_ (by simp [Ctl.early])
  rw [hcur]
  rfl

/-- The process that a post may wake exists. -/
theorem Base.wake_alive (h : s.Base o) {i : ActorId} {p : Slot}
    (hp : Kernel.slotOf (s.table.act i).pid = some p) : s.kernel.state p ≠ .free := by
  have hne : (s.table.act i).pid ≠ -1 := by
    intro heq
    rw [heq] at hp
    cases hp
  obtain ⟨-, q, hq, halive, -⟩ := h.pid_proc i hne
  rw [hq] at hp
  by_cases hq0 : q = nullproc
  · subst hq0
    cases hp
  · rw [Kernel.slotOf_val q hq0] at hp
    cases hp
    exact halive

theorem Base.postStep_moves (h : s.Base o) (hs : s.postStep = some s') : Moves s s' := by
  obtain ⟨dest, m, next, hcur, rfl⟩ := postStep_eq hs
  refine .of_goto (c := next.resume) rfl ?_ (s.table.postSection_sameSlots dest m) ?_ (by simp)
  · simp only [ActorTable.postSection]
    split_ifs
    · exact samePop_refl h
    · exact Kernel.procReady_samePop h.sched fun p hp => h.wake_alive hp
    · exact samePop_refl h
  · rw [PostCont.resume_actor, hcur]
    rfl

theorem Base.recvStep_moves (h : s.Base o) {nowMs : ℕ} (hs : s.recvStep nowMs = some s') :
    Moves s s' := by
  obtain ⟨self, hcur, ⟨t, m, hrecv, rfl⟩ | ⟨t, hrecv, rfl⟩⟩ := recvStep_eq hs
  · have hslots := s.table.recvSection_sameSlots self nowMs
    rw [hrecv] at hslots
    refine .of_goto rfl (samePop_refl h) (hslots.trans ⟨fun _ => rfl, rfl, fun _ h => h⟩) ?_ ?_
    · rw [hcur]
      rfl
    · intro _
      rw [hcur]
      exact Or.inl rfl
  · have hslots := s.table.recvSection_sameSlots self nowMs
    rw [hrecv] at hslots
    exact .of_stay rfl (Kernel.procBlock_samePop h.sched h.null_alive) hslots

theorem arm_sameSlots (t : ActorTable) (f : Frame) : ActorTable.SameSlots t (arm t f) := by
  cases f with
  | code => exact .refl t
  | direct a => exact .refl t
  | handler self m => exact ⟨fun _ => rfl, rfl, fun _ h => h⟩

theorem Base.lockStep_moves (h : s.Base o) (hs : s.lockStep = some s') : Moves s s' := by
  obtain ⟨f, spins, hcur, ⟨k, hk, rfl⟩ | rfl⟩ := lockStep_eq hs
  · obtain ⟨a, rfl⟩ := Kernel.aiplRound_eq hk
    refine .of_goto (c := .running f) rfl (.of_aipl h.sched a) (arm_sameSlots s.table f) ?_
      (by simp [Ctl.early])
    rw [hcur]
    rfl
  · refine .of_goto (c := .locking f (spins + 1)) rfl (Kernel.procResched_samePop h.sched) (.refl _)
      ?_ ?_
    · rw [hcur]
      rfl
    · intro _
      rw [hcur]
      exact Or.inl rfl

theorem Base.selectStep_moves (h : s.Base o) (hs : s.selectStep = some s') : Moves s s' := by
  obtain ⟨self, meths, next, hcur, ⟨t, m, hsel, rfl⟩ | ⟨t, relock, hsel, rfl⟩⟩ := selectStep_eq hs
  · have hslots := s.table.selectSection_sameSlots self meths
    rw [hsel] at hslots
    refine .of_goto (c := .running next.frame) rfl (samePop_refl h) hslots ?_ (by simp [Ctl.early])
    rw [hcur]
    rfl
  · have hslots := s.table.selectSection_sameSlots self meths
    rw [hsel] at hslots
    obtain ⟨a, hk⟩ := s.kernel.aiplUnlockAll_eq
    refine .of_goto (c := .selecting self meths next relock) rfl ?_ hslots ?_ (by simp [Ctl.early])
    · have hpop := Kernel.SamePop.of_aipl h.sched a
      rw [hk]
      exact hpop.trans (Kernel.procBlock_samePop hpop.scheduled h.null_alive)
    · rw [hcur]
      rfl

theorem Base.relockStep_moves (h : s.Base o) (hs : s.relockStep = some s') : Moves s s' := by
  obtain ⟨self, meths, next, saved, spins, hcur, ⟨k, hk, rfl⟩ | rfl⟩ := relockStep_eq hs
  · obtain ⟨a, rfl⟩ := Kernel.aiplRound_eq hk
    refine .of_goto (c := .selecting self meths next none) rfl (.of_aipl h.sched _) (.refl _) ?_
      (by simp [Ctl.early])
    rw [hcur]
    rfl
  · refine .of_goto (c := .selecting self meths next (some (saved, spins + 1))) rfl
      (Kernel.procResched_samePop h.sched) (.refl _) ?_ (by simp [Ctl.early])
    rw [hcur]
    rfl

theorem Base.handlerReturn_moves (h : s.Base o) {r : ℤ} (hs : s.handlerReturn r = some s') :
    Moves s s' := by
  rcases handlerReturn_eq hs with ⟨actor, hcur, rfl⟩ | ⟨self, m, hcur, rfl⟩
  · obtain ⟨a, hk⟩ := s.kernel.aiplUnlock_eq
    refine .of_goto (c := .running .code) rfl ?_ (s.table.apNoteMsg_sameSlots actor.val) ?_
      (by simp [Ctl.early])
    · simp only [hk]
      exact .of_aipl h.sched a
    · rw [hcur]
      rfl
  · exact h.answer_moves m.replyTo r m.tag (by rw [hcur]; rfl)

theorem toInt_of_lt {n : ℕ} (h : n < 2 ^ 31) : toInt n = n := by
  unfold toInt
  exact Int.bmod_eq_of_le (by omega) (by omega)

theorem Base.curr_alive (h : s.Base o) : s.kernel.state s.kernel.currpid ≠ .free := by
  rw [Kernel.curr_state h.sched]
  decide

/-- The process of an actor finds the slot in its argument. -/
theorem Base.argSlot_eq (h : s.Base o) {i : ActorId} (hactor : s.cur.actor = some i) :
    s.argSlot = some i := by
  have hfits := h.fits s.kernel.currpid h.curr_alive
  unfold Ctl.Fits at hfits
  rw [← cur, hactor] at hfits
  have harg : (s.kernel.proctab s.kernel.currpid).arg = i.val := congrArg Prod.snd hfits
  have hi := i.isLt
  have hn : apNact = 2047 := rfl
  have hint : toInt (i.val : ℤ) = i.val := toInt_of_lt (by omega)
  unfold argSlot
  simp only [harg, hint]
  rw [dif_pos ⟨by omega, by omega⟩]
  simp

/-- The pid of a slot determines the slot. -/
theorem Base.actor_of_pid (h : s.Base o) {i : ActorId} {p : Slot}
    (hi : (s.table.act i).pid = p.val) : s.kernel.state p ≠ .free ∧ (s.ctl p).actor = some i := by
  obtain ⟨-, q, hq, halive, hactor⟩ := h.pid_proc i (by omega)
  obtain rfl : p = q := Fin.ext (by omega)
  exact ⟨halive, hactor⟩

theorem Base.apCrash_moves (h : s.Base o) (hs : s.apCrash = some s') : Moves s s' := by
  obtain ⟨f, hcur, ⟨rfl, -⟩ | ⟨self, i, hself, hpid, -, rfl⟩⟩ := apCrash_eq hs
  · exact .of_stay rfl (samePop_refl h) (.refl _)
  · have hactor : s.cur.actor = some i := (h.actor_of_pid hpid).2
    obtain rfl : i = self := Option.some.inj ((h.argSlot_eq hactor).symm.trans hself)
    exact h.answer_moves _ _ _ hactor

theorem Base.ne_null (h : s.Base o) {p : Slot} {i : ActorId} (hp : (s.ctl p).actor = some i) :
    p ≠ nullproc := by
  rintro rfl
  rw [h.null_code] at hp
  cases hp

/-- A process ends, and the slot of its actor is freed with it. -/
theorem Base.remove (h : s.Base o) {d : Slot} (hd : d ≠ nullproc)
    (hdalive : s.kernel.state d ≠ .free) (hsched : s'.kernel.Scheduled)
    (hrole : s'.kernel.role = s.kernel.role)
    (hfree : ∀ p, s'.kernel.state p = .free ↔ s.kernel.state p = .free ∨ p = d)
    (hctl : s'.ctl = s.ctl)
    (hpid : ∀ i, (s'.table.act i).pid =
      if (s.ctl d).actor = some i then -1 else (s.table.act i).pid)
    (hnact : s'.table.nact = s.table.nact) (hdead : ∀ i, s.table.dead i → s'.table.dead i) :
    s'.Base o := by
  have halive : ∀ p, s'.kernel.state p ≠ .free → s.kernel.state p ≠ .free ∧ p ≠ d := by
    intro p hp
    rw [Ne, hfree] at hp
    tauto
  refine ⟨hsched, ?_, by rw [hctl]; exact h.null_code, ?_, ?_, ?_⟩
  · rw [Ne, hfree]
    rintro (hn | hn)
    · exact h.null_alive hn
    · exact hd hn.symm
  · intro p hp
    rw [hctl, hrole]
    exact h.fits p (halive p hp).1
  · intro i hi
    rw [hpid] at hi
    split_ifs at hi with hact
    · exact absurd rfl hi
    · obtain ⟨hlt, p, hp, hpalive, hpactor⟩ := h.pid_proc i hi
      have hpd : p ≠ d := by
        rintro rfl
        exact hact hpactor
      refine ⟨by rw [hnact]; exact hlt, p, ?_, ?_, by rw [hctl]; exact hpactor⟩
      · rw [hpid, if_neg hact, hp]
      · rw [Ne, hfree]
        tauto
  · intro p i hp hi
    obtain ⟨hpalive, hpd⟩ := halive p hp
    rw [hctl] at hi ⊢
    rw [hpid]
    have hold := h.proc_pid p i hpalive hi
    split_ifs with hact
    · rcases hold with heq | ⟨ho, -, hdead', hearly⟩
      · rcases h.proc_pid d i hdalive hact with hd' | ⟨-, hd', -⟩
        · exact absurd (Fin.ext (by omega)) hpd
        · omega
      · exact Or.inr ⟨ho, rfl, hdead i hdead', hearly⟩
    · rcases hold with heq | ⟨ho, hm1, hdead', hearly⟩
      · exact Or.inl heq
      · exact Or.inr ⟨ho, hm1, hdead i hdead', hearly⟩

/-- The receive loop goes round. -/
theorem Base.loop_moves (h : s.Base o) {self : ActorId} (hcur : s.cur = .finishing self)
    (hdead : ¬ s.table.dead self) :
    Moves s { s.goto (.recv self) with kernel := s.kernel.aiplUnlockAll.1 } := by
  obtain ⟨a, hun⟩ := s.kernel.aiplUnlockAll_eq
  refine .of_goto (c := .recv self) rfl ?_ (.refl _) ?_ ?_
  · simp only [hun]
    exact .of_aipl h.sched a
  · rw [hcur]
    rfl
  · intro _
    rw [hcur]
    refine Or.inr ?_
    rintro i ⟨⟩
    exact hdead

theorem Base.finishStep (h : s.Base o) (hs : s.finishStep = some s') : s'.Base o := by
  obtain ⟨self, hcur, ⟨hdead, k, hk, rfl⟩ | ⟨hdead, rfl⟩⟩ := finishStep_eq hs
  · have hactor : s.cur.actor = some self := by
      rw [hcur]
      rfl
    obtain ⟨a, hun⟩ := s.kernel.aiplUnlockAll_eq
    have hpop := Kernel.SamePop.of_aipl h.sched a
    rw [hun] at hk
    have hexit := Kernel.procExit_exits hpop.scheduled h.null_alive (h.ne_null hactor) hk
    refine h.remove (d := s.kernel.currpid) (h.ne_null hactor) h.curr_alive hexit.scheduled
      hexit.role_eq hexit.free_iff rfl ?_ rfl fun _ h => h
    intro i
    rw [← cur, hactor]
    by_cases hi : i = self
    · subst hi
      simp
    · rw [if_neg fun heq => hi (Option.some.inj heq).symm, ActorTable.modify_act_of_ne _ _ hi]
  · exact h.moves (h.loop_moves hcur hdead)

/-- A process outside the actor runtime exits. -/
theorem Base.exitOther (h : s.Base o) {k : Kernel} (hcur : s.cur = .running .code)
    (hnull : s.kernel.currpid ≠ nullproc) (hk : s.kernel.procExit = some k) :
    Base o { s with kernel := k } := by
  have hexit := Kernel.procExit_exits h.sched h.null_alive hnull hk
  refine h.remove hnull h.curr_alive hexit.scheduled hexit.role_eq hexit.free_iff rfl ?_ rfl
    fun _ h => h
  intro i
  rw [← cur, hcur]
  rfl

/-- A process starts; if it is an actor's, its slot was vacant and records it. -/
theorem Base.enroll (h : s.Base o) {p : Slot} {c : Ctl} {r : ProcEntry × ℤ} (hp0 : p ≠ nullproc)
    (hpfree : s.kernel.state p = .free) (hsched : s'.kernel.Scheduled)
    (hstate : s'.kernel.state = Function.update s.kernel.state p .ready)
    (hrole : s'.kernel.role = Function.update s.kernel.role p r)
    (hctl : s'.ctl = Function.update s.ctl p c) (hfits : c.Fits r)
    (hpid : ∀ i, (s'.table.act i).pid = if c.actor = some i then (p.val : ℤ) else (s.table.act i).pid)
    (hvacant : ∀ i, c.actor = some i → i.val < s'.table.nact.val ∧
      ∀ q, s.kernel.state q ≠ .free → (s.ctl q).actor ≠ some i)
    (hnact : s'.table.nact = s.table.nact) (hdead : s'.table.dead = s.table.dead) : s'.Base o := by
  have halive : ∀ q, q ≠ p → s'.kernel.state q = s.kernel.state q := fun q hq => by
    rw [hstate, Function.update_of_ne hq]
  have hold : ∀ q, q ≠ p → s'.ctl q = s.ctl q := fun q hq => by
    rw [hctl, Function.update_of_ne hq]
  have hself : s'.ctl p = c := by rw [hctl, Function.update_self]
  refine ⟨hsched, ?_, ?_, ?_, ?_, ?_⟩
  · rw [halive _ hp0.symm]
    exact h.null_alive
  · rw [hold _ hp0.symm]
    exact h.null_code
  · intro q hq
    by_cases hqp : q = p
    · subst hqp
      rw [hself, hrole, Function.update_self]
      exact hfits
    · rw [halive q hqp] at hq
      rw [hold q hqp, hrole, Function.update_of_ne hqp]
      exact h.fits q hq
  · intro i hi
    rw [hpid] at hi ⊢
    split_ifs at hi ⊢ with hc
    · refine ⟨(hvacant i hc).1, p, rfl, ?_, by rw [hself]; exact hc⟩
      rw [hstate, Function.update_self]
      decide
    · obtain ⟨hlt, q, hq, hqalive, hqactor⟩ := h.pid_proc i hi
      have hqp : q ≠ p := by
        rintro rfl
        exact hqalive hpfree
      exact ⟨by rw [hnact]; exact hlt, q, hq, by rwa [halive q hqp], by rwa [hold q hqp]⟩
  · intro q i hq hi
    rw [hpid]
    by_cases hqp : q = p
    · subst hqp
      rw [hself] at hi
      rw [if_pos hi]
      exact Or.inl rfl
    · rw [halive q hqp] at hq
      rw [hold q hqp] at hi ⊢
      have hc : c.actor ≠ some i := fun hc => (hvacant i hc).2 q hq hi
      rw [if_neg hc, hdead]
      exact h.proc_pid q i hq hi

theorem Base.createOther (h : s.Base o) {addr n : ℕ} {name : List Char} {arg : ℤ}
    (hs : s.createOther addr n name arg = some s') : s'.Base o := by
  obtain ⟨pid, k, hc, rfl⟩ := createOther_eq hs
  obtain ⟨hsched, -, ⟨rfl, hstate, hrole⟩ | ⟨p, hp0, hpfree, rfl, hstate, hrole⟩⟩ :=
    Kernel.procCreateArg_effect h.sched hc
  · have hpop : Kernel.SamePop s.kernel k := ⟨hsched, hrole, fun p => by rw [hstate]⟩
    exact h.moves (.of_stay rfl hpop (.refl _))
  · rw [Kernel.slotOf_val p hp0]
    refine h.enroll hp0 hpfree hsched hstate hrole rfl ?_ ?_ ?_ rfl rfl
    · simp [Ctl.Fits, Ctl.actor, Frame.actor]
    · exact fun _ => rfl
    · rintro i ⟨⟩

/-- No process that still exists runs the receive loop of the slot. -/
def Vacant (s : Sys) (i : ActorId) : Prop :=
  ∀ p, s.kernel.state p ≠ .free → s.kernel.role p ≠ (.actorProcMain, (i.val : ℤ))

theorem Base.role_of_actor (h : s.Base o) {p : Slot} {i : ActorId}
    (hp : s.kernel.state p ≠ .free) (hi : (s.ctl p).actor = some i) :
    s.kernel.role p = (.actorProcMain, (i.val : ℤ)) := by
  have hfits := h.fits p hp
  unfold Ctl.Fits at hfits
  rwa [hi] at hfits

theorem Base.actor_of_role (h : s.Base o) {p : Slot} {i : ActorId}
    (hp : s.kernel.state p ≠ .free) (hi : s.kernel.role p = (.actorProcMain, (i.val : ℤ))) :
    (s.ctl p).actor = some i := by
  have hfits := h.fits p hp
  unfold Ctl.Fits at hfits
  cases hc : (s.ctl p).actor with
  | none =>
    rw [hc, hi] at hfits
    exact absurd rfl hfits
  | some j =>
    rw [hc, hi] at hfits
    have hij := (Prod.mk.inj hfits).2
    exact congrArg some (Fin.ext (by omega))

/-- The slot that `ap_spawn` takes is in range, unused, and no other one changes. -/
theorem spawnSlot_spec {t t' : ActorTable} {i : ActorId} (h : t.spawnSlot = some (i, t')) :
    t' = { t with nact := t'.nact } ∧ i.val < t'.nact.val ∧ t.nact.val ≤ t'.nact.val ∧
      ((t.act i).pid = -1 ∨ ¬ i.val < t.nact.val) := by
  unfold ActorTable.spawnSlot at h
  split at h
  · next j hfind =>
    cases h
    have hmem := List.mem_of_find?_eq_some hfind
    have hpid : (t.act i).pid = -1 := by simpa using List.find?_some hfind
    obtain ⟨k, -, rfl⟩ := List.mem_map.mp hmem
    exact ⟨rfl, k.isLt, le_rfl, Or.inl hpid⟩
  · split_ifs at h with hlt
    cases h
    exact ⟨rfl, Nat.lt_succ_self _, Nat.le_succ _, Or.inr (by simp)⟩

theorem Base.spawnSlot_pid (h : s.Base o) {i : ActorId} {t : ActorTable}
    (ht : s.table.spawnSlot = some (i, t)) : (s.table.act i).pid = -1 := by
  obtain ⟨-, -, -, hpid | hlt⟩ := spawnSlot_spec ht
  · exact hpid
  · by_contra hne
    exact hlt (h.pid_proc i hne).1

/-- The slot of a new actor is reset. -/
theorem Base.reserve (h : s.Base o) {i : ActorId} {t : ActorTable} {nowMs : ℕ}
    (ht : s.table.spawnSlot = some (i, t)) (hv : s.Vacant i) :
    Base o { s with table := t.resetSlot i nowMs } := by
  obtain ⟨ht', -, hle, -⟩ := spawnSlot_spec ht
  have hpid : ∀ j, ((t.resetSlot i nowMs).act j).pid = (s.table.act j).pid := by
    intro j
    rw [ActorTable.resetSlot_pid, ht']
  refine ⟨h.sched, h.null_alive, h.null_code, h.fits, ?_, ?_⟩
  · intro j hj
    rw [hpid] at hj ⊢
    obtain ⟨hlt, rest⟩ := h.pid_proc j hj
    exact ⟨lt_of_lt_of_le hlt hle, rest⟩
  · intro p j hp hj
    rw [hpid]
    have hji : j ≠ i := by
      rintro rfl
      exact hv p hp (h.role_of_actor hp hj)
    have hdead : (t.resetSlot i nowMs).dead j = s.table.dead j := by
      rw [ht']
      exact Function.update_of_ne hji ..
    rw [hdead]
    exact h.proc_pid p j hp hj

theorem Base.apSpawn (h : s.Base o) {nowMs : ℕ} {r : ℤ}
    (hv : ∀ i t, s.table.spawnSlot = some (i, t) → s.Vacant i)
    (hs : s.apSpawn nowMs = some (r, s')) : s'.Base o := by
  rcases apSpawn_eq hs with ⟨-, rfl⟩ | ⟨i, t, pid, k, ht, hc, rfl⟩
  · exact h
  · have h₁ : Base o { s with table := t.resetSlot i nowMs } := h.reserve ht (hv i t ht)
    obtain ⟨hsched, -, ⟨rfl, hstate, hrole⟩ | ⟨p, hp0, hpfree, rfl, hstate, hrole⟩⟩ :=
      Kernel.procCreateArg_effect h.sched hc
    · have hpop : Kernel.SamePop s.kernel k := ⟨hsched, hrole, fun p => by rw [hstate]⟩
      have hpid : ((t.resetSlot i nowMs).act i).pid = -1 := by
        rw [ActorTable.resetSlot_pid, (spawnSlot_spec ht).1]
        exact h.spawnSlot_pid ht
      refine h₁.moves (.of_stay rfl hpop ?_)
      dsimp only
      exact ActorTable.modify_sameSlots hpid.symm
    · rw [Kernel.slotOf_val p hp0]
      have hpos : ¬ ((p.val : ℤ) < 0) := by omega
      refine h₁.enroll (c := .recv i) (r := (.actorProcMain, (i.val : ℤ))) hp0 hpfree hsched hstate
        hrole rfl rfl ?_ ?_ rfl rfl
      · intro j
        by_cases hj : j = i
        · subst hj
          simp [Ctl.actor, hpos]
        · have hne : (Ctl.recv i).actor ≠ some j := fun heq => hj (Option.some.inj heq).symm
          rw [if_neg hne]
          dsimp only
          rw [ActorTable.modify_act_of_ne _ _ hj]
      · rintro j ⟨⟩
        refine ⟨(spawnSlot_spec ht).2.1, fun q hq hqi => ?_⟩
        exact hv i t ht q hq (h.role_of_actor hq hqi)

/-- Another process than the current one is killed with its slot. -/
theorem Base.kill (h : s.Base o) {i : ActorId} {k : Kernel} (hpid : (s.table.act i).pid ≠ -1)
    (hself : (s.table.act i).pid ≠ s.kernel.currpid.val)
    (hk : s.kernel.procKill (s.table.act i).pid = some k) (hkernel : s'.kernel = k)
    (hctl : s'.ctl = s.ctl)
    (hact : s'.table.act = (s.table.modify i fun a => { a with pid := -1 }).act)
    (hnact : s'.table.nact = s.table.nact) (hdead : ∀ j, s.table.dead j → s'.table.dead j) :
    s'.Base o := by
  obtain ⟨-, p, hp, halive, hactor⟩ := h.pid_proc i hpid
  have hp0 := h.ne_null hactor
  have hpc : p ≠ s.kernel.currpid := by
    rintro rfl
    exact hself hp
  have hkill := Kernel.procKill_kills h.sched hk
  subst hkernel
  refine h.remove hp0 halive hkill.scheduled hkill.role_eq ?_ hctl ?_ hnact hdead
  · intro q
    rw [hkill.state_eq, hp, Kernel.slotOf_val p hp0]
    by_cases hqp : p = q
    · subst hqp
      simp [hpc]
    · have hqp' : q ≠ p := fun h => hqp h.symm
      simp [hqp, hqp']
  · intro j
    rw [hact, hactor]
    by_cases hj : j = i
    · subst hj
      simp
    · rw [if_neg fun heq => hj (Option.some.inj heq).symm, ActorTable.modify_act_of_ne _ _ hj]

/-- A process that kills its own slot becomes an orphan. -/
theorem Base.orphan (h : s.Base o) (ho : o) {i : ActorId} {k : Kernel} {f : Frame}
    (hcur : s.cur = .running f) (hpid : (s.table.act i).pid = s.kernel.currpid.val)
    (hk : s.kernel.procKill (s.table.act i).pid = some k) :
    Base o { s with
      kernel := k
      table := { s.table.modify i fun a => { a with pid := -1 } with
        dead := Function.update s.table.dead i true } } := by
  have hkill := Kernel.procKill_kills h.sched hk
  have hactor := (h.actor_of_pid hpid).2
  have hp0 := h.ne_null hactor
  have hstate : k.state = s.kernel.state := by
    funext q
    rw [hkill.state_eq, hpid, Kernel.slotOf_val _ hp0, if_neg]
    rintro ⟨hq, hne⟩
    exact hne (Option.some.inj hq).symm
  have hother : ∀ j, j ≠ i →
      ((s.table.modify i fun a => { a with pid := -1 }).act j).pid = (s.table.act j).pid :=
    fun j hj => by rw [ActorTable.modify_act_of_ne _ _ hj]
  refine ⟨hkill.scheduled, by rw [hstate]; exact h.null_alive, h.null_code, ?_, ?_, ?_⟩
  · intro p hp
    rw [hstate] at hp
    rw [hkill.role_eq]
    exact h.fits p hp
  · intro j hj
    by_cases hji : j = i
    · subst hji
      simp at hj
    · have hj' : (s.table.act j).pid ≠ -1 := by rw [← hother j hji]; exact hj
      obtain ⟨hlt, p, hp, hpalive, hpactor⟩ := h.pid_proc j hj'
      exact ⟨hlt, p, (hother j hji).trans hp, by rw [hstate]; exact hpalive, hpactor⟩
  · intro p j hp hj
    rw [hstate] at hp
    by_cases hji : j = i
    · subst hji
      have hpc : p = s.kernel.currpid := by
        rcases h.proc_pid p j hp hj with heq | ⟨-, hm1, -⟩
        · exact Fin.ext (by omega)
        · omega
      have hearly : (s.ctl p).early = false := by
        rw [hpc]
        change s.cur.early = false
        rw [hcur]
        rfl
      exact Or.inr ⟨ho, by simp, by simp, by simp [hearly]⟩
    · rcases h.proc_pid p j hp hj with heq | ⟨ho', hm1, hdead, hearly⟩
      · exact Or.inl ((hother j hji).trans heq)
      · refine Or.inr ⟨ho', (hother j hji).trans hm1, ?_, hearly⟩
        simpa [hji] using hdead

theorem Base.apForceKill (h : s.Base o) {id r : ℤ} {f : Frame} (hcur : s.cur = .running f)
    (hself : ∀ i, s.table.slotOf id = some i →
      (s.table.act i).pid = s.kernel.currpid.val → ¬ (s.table.act i).protectedFromGc → o)
    (hs : s.apForceKill id = some (r, s')) : s'.Base o := by
  rcases apForceKill_eq hs with ⟨rfl, -⟩ | ⟨i, k, hi, hpid, hprot, hk, rfl⟩
  · exact h
  · by_cases hc : (s.table.act i).pid = s.kernel.currpid.val
    · exact h.orphan (hself i hi hc hprot) hcur hc hk
    · refine h.kill hpid hc hk rfl rfl rfl rfl fun j hj => ?_
      by_cases hji : j = i
      · simp [hji]
      · simpa [hji] using hj

theorem idle_congr {i : ActorId} (hact : s'.table.act i = s.table.act i)
    (hnact : s'.table.nact = s.table.nact) (thresholdMs : ℤ) (nowMs : ℕ) :
    s'.idle thresholdMs nowMs i = s.idle thresholdMs nowMs i := by
  have hslot : s'.table.slotOf i.val = s.table.slotOf i.val := by
    simp only [ActorTable.slotOf, hnact]
  have hage : s'.table.apActorAgeMs i.val nowMs = s.table.apActorAgeMs i.val nowMs := by
    unfold ActorTable.apActorAgeMs
    rw [hslot]
    cases hs : s.table.slotOf i.val with
    | none => rfl
    | some j =>
      obtain ⟨hij, -⟩ := ActorTable.slotOf_eq_some hs
      obtain rfl : j = i := Fin.ext (by omega)
      simp only [ActorTable.idleMs, hact]
  unfold idle
  simp only [hage, hact]

/-- The state in the middle of a sweep: some slots have been freed. -/
structure Swept (o : Prop) (s s' : Sys) : Prop where
  base : s'.Base o
  currpid : s'.kernel.currpid = s.kernel.currpid
  ctl : s'.ctl = s.ctl
  nact : s'.table.nact = s.table.nact
  act : ∀ i, (s'.table.act i).pid ≠ -1 → s'.table.act i = s.table.act i

theorem Base.swept (h : s.Base o) : Swept o s s := ⟨h, rfl, rfl, rfl, fun _ _ => rfl⟩

theorem Swept.of_kill {s'' : Sys} (h : Swept o s s') {i : ActorId} {k : Kernel} {dead : ActorId → Bool}
    (hk : s'.kernel.procKill (s'.table.act i).pid = some k)
    (hs : s'' = { s' with
      kernel := k
      table := { s'.table.modify i fun a => { a with pid := -1 } with dead := dead } })
    (hbase : s''.Base o) : Swept o s s'' := by
  subst hs
  refine ⟨hbase, (Kernel.procKill_kills h.base.sched hk).currpid_eq.trans h.currpid, h.ctl, h.nact, ?_⟩
  intro j hj
  by_cases hji : j = i
  · subst hji
    simp at hj
  · simp only [ActorTable.modify_act_of_ne _ _ hji] at hj ⊢
    exact h.act j hj

theorem Swept.sweepSlot {thresholdMs : ℤ} {dryRun : Bool} {nowMs : ℕ} {w w' : Sweep} {i : ActorId}
    {f : Frame} (hcur : s.cur = .running f) (h : Swept o s w.sys)
    (hself : (s.table.act i).pid = s.kernel.currpid.val → s.idle thresholdMs nowMs i → ¬ dryRun → o)
    (hw : Sys.sweepSlot thresholdMs dryRun nowMs w i = some w') : Swept o s w'.sys := by
  unfold Sys.sweepSlot at hw
  split_ifs at hw with hpid hidle hdry
  · cases hw
    exact h
  · cases hw
    exact h
  · obtain ⟨⟨r, s''⟩, hkill, rfl⟩ := Option.map_eq_some_iff.mp hw
    have hact := h.act i hpid
    rw [idle_congr hact h.nact] at hidle
    have hcur' : w.sys.cur = .running f := by
      rw [cur, h.ctl, h.currpid]
      exact hcur
    have hbase : s''.Base o := by
      refine h.base.apForceKill hcur' ?_ hkill
      intro j hj hpidj _
      obtain ⟨hij, -⟩ := ActorTable.slotOf_eq_some hj
      obtain rfl : j = i := Fin.ext (by omega)
      rw [hact, h.currpid] at hpidj
      exact hself hpidj hidle hdry
    rcases apForceKill_eq hkill with ⟨rfl, -⟩ | ⟨j, k, -, -, -, hk, rfl⟩
    · exact h
    · exact h.of_kill hk rfl hbase
  · cases hw
    exact h

theorem Base.apGcSweep (h : s.Base o) {thresholdMs : ℤ} {dryRun : Bool} {nowMs : ℕ} {w : Sweep}
    {f : Frame} (hcur : s.cur = .running f)
    (hself : ∀ i, (s.table.act i).pid = s.kernel.currpid.val → s.idle thresholdMs nowMs i →
      ¬ dryRun → o)
    (hs : s.apGcSweep thresholdMs dryRun nowMs = some w) : Swept o s w.sys :=
  exec_invariant (fun w => Swept o s w.sys)
    (fun i _ _ _ hw hstep => hw.sweepSlot hcur (hself i) hstep) h.swept hs

theorem Base.pid_pos (h : s.Base o) {i : ActorId} (hi : (s.table.act i).pid ≠ -1) :
    0 < (s.table.act i).pid := by
  obtain ⟨-, p, hp, -, hactor⟩ := h.pid_proc i hi
  have hp0 : p.val ≠ 0 := fun h0 => h.ne_null hactor (Fin.ext h0)
  omega

theorem Swept.reap {s'' : Sys} {i : ActorId} (h : Swept o s s')
    (hself : (s.table.act i).pid ≠ s.kernel.currpid.val) (hs : s'.reap i = some s'') :
    Swept o s s'' ∧ (s''.table.act i).pid = -1 ∧
      ∀ j, (s'.table.act j).pid = -1 → (s''.table.act j).pid = -1 := by
  unfold Sys.reap at hs
  split_ifs at hs with hpos
  · obtain ⟨k, hk, rfl⟩ := Option.map_eq_some_iff.mp hs
    have hpid : (s'.table.act i).pid ≠ -1 := by omega
    have hact := h.act i hpid
    have hself' : (s'.table.act i).pid ≠ s'.kernel.currpid.val := by
      rw [hact, h.currpid]
      exact hself
    have hbase : Base o { s' with
        kernel := k, table := s'.table.modify i fun a => { a with pid := -1 } } :=
      h.base.kill hpid hself' hk rfl rfl rfl rfl fun _ h => h
    refine ⟨h.of_kill hk rfl hbase, by simp, fun j hj => ?_⟩
    by_cases hji : j = i
    · subst hji
      simp
    · simp only [ActorTable.modify_act_of_ne _ _ hji, hj]
  · cases hs
    refine ⟨h, ?_, fun _ h => h⟩
    by_contra hne
    exact hpos (h.base.pid_pos hne)

theorem mem_slots {t : ActorTable} {i : ActorId} : i ∈ t.slots ↔ i.val < t.nact.val := by
  unfold ActorTable.slots
  rw [List.mem_map]
  constructor
  · rintro ⟨k, -, rfl⟩
    exact k.isLt
  · intro hi
    exact ⟨⟨i.val, hi⟩, List.mem_finRange _, rfl⟩

/-- After the loop over all slots in use, every slot is free. -/
theorem Base.reapAll (h : s.Base o) (hself : ∀ i, (s.table.act i).pid ≠ s.kernel.currpid.val)
    (hs : exec Sys.reap s s.table.slots = some s') :
    Swept o s s' ∧ ∀ i, (s'.table.act i).pid = -1 := by
  obtain ⟨hswept, hall, -⟩ := exec_forall (Swept o s) (fun i s' => (s'.table.act i).pid = -1)
    (fun i _ _ _ hI hstep => hI.reap (hself i) hstep) h.swept hs
  refine ⟨hswept, fun i => ?_⟩
  by_contra hne
  have hlt := (hswept.base.pid_proc i hne).1
  rw [hswept.nact] at hlt
  exact hne (hall i (mem_slots.mpr hlt))

/-- With all slots free, only orphans are left. -/
theorem Base.cleared (h : s.Base o) (hall : ∀ i, (s.table.act i).pid = -1)
    (hpop : Kernel.SamePop s.kernel s'.kernel) (hctl : s'.ctl = s.ctl)
    (hpid : ∀ i, (s'.table.act i).pid = -1) (hdead : s'.table.dead = s.table.dead) :
    s'.Base o := by
  refine ⟨hpop.scheduled, ?_, by rw [hctl]; exact h.null_code, ?_, ?_, ?_⟩
  · rw [Ne, hpop.free_iff]
    exact h.null_alive
  · intro p hp
    rw [Ne, hpop.free_iff] at hp
    rw [hctl, hpop.role_eq]
    exact h.fits p hp
  · exact fun i hi => absurd (hpid i) hi
  · intro p i hp hi
    rw [Ne, hpop.free_iff] at hp
    rw [hctl] at hi ⊢
    rcases h.proc_pid p i hp hi with heq | ⟨ho, -, hd, he⟩
    · rw [hall i] at heq
      omega
    · exact Or.inr ⟨ho, hpid i, by rw [hdead]; exact hd, he⟩

theorem Base.apKillall (h : s.Base o) (hself : ∀ i, (s.table.act i).pid ≠ s.kernel.currpid.val)
    (hs : s.apKillall = some s') : s'.Base o := by
  obtain ⟨s₁, hrun, rfl⟩ := Option.map_eq_some_iff.mp hs
  obtain ⟨hswept, hall⟩ := h.reapAll hself hrun
  exact hswept.base.cleared hall (samePop_refl hswept.base) rfl hall rfl

theorem slots_nodup (t : ActorTable) : t.slots.Nodup :=
  (List.nodup_finRange _).map (Fin.castLE_injective _)

/-- The first loop of `ap_reset` kills the same processes as `ap_killall`. -/
theorem exec_killPid {t : ActorTable} {l : List ActorId} (hl : l.Nodup) {k : Kernel}
    (hact : ∀ i ∈ l, s.table.act i = t.act i) (hrun : exec (killPid t) s.kernel l = some k) :
    ∃ s', exec reap s l = some s' ∧ s'.kernel = k ∧ s'.ctl = s.ctl ∧
      s'.table.dead = s.table.dead := by
  induction l generalizing s with
  | nil =>
    cases hrun
    exact ⟨s, rfl, rfl, rfl, rfl⟩
  | cons i l ih =>
    obtain ⟨hil, hl⟩ := List.nodup_cons.mp hl
    obtain ⟨k₁, hk, hrest⟩ := Option.bind_eq_some_iff.mp hrun
    rw [killPid, ← hact i List.mem_cons_self] at hk
    simp only [exec, reap]
    split_ifs at hk ⊢ with hpos
    · rw [killSlot, hk, Option.map_some, Option.bind_some]
      refine ih (s := { s with
        kernel := k₁, table := s.table.modify i fun a => { a with pid := -1 } }) hl ?_ hrest
      intro j hj
      have hji : j ≠ i := by
        rintro rfl
        exact hil hj
      simp only [ActorTable.modify_act_of_ne _ _ hji]
      exact hact j (List.mem_cons_of_mem i hj)
    · cases hk
      rw [Option.bind_some]
      exact ih hl (fun j hj => hact j (List.mem_cons_of_mem i hj)) hrest

theorem Base.apReset (h : s.Base o) (hself : ∀ i, (s.table.act i).pid ≠ s.kernel.currpid.val)
    (hs : s.apReset = some s') : s'.Base o := by
  obtain ⟨k, hrun, rfl⟩ := Option.map_eq_some_iff.mp hs
  obtain ⟨s₁, hrun₁, rfl, hctl, hdead⟩ := exec_killPid (slots_nodup _) (fun _ _ => rfl) hrun
  obtain ⟨hswept, hall⟩ := h.reapAll hself hrun₁
  exact hswept.base.cleared hall (.of_aipl hswept.base.sched _) hctl.symm (fun _ => rfl) hdead.symm

/-- The step keeps slots and processes together. A process may kill its own slot
only if orphans are allowed for, and never with `ap_reset` or `ap_killall`; no slot
is reused while an orphan of it exists. -/
def KeepsSlots (o : Prop) (s : Sys) : SysOp → Prop
  | .spawn _ => ∀ i t, s.table.spawnSlot = some (i, t) → s.Vacant i
  | .forceKill id => ∀ i, s.table.slotOf id = some i →
      (s.table.act i).pid = s.kernel.currpid.val → ¬ (s.table.act i).protectedFromGc → o
  | .gcSweep thresholdMs dryRun nowMs => ∀ i, (s.table.act i).pid = s.kernel.currpid.val →
      s.idle thresholdMs nowMs i → ¬ dryRun → o
  | .reset => ∀ i, (s.table.act i).pid ≠ s.kernel.currpid.val
  | .killall => ∀ i, (s.table.act i).pid ≠ s.kernel.currpid.val
  | _ => True

theorem Base.step (h : s.Base o) {op : SysOp} (hok : s.KeepsSlots o op)
    (hs : s.step op = some s') : s'.Base o := by
  cases op with
  | send dest method a0 a1 a2 a3 => exact h.moves (h.apSend_moves hs)
  | call dest method a0 a1 a2 a3 => exact h.moves (h.apCall_moves hs)
  | select meths => exact h.moves (h.apSelect_moves hs)
  | postStep => exact h.moves (h.postStep_moves hs)
  | recvStep nowMs => exact h.moves (h.recvStep_moves hs)
  | lockStep => exact h.moves (h.lockStep_moves hs)
  | selectStep => exact h.moves (h.selectStep_moves hs)
  | relockStep => exact h.moves (h.relockStep_moves hs)
  | ret r => exact h.moves (h.handlerReturn_moves hs)
  | crash => exact h.moves (h.apCrash_moves hs)
  | finishStep => exact h.finishStep hs
  | spawn nowMs =>
    obtain ⟨f, -, hs⟩ := asCode_eq hs
    obtain ⟨⟨r, s₁⟩, hspawn, rfl⟩ := Option.map_eq_some_iff.mp hs
    exact h.apSpawn hok hspawn
  | suicide id =>
    obtain ⟨f, -, hs⟩ := asCode_eq hs
    cases hs
    exact h.moves (.of_stay rfl (samePop_refl h) (s.table.apSuicide_sameSlots id))
  | gcProtect id on =>
    obtain ⟨f, -, hs⟩ := asCode_eq hs
    cases hs
    exact h.moves (.of_stay rfl (samePop_refl h) (s.table.apGcProtect_sameSlots id on))
  | forceKill id =>
    obtain ⟨f, hcur, hs⟩ := asCode_eq hs
    obtain ⟨⟨r, s₁⟩, hkill, rfl⟩ := Option.map_eq_some_iff.mp hs
    exact h.apForceKill hcur hok hkill
  | gcSweep thresholdMs dryRun nowMs =>
    obtain ⟨f, hcur, hs⟩ := asCode_eq hs
    obtain ⟨w, hsweep, rfl⟩ := Option.map_eq_some_iff.mp hs
    exact (h.apGcSweep hcur hok hsweep).base
  | reset =>
    obtain ⟨f, -, hs⟩ := asCode_eq hs
    exact h.apReset hok hs
  | killall =>
    obtain ⟨f, -, hs⟩ := asCode_eq hs
    exact h.apKillall hok hs
  | direct actor =>
    obtain ⟨f, hcur, hs⟩ := asCode_eq hs
    split_ifs at hs with hf
    cases hs
    refine h.moves (.of_goto rfl (samePop_refl h) (.refl _) ?_ ?_)
    · rw [hcur, hf]
      rfl
    · rw [hcur, hf]
      exact fun _ => Or.inr (by rintro i ⟨⟩)
  | lock =>
    obtain ⟨f, hcur, hs⟩ := asCode_eq hs
    split_ifs at hs with hf
    cases hs
    refine h.moves (.of_goto rfl (samePop_refl h) (.refl _) ?_ ?_)
    · rw [hcur, hf]
      rfl
    · rw [hcur, hf]
      exact fun _ => Or.inr (by rintro i ⟨⟩)
  | unlock =>
    obtain ⟨f, hcur, hs⟩ := asCode_eq hs
    split_ifs at hs with hf
    cases hs
    obtain ⟨a, hk⟩ := s.kernel.aiplUnlock_eq
    refine h.moves (.of_stay rfl ?_ (.refl _))
    simp only [hk]
    exact .of_aipl h.sched a
  | create addr n name arg =>
    obtain ⟨f, -, hs⟩ := asCode_eq hs
    exact h.createOther hs
  | exit =>
    obtain ⟨f, hcur, hs⟩ := asCode_eq hs
    split_ifs at hs with hf
    obtain ⟨k, hk, rfl⟩ := Option.map_eq_some_iff.mp hs
    rw [hf.1] at hcur
    exact h.exitOther hcur hf.2 hk
  | resched =>
    cases hs
    exact h.moves (.of_stay rfl (Kernel.procResched_samePop h.sched) (.refl _))

end Sys

end XinuRpi4.Actor
