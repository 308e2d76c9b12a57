import XinuRpi4.Actor.System
import XinuRpi4.Process.Transitions

/-!
# What each step does

One lemma for each operation says where the current process stood and what
state it leaves behind. Later proofs use these and do not unfold the operations.
-/

namespace XinuRpi4.Actor

open Foundation Process

namespace Sys

variable {s s' : Sys}

theorem running?_eq_some {c : Ctl} {f : Frame} (h : c.running? = some f) : c = .running f := by
  cases c with
  | running g =>
    cases h
    rfl
  | _ => cases h

theorem asCode_eq {act : Frame → Option Sys} (h : s.asCode act = some s') :
    ∃ f, s.cur = .running f ∧ act f = some s' := by
  obtain ⟨f, hf, hact⟩ := Option.bind_eq_some_iff.mp h
  exact ⟨f, running?_eq_some hf, hact⟩

/-- The two outcomes of the checks of `ap_post`. -/
theorem beginPost_eq (s : Sys) (dest : ℤ) (m : ApMsg) (next : PostCont) :
    (∃ i, s.table.slotOf dest = some i ∧ (s.table.act i).pid ≠ -1 ∧
        s.beginPost dest m next = s.goto (.posting i m next)) ∨
      (∀ i, s.table.slotOf dest = some i → (s.table.act i).pid = -1) ∧
        ∃ oob dead, s.beginPost dest m next =
          { s with table := { s.table with dropOob := oob, dropDead := dead } }.goto next.resume := by
  unfold beginPost ActorTable.postCheck
  cases hs : s.table.slotOf dest with
  | none => exact Or.inr ⟨by simp, _, _, rfl⟩
  | some i =>
    by_cases hpid : (s.table.act i).pid = -1
    · right
      simp only [if_pos hpid]
      refine ⟨?_, _, _, rfl⟩
      rintro _ ⟨⟩
      exact hpid
    · left
      simp only [if_neg hpid]
      exact ⟨i, rfl, hpid, rfl⟩

theorem apSend_eq {dest method a0 a1 a2 a3 : ℤ}
    (h : s.apSend dest method a0 a1 a2 a3 = some s') :
    ∃ f, s.cur = .running f ∧
      s' = s.beginPost dest (sendMsg method a0 a1 a2 a3) (.send f) := by
  obtain ⟨f, hf, h⟩ := Option.bind_eq_some_iff.mp h
  cases h
  exact ⟨f, running?_eq_some hf, rfl⟩

/-- The request of the next call. -/
def request (s : Sys) (self : ActorId) (method a0 a1 a2 a3 : ℤ) : ApMsg :=
  ⟨method, a0, a1, a2, a3, self.val, some s.nextTag⟩

theorem apCall_eq {dest method a0 a1 a2 a3 : ℤ}
    (h : s.apCall dest method a0 a1 a2 a3 = some s') :
    ∃ f self, s.cur = .running f ∧ f.self = some self ∧
      s' = { s.beginPost dest (s.request self method a0 a1 a2 a3)
              (.call ⟨self, dest, s.nextTag⟩ f) with nextTag := s.nextTag + 1 } := by
  obtain ⟨f, hf, h⟩ := Option.bind_eq_some_iff.mp h
  obtain ⟨self, hself, h⟩ := Option.bind_eq_some_iff.mp h
  cases h
  exact ⟨f, self, running?_eq_some hf, hself, rfl⟩

theorem apSelect_eq {meths : List ℤ} (h : s.apSelect meths = some s') :
    ∃ f self, s.cur = .running f ∧ f.self = some self ∧
      s' = s.goto (.selecting self meths (.select f) none) := by
  obtain ⟨f, hf, h⟩ := Option.bind_eq_some_iff.mp h
  obtain ⟨self, hself, h⟩ := Option.bind_eq_some_iff.mp h
  cases h
  exact ⟨f, self, running?_eq_some hf, hself, rfl⟩

theorem postStep_eq (h : s.postStep = some s') :
    ∃ dest m next, s.cur = .posting dest m next ∧
      s' = { s.goto next.resume with
        table := (s.table.postSection dest m).1
        kernel := (s.table.postSection dest m).2.elim s.kernel s.kernel.procReady } := by
  unfold postStep at h
  split at h
  · next dest m next hcur =>
    cases h
    exact ⟨dest, m, next, hcur, rfl⟩
  · cases h

theorem recvStep_eq {nowMs : ℕ} (h : s.recvStep nowMs = some s') :
    ∃ self, s.cur = .recv self ∧
      ((∃ t m, s.table.recvSection self nowMs = (t, some m) ∧
          s' = { s.goto (.locking (.handler self m) 0) with
            table := { t with curReply := Function.update t.curReply self m.replyTo } }) ∨
        ∃ t, s.table.recvSection self nowMs = (t, none) ∧
          s' = { s with table := t, kernel := s.kernel.procBlock }) := by
  unfold recvStep at h
  split at h
  · next self hcur =>
    refine ⟨self, hcur, ?_⟩
    split at h
    · next t m hrecv =>
      cases h
      exact Or.inl ⟨t, m, hrecv, rfl⟩
    · next t hrecv =>
      cases h
      exact Or.inr ⟨t, hrecv, rfl⟩
  · cases h

theorem lockStep_eq (h : s.lockStep = some s') :
    ∃ f spins, s.cur = .locking f spins ∧
      ((∃ k, s.kernel.aiplRound spins = some k ∧
          s' = { s.goto (.running f) with kernel := k, table := arm s.table f }) ∨
        s' = { s.goto (.locking f (spins + 1)) with kernel := s.kernel.procResched }) := by
  unfold lockStep at h
  split at h
  · next f spins hcur =>
    refine ⟨f, spins, hcur, ?_⟩
    split at h
    · next k hk =>
      cases h
      exact Or.inl ⟨k, hk, rfl⟩
    · cases h
      exact Or.inr rfl
  · cases h

/-- The record of a call that returns with the message `m`. -/
def logReturn (s : Sys) (m : ApMsg) : SelectCont → List Outcome
  | .select _ => s.returns
  | .call c _ => ⟨c.tag, c.dest, m.a0⟩ :: s.returns

theorem selectStep_eq (h : s.selectStep = some s') :
    ∃ self meths next, s.cur = .selecting self meths next none ∧
      ((∃ t m, s.table.selectSection self meths = (t, some m) ∧
          s' = { s.goto (.running next.frame) with
            table := t, returns := s.logReturn m next }) ∨
        ∃ t relock, s.table.selectSection self meths = (t, none) ∧
          s' = { s.goto (.selecting self meths next relock) with
            table := t, kernel := s.kernel.aiplUnlockAll.1.procBlock }) := by
  unfold selectStep at h
  split at h
  · next self meths next hcur =>
    refine ⟨self, meths, next, hcur, ?_⟩
    split at h
    · next t m hsel =>
      cases h
      refine Or.inl ⟨t, m, hsel, ?_⟩
      cases next <;> rfl
    · next t hsel =>
      cases h
      exact Or.inr ⟨t, _, hsel, rfl⟩
  · cases h

theorem relockStep_eq (h : s.relockStep = some s') :
    ∃ self meths next saved spins, s.cur = .selecting self meths next (some (saved, spins)) ∧
      ((∃ k, s.kernel.aiplRound spins = some k ∧
          s' = { s.goto (.selecting self meths next none) with kernel := k.aiplSetDepth saved }) ∨
        s' = { s.goto (.selecting self meths next (some (saved, spins + 1))) with
          kernel := s.kernel.procResched }) := by
  unfold relockStep at h
  split at h
  · next self meths next saved spins hcur =>
    refine ⟨self, meths, next, saved, spins, hcur, ?_⟩
    split at h
    · next k hk =>
      cases h
      exact Or.inl ⟨k, hk, rfl⟩
    · cases h
      exact Or.inr rfl
  · cases h

theorem handlerReturn_eq {r : ℤ} (h : s.handlerReturn r = some s') :
    (∃ actor, s.cur = .running (.direct actor) ∧
        s' = { s.goto (.running .code) with
          kernel := s.kernel.aiplUnlock, table := s.table.apNoteMsg actor.val }) ∨
      ∃ self m, s.cur = .running (.handler self m) ∧ s' = s.answer self m.replyTo r m.tag := by
  obtain ⟨f, hf, h⟩ := Option.bind_eq_some_iff.mp h
  have hcur := running?_eq_some hf
  cases f with
  | code => cases h
  | direct actor =>
    cases h
    exact Or.inl ⟨actor, hcur, rfl⟩
  | handler self m =>
    cases h
    exact Or.inr ⟨self, m, hcur, rfl⟩

theorem apCrash_eq (h : s.apCrash = some s') :
    ∃ f, s.cur = .running f ∧
      (s' = s ∧ (∀ i ∈ s.table.slots,
          ¬ ((s.table.act i).pid = s.kernel.currpid.val ∧ s.table.jmpArmed i)) ∨
        ∃ self i, s.argSlot = some self ∧
        (s.table.act i).pid = s.kernel.currpid.val ∧ s.table.jmpArmed i ∧
        s' = s.answer self (toInt (s.table.curReply self)) apCrashReply f.tag) := by
  obtain ⟨f, hf, h⟩ := Option.bind_eq_some_iff.mp h
  refine ⟨f, running?_eq_some hf, ?_⟩
  split at h
  · next hnone =>
    cases h
    refine Or.inl ⟨rfl, fun i hi => ?_⟩
    simpa using List.find?_eq_none.mp hnone i hi
  · next i hfind =>
    obtain ⟨self, hself, h⟩ := Option.bind_eq_some_iff.mp h
    cases h
    have hi := List.find?_some hfind
    simp only [Bool.decide_and, Bool.decide_eq_true, Bool.and_eq_true, decide_eq_true_eq] at hi
    exact Or.inr ⟨self, i, hself, hi.1, hi.2, rfl⟩

theorem finishStep_eq (h : s.finishStep = some s') :
    ∃ self, s.cur = .finishing self ∧
      ((s.table.dead self ∧ ∃ k, s.kernel.aiplUnlockAll.1.procExit = some k ∧
          s' = { s with kernel := k, table := s.table.modify self fun a => { a with pid := -1 } }) ∨
        ¬ s.table.dead self ∧ s' = { s.goto (.recv self) with kernel := s.kernel.aiplUnlockAll.1 }) := by
  unfold finishStep at h
  split at h
  · next self hcur =>
    refine ⟨self, hcur, ?_⟩
    simp only at h
    by_cases hd : s.table.dead self
    · rw [if_pos hd] at h
      obtain ⟨k, hk, rfl⟩ := Option.map_eq_some_iff.mp h
      exact Or.inl ⟨hd, k, hk, rfl⟩
    · rw [if_neg hd] at h
      cases h
      exact Or.inr ⟨hd, rfl⟩
  · cases h

theorem createOther_eq {addr n : ℕ} {name : List Char} {arg : ℤ}
    (h : s.createOther addr n name arg = some s') :
    ∃ pid k, s.kernel.procCreateArg (.other addr) n name arg = some (pid, k) ∧
      s' = { s with
        kernel := k
        ctl := (Kernel.slotOf pid).elim s.ctl fun p => Function.update s.ctl p (.running .code) } := by
  obtain ⟨⟨pid, k⟩, hc, h⟩ := Option.bind_eq_some_iff.mp h
  refine ⟨pid, k, hc, ?_⟩
  simp only at h
  cases hs : Kernel.slotOf pid with
  | none =>
    rw [hs] at h
    cases h
    rfl
  | some p =>
    rw [hs] at h
    cases h
    rfl

/-- The four ways `ap_spawn` returns, in one. -/
theorem apSpawn_eq {nowMs : ℕ} {r : ℤ} (h : s.apSpawn nowMs = some (r, s')) :
    s.table.spawnSlot = none ∧ s' = s ∨
      ∃ id t pid k, s.table.spawnSlot = some (id, t) ∧
        s.kernel.procCreateArg .actorProcMain 8192 "actor".toList id.val = some (pid, k) ∧
        s' = { s with
          kernel := k
          table := (t.resetSlot id nowMs).modify id fun a =>
            { a with pid := if pid < 0 then -1 else pid }
          ctl := (Kernel.slotOf pid).elim s.ctl fun p => Function.update s.ctl p (.recv id) } := by
  unfold apSpawn at h
  cases hslot : s.table.spawnSlot with
  | none =>
    rw [hslot] at h
    cases h
    exact Or.inl ⟨rfl, rfl⟩
  | some r =>
    obtain ⟨id, t⟩ := r
    simp only [hslot] at h
    obtain ⟨⟨pid, k⟩, hc, h⟩ := Option.bind_eq_some_iff.mp h
    refine Or.inr ⟨id, t, pid, k, rfl, hc, ?_⟩
    simp only at h
    cases hs : Kernel.slotOf pid with
    | none =>
      rw [hs] at h
      cases h
      rfl
    | some p =>
      rw [hs] at h
      cases h
      rfl

theorem apForceKill_eq {id r : ℤ} (h : s.apForceKill id = some (r, s')) :
    (s' = s ∧ r = -1 ∧ ∀ i, s.table.slotOf id = some i →
        (s.table.act i).pid = -1 ∨ (s.table.act i).protectedFromGc) ∨
      ∃ i k, s.table.slotOf id = some i ∧ (s.table.act i).pid ≠ -1 ∧
        ¬ (s.table.act i).protectedFromGc ∧
        s.kernel.procKill (s.table.act i).pid = some k ∧
        s' = { s with
          kernel := k
          table := { s.table.modify i fun a => { a with pid := -1 } with
            dead := Function.update s.table.dead i true } } := by
  unfold apForceKill at h
  cases hs : s.table.slotOf id with
  | none =>
    rw [hs] at h
    cases h
    exact Or.inl ⟨rfl, rfl, by simp⟩
  | some i =>
    simp only [hs] at h
    by_cases hskip : (s.table.act i).pid = -1 ∨ (s.table.act i).protectedFromGc
    · rw [if_pos hskip] at h
      cases h
      refine Or.inl ⟨rfl, rfl, ?_⟩
      rintro _ ⟨⟩
      exact hskip
    · rw [if_neg hskip] at h
      obtain ⟨s₁, hk, h⟩ := Option.map_eq_some_iff.mp h
      obtain ⟨k, hkill, rfl⟩ := Option.map_eq_some_iff.mp hk
      cases h
      push Not at hskip
      exact Or.inr ⟨i, k, rfl, hskip.1, by simpa using hskip.2, hkill, rfl⟩

end Sys

end XinuRpi4.Actor
