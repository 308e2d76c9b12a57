import XinuRpi4.System.Probe

/-!
# When a fault returns to the probe that it came from

For each process it is said what it can rely on at its stage: the words of the buffer
that it has stored, as long as no other process has stored there, and the flag, as long
as no other process has cleared it.
-/

namespace XinuRpi4.System

open Foundation

namespace Probes

variable {s s' : Probes}

/-- The buffer is that of the call unless another process has stored in it. -/
def Owns (s : Probes) (p c : ℕ) : Prop := s.clobbered p = false → ∀ i < 3, s.jmp i = some c

/-- What a process can rely on at a stage. -/
def StageOk (s : Probes) (p : ℕ) : Stage → Prop
  | .setjmp c i => i < 3 ∧ (s.clobbered p = false → ∀ j < i, s.jmp j = some c)
  | .arm c => s.Owns p c
  | .access c => s.Owns p c ∧ (s.cleared p = false → s.active = true)
  | .disarm c v => (c, some v) ∈ s.outcomes
  | .jump origin got => ∃ c, origin = some c ∧ (c, none) ∈ s.outcomes ∧ s.Owns p c ∧
      got.length ≤ 3 ∧ ∀ w ∈ got, w = some c
  | .landed c => (c, none) ∈ s.outcomes
  | _ => True

/-- Nothing that a process relies on is lost without a note of it. -/
structure Keeps (s s' : Probes) (p : ℕ) : Prop where
  jmp : s'.clobbered p = false → s.clobbered p = false ∧ s'.jmp = s.jmp
  flag : s'.cleared p = false → s.cleared p = false ∧ (s.active = true → s'.active = true)
  outcomes : s.outcomes ⊆ s'.outcomes

theorem Owns.keep {p c : ℕ} (h : s.Owns p c) (hk : Keeps s s' p) : s'.Owns p c := by
  intro hcl
  obtain ⟨hcl', hjmp⟩ := hk.jmp hcl
  rw [hjmp]
  exact h hcl'

theorem StageOk.keep {p : ℕ} {st : Stage} (h : s.StageOk p st) (hk : Keeps s s' p) :
    s'.StageOk p st := by
  cases st with
  | setjmp c i =>
    refine ⟨h.1, fun hcl => ?_⟩
    obtain ⟨hcl', hjmp⟩ := hk.jmp hcl
    rw [hjmp]
    exact h.2 hcl'
  | arm c => exact Owns.keep h hk
  | access c =>
    refine ⟨Owns.keep h.1 hk, fun hcl => ?_⟩
    obtain ⟨hcl', hact⟩ := hk.flag hcl
    exact hact (h.2 hcl')
  | disarm c v => exact hk.outcomes h
  | jump origin got =>
    obtain ⟨c, horigin, hout, hown, hgot⟩ := h
    exact ⟨c, horigin, hk.outcomes hout, hown.keep hk, hgot⟩
  | landed c => exact hk.outcomes h
  | running => trivial
  | lost => trivial
  | spin => trivial

/-- What holds between any two steps. -/
structure ProbesOk (s : Probes) : Prop where
  sound : s.Sound
  stages : ∀ p, s.StageOk p (s.stage p)

theorem ProbesOk.init : init.ProbesOk := by
  constructor
  · constructor <;> simp [Probes.init]
  · intro p
    trivial

/-- One process goes on to a stage; the others keep what they rely on. -/
theorem stages_update (h : ∀ q, s.StageOk q (s.stage q)) {p : ℕ} {st : Stage}
    (hstage : s'.stage = Function.update s.stage p st) (hst : s'.StageOk p st)
    (hk : ∀ q, q ≠ p → Keeps s s' q) (q : ℕ) : s'.StageOk q (s'.stage q) := by
  by_cases hq : q = p
  · subst hq
    rw [hstage, Function.update_self]
    exact hst
  · rw [hstage, Function.update_of_ne hq]
    exact (h q).keep (hk q hq)

/-- Steps that write neither buffer nor flag. -/
theorem Keeps.of_eq {q : ℕ} (hjmp : s'.jmp = s.jmp) (hclob : s'.clobbered q = s.clobbered q)
    (hact : s'.active = s.active) (hclr : s'.cleared q = s.cleared q)
    (hout : s.outcomes ⊆ s'.outcomes) : Keeps s s' q where
  jmp hcl := ⟨hclob ▸ hcl, hjmp⟩
  flag hcl := ⟨hclr ▸ hcl, fun ha => hact.trans ha⟩
  outcomes := hout

theorem Keeps.store {p q : ℕ} (hq : q ≠ p) (i c : ℕ) (st : Stage) :
    Keeps s ((s.store p i c).setStage p st) q where
  jmp hcl := by simp [Probes.store, setStage, hq] at hcl
  flag hcl := ⟨hcl, id⟩
  outcomes := fun _ h => h

theorem Keeps.arm {p q : ℕ} (hq : q ≠ p) (st : Stage) :
    Keeps s ((s.arm p).setStage p st) q where
  jmp hcl := ⟨hcl, rfl⟩
  flag hcl := ⟨by simpa [Probes.arm, setStage, hq] using hcl, fun _ => rfl⟩
  outcomes := fun _ h => h

/-- Clearing the flag, with additions to the logs. -/
theorem Keeps.clear {p q : ℕ} (hq : q ≠ p) (hs' : s'.jmp = s.jmp)
    (hclob : s'.clobbered = s.clobbered) (hclr : s'.cleared q = (s.clear p).cleared q)
    (hout : s.outcomes ⊆ s'.outcomes) : Keeps s s' q where
  jmp hcl := ⟨hclob ▸ hcl, hs'⟩
  flag hcl := by
    rw [hclr] at hcl
    simp [Probes.clear, hq] at hcl
  outcomes := hout

theorem Apart.fault_cases {p : ℕ} {f : Fault} (hop : s.Apart (.fault p f)) :
    (∃ c, s.stage p = .access c ∧ s.clobbered p = false ∧ s.cleared p = false) ∨
      (s.atAccess p = none ∧ s.active = false) := by
  cases hst : s.stage p <;> simp_all [Apart, atAccess]

namespace ProbesOk

theorem cpu (h : s.ProbesOk) {p : ℕ} (hop : s.Apart (.cpu p)) (hstep : s.cpu p = some s') :
    s'.ProbesOk := by
  have hp := h.stages p
  cases hst : s.stage p with
  | setjmp c i =>
    rw [hst] at hp
    obtain ⟨hi, hwords⟩ := hp
    simp only [Probes.cpu, hst, Option.some.injEq] at hstep
    subst hstep
    -- the word is stored, and those before it stay
    have hstored : s.clobbered p = false → ∀ j < i + 1, Function.update s.jmp i (some c) j = some c := by
      intro hcl j hj
      by_cases hji : j = i
      · rw [hji, Function.update_self]
      · rw [Function.update_of_ne hji]
        exact hwords hcl j (by omega)
    refine ⟨⟨h.sound.jumps, h.sound.probes, h.sound.others, h.sound.results⟩, ?_⟩
    have hnext : ((s.store p i c).setStage p (if i < 2 then .setjmp c (i + 1) else .arm c)).StageOk p
        (if i < 2 then .setjmp c (i + 1) else .arm c) := by
      by_cases h2 : i < 2
      · rw [if_pos h2]
        exact ⟨by omega, fun hcl => hstored (by simpa [Probes.store, setStage] using hcl)⟩
      · rw [if_neg h2]
        obtain rfl : i = 2 := by omega
        exact fun hcl => hstored (by simpa [Probes.store, setStage] using hcl)
    exact stages_update h.stages rfl hnext fun q hq => Keeps.store hq i c _
  | arm c =>
    rw [hst] at hp
    simp only [Probes.cpu, hst, Option.some.injEq] at hstep
    subst hstep
    refine ⟨⟨h.sound.jumps, h.sound.probes, h.sound.others, h.sound.results⟩, ?_⟩
    exact stages_update h.stages rfl ⟨hp, fun _ => rfl⟩ fun q hq => Keeps.arm hq _
  | disarm c v =>
    rw [hst] at hp
    simp only [Probes.cpu, hst, Option.some.injEq] at hstep
    subst hstep
    refine ⟨⟨h.sound.jumps, h.sound.probes, h.sound.others, forall_mem_snoc h.sound.results hp⟩, ?_⟩
    exact stages_update h.stages rfl trivial fun q hq =>
      Keeps.clear hq rfl rfl rfl fun _ hr => hr
  | landed c =>
    rw [hst] at hp
    simp only [Probes.cpu, hst, Option.some.injEq] at hstep
    subst hstep
    refine ⟨⟨h.sound.jumps, h.sound.probes, h.sound.others, forall_mem_snoc h.sound.results hp⟩, ?_⟩
    exact stages_update h.stages rfl trivial fun q hq =>
      Keeps.clear hq rfl rfl rfl fun _ hr => hr
  | jump origin got =>
    rw [hst] at hp
    obtain ⟨c, horigin, hout, hown, hlen, hgot⟩ := hp
    simp only [Apart, hst] at hop
    by_cases h3 : got.length < 3
    · simp only [Probes.cpu, hst, h3, if_true, Option.some.injEq] at hstep
      subst hstep
      have hword : s.jmp got.length = some c := hown (hop h3) _ h3
      refine ⟨⟨h.sound.jumps, h.sound.probes, h.sound.others, h.sound.results⟩, ?_⟩
      refine stages_update h.stages rfl ⟨c, horigin, hout, hown, ?_, ?_⟩ fun q _ =>
        Keeps.of_eq rfl rfl rfl rfl fun _ hr => hr
      · rw [List.length_append, List.length_singleton]
        omega
      · exact forall_mem_snoc hgot hword
    · have hthree : got = [some c, some c, some c] := by
        have hrep := List.eq_replicate_of_mem hgot
        rw [show got.length = 3 by omega] at hrep
        exact hrep
      subst hthree
      simp only [Probes.cpu, hst, h3, if_false, and_self, if_true, Option.some.injEq] at hstep
      subst hstep
      refine ⟨⟨forall_mem_snoc h.sound.jumps ?_, h.sound.probes, h.sound.others,
        h.sound.results⟩, ?_⟩
      · exact ⟨by simp [horigin], by simp [horigin]⟩
      · exact stages_update h.stages rfl hout fun q _ => Keeps.of_eq rfl rfl rfl rfl fun _ hr => hr
  | running => simp [Probes.cpu, hst] at hstep
  | access c => simp [Probes.cpu, hst] at hstep
  | lost => simp [Probes.cpu, hst] at hstep
  | spin => simp [Probes.cpu, hst] at hstep

/-- An exception of the access of a probe that has flag and buffer for itself. -/
theorem probeFault (h : s.ProbesOk) {p c : ℕ} {f : Fault} (hst : s.stage p = .access c)
    (hclob : s.clobbered p = false) (hclr : s.cleared p = false) : (s.fault p f).ProbesOk := by
  have hp := h.stages p
  rw [hst] at hp
  obtain ⟨hown, hflag⟩ := hp
  have hact := hflag hclr
  have hat : s.atAccess p = some c := by simp [atAccess, hst]
  have hfault : s.fault p f = { (s.clear p).setStage p (.jump (some c) []) with
      taken := s.taken ++ [⟨true, f.translation && (vmFault s.vmd f.far).isSome, .jump⟩]
      outcomes := s.outcomes ++ [(c, none)] } := by
    simp [fault, syncDispatch, syncHandlerDefault, hact, hat]
  rw [hfault]
  refine ⟨⟨h.sound.jumps, forall_mem_snoc h.sound.probes fun _ => rfl,
    forall_mem_snoc h.sound.others fun hnot => absurd rfl hnot, ?_⟩, ?_⟩
  · intro r hr
    exact List.mem_append_left _ (h.sound.results r hr)
  · refine stages_update h.stages rfl ⟨c, rfl, by simp, fun hcl => hown hclob, by simp, by simp⟩
      fun q hq => Keeps.clear hq rfl rfl rfl ?_
    exact List.subset_append_left _ _

/-- Any other exception, with the flag clear. -/
theorem otherFault (h : s.ProbesOk) {p : ℕ} {f : Fault} (hat : s.atAccess p = none)
    (hact : s.active = false) : (s.fault p f).ProbesOk := by
  have hspin : ProbesOk { s.setStage p .spin with taken := s.taken ++ [⟨false, false, .spin⟩] } := by
    refine ⟨⟨h.sound.jumps, forall_mem_snoc h.sound.probes fun hprobe => absurd hprobe (by simp),
      forall_mem_snoc h.sound.others fun _ => rfl, h.sound.results⟩, ?_⟩
    exact stages_update h.stages rfl trivial fun q _ => Keeps.of_eq rfl rfl rfl rfl fun _ hr => hr
  cases htr : f.translation with
  | false =>
    have hfault : s.fault p f = { s.setStage p .spin with
        taken := s.taken ++ [⟨false, false, .spin⟩] } := by
      simp [fault, syncDispatch, syncHandlerDefault, hact, hat, htr]
      rfl
    rw [hfault]
    exact hspin
  | true =>
    cases hvm : vmFault s.vmd f.far with
    | none =>
      have hfault : s.fault p f = { s.setStage p .spin with
          taken := s.taken ++ [⟨false, false, .spin⟩] } := by
        simp [fault, syncDispatch, syncHandlerDefault, hact, hat, htr, hvm]
        rfl
      rw [hfault]
      exact hspin
    | some v =>
      have hfault : s.fault p f = { s with
          vmd := v, taken := s.taken ++ [⟨false, true, .vm⟩] } := by
        simp [fault, syncDispatch, hact, hat, htr, hvm]
      rw [hfault]
      refine ⟨⟨h.sound.jumps, forall_mem_snoc h.sound.probes fun hprobe => absurd hprobe (by simp),
        forall_mem_snoc h.sound.others fun _ => rfl, h.sound.results⟩, fun q => ?_⟩
      exact (h.stages q).keep (Keeps.of_eq rfl rfl rfl rfl fun _ hr => hr)

theorem step (h : s.ProbesOk) {op : ProbeOp} (hop : s.Apart op) (hstep : s.step op = some s') :
    s'.ProbesOk := by
  cases op with
  | begin p =>
    simp only [Probes.step, Option.ite_none_right_eq_some] at hstep
    cases Option.some.inj hstep.2
    refine ⟨⟨h.sound.jumps, h.sound.probes, h.sound.others, h.sound.results⟩, ?_⟩
    refine stages_update h.stages rfl ⟨by decide, fun _ j hj => absurd hj (by omega)⟩ fun q hq => ?_
    exact Keeps.of_eq rfl (Function.update_of_ne hq _ _) rfl rfl fun _ hr => hr
  | cpu p => exact h.cpu hop hstep
  | access p v =>
    simp only [Probes.step] at hstep
    split at hstep
    · rename_i c hst
      cases Option.some.inj hstep
      refine ⟨⟨h.sound.jumps, h.sound.probes, h.sound.others,
        fun r hr => List.mem_append_left _ (h.sound.results r hr)⟩, ?_⟩
      have hout : (c, some v) ∈ s.outcomes ++ [(c, some v)] := by simp
      exact stages_update h.stages rfl hout fun q _ =>
        Keeps.of_eq rfl rfl rfl rfl (List.subset_append_left _ _)
    · cases hstep
  | fault p f =>
    cases Option.some.inj hstep
    rcases hop.fault_cases with ⟨c, hst, hclob, hclr⟩ | ⟨hat, hact⟩
    · exact h.probeFault hst hclob hclr
    · exact h.otherFault hat hact
  | kill p =>
    cases Option.some.inj hstep
    refine ⟨⟨h.sound.jumps, h.sound.probes, h.sound.others, h.sound.results⟩, ?_⟩
    exact stages_update h.stages rfl trivial fun q _ => Keeps.of_eq rfl rfl rfl rfl fun _ hr => hr

end ProbesOk

/-- Faults return to their own probe as long as each has flag and buffer for itself. -/
theorem faults_return_home {ops : List ProbeOp} (hops : EachStep step Apart init ops) :
    Always step Sound init ops :=
  always_of_eachStep ProbesOk Sound (fun _ h => h.sound)
    (fun _ _ _ h hop hstep => h.step hop hstep) ProbesOk.init hops

/-- A probe of process 1 that faults; process 2 touches a demand page before it is armed
and probes another register behind it. -/
theorem faults_return_home_twice :
    Always step Sound init ([ProbeOp.begin 1, .cpu 1, .cpu 1, .fault 2 ⟨true, vmdBase⟩, .cpu 1,
      .cpu 1, .fault 1 ⟨false, 0xfd509210⟩] ++ List.replicate 5 (ProbeOp.cpu 1) ++
      [ProbeOp.begin 2] ++ List.replicate 4 (ProbeOp.cpu 2) ++ [ProbeOp.access 2 7, .cpu 2]) :=
  faults_return_home (by decide)

/-- Process 2 touches a demand page while the probe of process 1 is armed. -/
theorem fault_lands_in_other_probe :
    ¬ ∀ ops : List ProbeOp, Always step Sound init ops := by
  intro h
  have hrun := h ([ProbeOp.begin 1] ++ List.replicate 4 (ProbeOp.cpu 1) ++
    [ProbeOp.fault 2 ⟨true, vmdBase⟩] ++ List.replicate 4 (ProbeOp.cpu 2))
  revert hrun
  decide

end Probes

end XinuRpi4.System
