import XinuRpi4.Compiler.NestingDepth

/-!
# The tables of `cc/codegen.c`

Labels are checked, and an error is recorded when they run out. The fixup tables are
checked too, but what does not fit is dropped without an error, and the stacks of loop
labels are not checked at all.
-/

namespace XinuRpi4.Compiler

open CodeBuf

/-- There is room for `m` words: they end in the buffer, or it ends where the `int`s end. -/
def Room (cap : ℤ) (m : ℕ) : Prop := 4 * (m : ℤ) ≤ cap ∨ 2 ^ 31 - 4 ≤ cap

instance (cap : ℤ) (m : ℕ) : Decidable (Room cap m) := inferInstanceAs (Decidable (_ ∨ _))

section Demands

variable (env : GenEnv)

/-- How many branches a function has. -/
def branchCount (fn : Func) : ℕ := (branchIndices 0 (listing env fn)).length

/-- How many calls of user functions a function has. -/
def callCount (fn : Func) : ℕ := (listing env fn).countP fun l => l matches .call _

/-- The program needs more entries than one of the tables has. -/
def Exceeds : Prop :=
  (∃ fn ∈ env.funcs, Table.brkLab.size < fn.body.depth ∨ Table.labOff.size < labelsAsked env fn ∨
    Table.bfx.size < branchCount env fn) ∨
  Table.cfx.size < (env.funcs.map (callCount env)).sum

/-- Every function that is reached, with `k` words before it, keeps to the loop stacks. -/
def NestingFits (cap : ℤ) : ℕ → List Func → Prop
  | _, [] => True
  | k, fn :: fns => Shallow env fn ∧
      (walkErr env fn = none → Room cap (k + wordCount (listing env fn)) →
        NestingFits cap (k + wordCount (listing env fn)) fns)

instance (cap : ℤ) : ∀ (k : ℕ) (fns : List Func), Decidable (NestingFits env cap k fns)
  | _, [] => isTrue trivial
  | k, fn :: fns =>
    have := instDecidableNestingFits cap (k + wordCount (listing env fn)) fns
    inferInstanceAs (Decidable (_ ∧ _))

/-- The functions are without an error, and there is room for their code. -/
def Accepted (cap : ℤ) : ℕ → List Func → Prop
  | _, [] => True
  | k, fn :: fns => walkErr env fn = none ∧ Room cap (k + wordCount (listing env fn)) ∧
      Accepted cap (k + wordCount (listing env fn)) fns

/-- The program does not overfill the two fixup tables. -/
def FixupsFit : Prop :=
  (∀ fn ∈ env.funcs, branchCount env fn ≤ Table.bfx.size) ∧
    (env.funcs.map (callCount env)).sum ≤ Table.cfx.size

instance : Decidable (FixupsFit env) := inferInstanceAs (Decidable (_ ∧ _))

end Demands

section Large

/-- The state of a buffer that reaches to the end of the `int`s: nothing is ever dropped. -/
structure Steady (cap : ℤ) (b : CodeBuf) : Prop where
  cap_eq : b.cap = cap
  oom : b.oom = false
  pos : 4 ∣ b.pos

variable {cap : ℤ} {b : CodeBuf}

theorem Steady.emit (h : Steady cap b) (hcap : 2 ^ 31 - 4 ≤ cap) (w : BitVec 32) :
    Steady cap (b.emit w) := by
  obtain ⟨hcap', hoom, hpos⟩ := h
  have hround : 4 ∣ toInt32 (b.pos + 4) ∧ toInt32 (b.pos + 4) < 2 ^ 31 := by
    simp only [toInt32, Int.bmod]
    split <;> omega
  rw [CodeBuf.emit, if_neg (by omega)]
  exact ⟨hcap', hoom, hround.1⟩

theorem Steady.emits (h : Steady cap b) (hcap : 2 ^ 31 - 4 ≤ cap) (ws : List (BitVec 32)) :
    Steady cap (b.emits ws) := by
  induction ws generalizing b with
  | nil => exact h
  | cons w ws ih => exact ih (h.emit hcap w)

theorem Steady.run (h : Steady cap b) (hcap : 2 ^ 31 - 4 ≤ cap) {ls : List Line}
    (hr : b.overrun = none) (hl : ∀ l ∈ ls, l.InTable) : Steady cap (b.run ls) := by
  induction ls generalizing b with
  | nil => exact h
  | cons l ls ih =>
    rw [List.forall_mem_cons] at hl
    have hs := mark_same b hl.1
    have hmark : Steady cap (b.mark l) :=
      ⟨hs.cap.trans h.cap_eq, hs.oom.trans h.oom, hs.pos ▸ h.pos⟩
    rw [run_cons hr]
    exact ih (hmark.emits hcap l.words) ((step_overrun hr).mpr hl.1) hl.2

theorem Steady.of_patched {ps : List ℤ} {b' : CodeBuf} (h : Steady cap b) (hp : Patched ps b b') :
    Steady cap b' :=
  ⟨hp.cap.trans h.cap_eq, hp.oom.trans h.oom, hp.pos ▸ h.pos⟩

end Large

section Functions

variable {env : GenEnv} {cap : ℤ} {k : ℕ} {b : CodeBuf} {fn : Func}

/-- A function can be begun behind `k` words. -/
structure Ready (cap : ℤ) (k : ℕ) (b : CodeBuf) : Prop where
  running : b.overrun = none
  filled : cap < 2 ^ 31 - 4 → Filled cap k 0 b ∧ CallsIn b
  steady : 2 ^ 31 - 4 ≤ cap → Steady cap b

/-- A function that keeps to the tables is carried out, and dropped words are counted. -/
theorem Ready.genFunc (h : Ready cap k b) (hl : Shallow env fn) :
    ((b.genFunc env fn).oom = false ↔ Room cap (k + wordCount (listing env fn))) ∧
      ((b.genFunc env fn).oom = false →
        Ready cap (k + wordCount (listing env fn)) (b.genFunc env fn)) := by
  have hl' := (shallow_iff env fn).mp hl
  have hrun := (genFunc_overrun h.running).mpr hl'
  rcases lt_or_ge cap (2 ^ 31 - 4) with hcap | hcap
  · obtain ⟨hfill, hcalls⟩ := h.filled hcap
    obtain ⟨hfill', hcalls'⟩ := genFunc_filled hfill hcalls hl' (Or.inl hcap)
    refine ⟨(hfill'.oom_iff (wordCount_listing_pos env fn)).trans ?_, fun hoom => ?_⟩
    · exact ⟨Or.inl, fun hroom => hroom.resolve_right (not_le.mpr hcap)⟩
    · exact ⟨hrun, fun _ => ⟨hfill'.next hoom, hcalls'⟩, fun hlarge => absurd hlarge (by omega)⟩
  · have hbegin : Steady cap b.begin := ⟨(h.steady hcap).cap_eq, (h.steady hcap).oom,
      (h.steady hcap).pos⟩
    have hsteady : Steady cap (b.genFunc env fn) :=
      (hbegin.run hcap h.running hl').of_patched (genFunc_patched h.running hl')
    refine ⟨iff_of_true hsteady.oom (Or.inr hcap), fun _ => ?_⟩
    exact ⟨hrun, fun hsmall => absurd hsmall (by omega), fun _ => hsteady⟩

theorem ready_start (env : GenEnv) (cap : ℤ) : Ready cap 0 (.start env cap) where
  running := rfl
  filled := fun _ => ⟨filled_start env cap, callsIn_start env cap⟩
  steady := fun _ => ⟨rfl, rfl, dvd_zero _⟩

/-- The loop over the functions keeps to the tables exactly when their nesting fits, and then
it ends without an error exactly when all functions are accepted. -/
theorem genLoop_tables (fns : List Func) (offs : List ℤ) (h : Ready cap k b) :
    ((genLoop env fns b offs).buf.overrun = none ↔ NestingFits env cap k fns) ∧
      (NestingFits env cap k fns →
        ((genLoop env fns b offs).err = none ↔ Accepted env cap k fns)) := by
  induction fns generalizing k b offs with
  | nil => exact ⟨iff_of_true h.running trivial, fun _ => iff_of_true rfl trivial⟩
  | cons fn fns ih =>
    rw [NestingFits, Accepted]
    by_cases hl : Shallow env fn
    · obtain ⟨hroom, hnext⟩ := h.genFunc hl
      have hrun := (genFunc_overrun h.running).mpr ((shallow_iff env fn).mp hl)
      rcases genLoop_cases env fn fns b offs with
        ⟨hover, -⟩ | ⟨-, hfail, heq⟩ | ⟨-, herr, hoom, heq⟩ | ⟨-, herr, hoom, heq⟩
      · exact absurd hrun (Option.isSome_iff_ne_none.mp hover)
      · have hfail' := Option.isSome_iff_ne_none.mp hfail
        rw [heq]
        exact ⟨iff_of_true hrun ⟨hl, fun hnone => absurd hnone hfail'⟩,
          fun _ => iff_of_false hfail' fun hacc => hfail' hacc.1⟩
      · have hfull : ¬ Room cap (k + wordCount (listing env fn)) := by
          rw [← hroom, hoom]
          exact Bool.true_eq_false.mp
        rw [heq]
        exact ⟨iff_of_true hrun ⟨hl, fun _ hr => absurd hr hfull⟩,
          fun _ => iff_of_false (Option.some_ne_none _) fun hacc => hfull hacc.2.1⟩
      · obtain ⟨hnest, hacc⟩ := ih (offs ++ [b.pos]) (hnext hoom)
        have hr := hroom.mp hoom
        rw [heq]
        refine ⟨hnest.trans ⟨fun hfit => ⟨hl, fun _ _ => hfit⟩, fun hfit => hfit.2 herr hr⟩, ?_⟩
        intro hfit
        rw [hacc (hfit.2 herr hr)]
        exact ⟨fun hrest => ⟨herr, hr, hrest⟩, fun hall => hall.2.2⟩
    · have hover : ¬ (b.genFunc env fn).overrun = none :=
        (genFunc_overrun h.running).not.mpr ((shallow_iff env fn).not.mp hl)
      rcases genLoop_cases env fn fns b offs with ⟨-, heq⟩ | ⟨hrun, -⟩ | ⟨hrun, -⟩ | ⟨hrun, -⟩
      · rw [heq]
        exact ⟨iff_of_false hover fun hfit => hl hfit.1, fun hfit => absurd hfit.1 hl⟩
      · exact absurd hrun hover
      · exact absurd hrun hover
      · exact absurd hrun hover

/-- In an accepted program every function is reached. -/
theorem NestingFits.all {fns : List Func} (h : NestingFits env cap k fns)
    (hacc : Accepted env cap k fns) : ∀ fn ∈ fns, Shallow env fn ∧ walkErr env fn = none := by
  induction fns generalizing k with
  | nil => simp
  | cons fn fns ih =>
    rw [List.forall_mem_cons]
    exact ⟨⟨h.1, hacc.1⟩, ih (h.2 hacc.1 hacc.2.1) hacc.2.2⟩

/-- What an accepted program can exceed are the fixup tables. -/
theorem exceeds_iff (h : NestingFits env cap 0 env.funcs) (hacc : Accepted env cap 0 env.funcs) :
    Exceeds env ↔ ¬ FixupsFit env := by
  have hall := h.all hacc
  rw [FixupsFit, not_and_or, not_le]
  refine or_congr_left ?_
  push Not
  refine exists_congr fun fn => and_congr_right fun hfn => ?_
  obtain ⟨hl, herr⟩ := hall fn hfn
  constructor
  · rintro (hdeep | hlab | hbr)
    · exact absurd (hl.depth_le env herr) (not_le.mpr hdeep)
    · exact absurd herr (Option.isSome_iff_ne_none.mp (walkErr_of_labelsAsked env hlab))
    · exact hbr
  · exact fun hbr => Or.inr (Or.inr hbr)

/-- `cc_codegen` keeps to its tables exactly when no function that is reached is too deep. -/
theorem ccCodegen_overrun (env : GenEnv) (cap : ℤ) :
    (ccCodegen env cap).buf.overrun = none ↔ NestingFits env cap 0 env.funcs := by
  rw [← (genLoop_tables env.funcs [] (ready_start env cap)).1]
  rcases ccCodegen_cases env cap with ⟨-, heq⟩ | ⟨-, -, heq⟩ | ⟨-, -, hbuf, -⟩
  · rw [heq]
  · rw [heq]
  · obtain ⟨ps, hps, -⟩ := patchCalls_patched env
      (genLoop env env.funcs (.start env cap) []).codeOff
      (genLoop env env.funcs (.start env cap) []).buf.cfx
      (genLoop env env.funcs (.start env cap) []).buf
    rw [hbuf, hps.overrun]

/-- For every program and every capacity, `cc_codegen` keeps to its tables, and refuses a
program that needs more, exactly when no function that is reached nests deeper than the loop
stacks, and the fixup tables suffice unless the program is refused for another reason. -/
theorem tables_hold_iff (env : GenEnv) (cap : ℤ) :
    ((ccCodegen env cap).buf.overrun = none ∧
        (Exceeds env → (ccCodegen env cap).err.isSome ∧ (ccCodegen env cap).ret = some (-1))) ↔
      NestingFits env cap 0 env.funcs ∧
        (Accepted env cap 0 env.funcs → (env.findFunc "main").isSome → FixupsFit env) := by
  obtain ⟨hnest, hacc⟩ := genLoop_tables env.funcs [] (ready_start env cap)
  rcases ccCodegen_cases env cap with ⟨hover, heq⟩ | ⟨hrun, herr, heq⟩ | ⟨hrun, herr, hbuf, hmain⟩
  · rw [heq]
    have hover' := Option.isSome_iff_ne_none.mp hover
    exact iff_of_false (fun h => hover' h.1) fun h => hover' (hnest.mpr h.1)
  · have hfit := hnest.mp hrun
    rw [heq]
    refine iff_of_true ⟨hrun, fun _ => ⟨herr, rfl⟩⟩ ⟨hfit, fun h => ?_⟩
    exact absurd ((hacc hfit).mpr h) (Option.isSome_iff_ne_none.mp herr)
  · have hfit := hnest.mp hrun
    have hall := (hacc hfit).mp herr
    obtain ⟨ps, hps, -⟩ := patchCalls_patched env
      (genLoop env env.funcs (.start env cap) []).codeOff
      (genLoop env env.funcs (.start env cap) []).buf.cfx
      (genLoop env env.funcs (.start env cap) []).buf
    rw [hbuf, hps.overrun, and_iff_right hrun, and_iff_right hfit]
    rcases hmain with ⟨hno, herr', hret⟩ | ⟨hyes, hnone⟩
    · exact iff_of_true (fun _ => ⟨herr', hret⟩) fun _ hsome => by simp [hno] at hsome
    · rw [exceeds_iff hfit hall, hnone]
      constructor
      · intro h _ _
        by_contra hbad
        simpa using (h hbad).1
      · exact fun h hbad => absurd (h hall hyes) hbad

/-- `while (1) while (1) ... { }` -/
def nestedLoops : ℕ → Stmt
  | 0 => .block .nil
  | n + 1 => .loopWhile (.num 1) (nestedLoops n)

/-- `int main() { while (1) while (1) ... { } }` -/
def nestedProgram (n : ℕ) : GenEnv :=
  loneProgram { returnZero with body := .block (.cons (nestedLoops n) .nil) }

/-- The label of the 65th of some nested loops is stored behind `brk_lab`. -/
theorem loop_stack_overrun : (ccCodegen (nestedProgram 65) 262144).buf.overrun ≠ none := by
  decide +kernel

end Functions

end XinuRpi4.Compiler
