import XinuRpi4.Basic.Evaluator
import XinuRpi4.Foundation.CallProgram

/-!
# What an expression changes

An expression moves the cursor, sets the error, makes variables, dimensions arrays
and draws random numbers, and it does nothing else. So every level of the grammar
keeps a relation on states if these updates do. One that makes no variable,
dimensions no array and draws no random number leaves everything but the cursor and
the error as it was.
-/

namespace XinuRpi4.Basic

open XinuRpi4.Foundation

variable {ν α β : Type}

/-- A relation that holds across everything an expression does to the state. -/
class Observes (R : Interp ν → Interp ν → Prop) : Prop where
  refl : ∀ s, R s s
  trans : ∀ s t u, R s t → R t u → R s u
  cursor : ∀ s c e, R s { s with ip := c, err := e }
  addVar : ∀ N s name, R s (s.addVar N name)
  draw : ∀ s x, R s { s with seed := x, effects := s.effects + 1 }
  autoDim : ∀ (s : Interp ν) li cells, (s.varr li).ndim = 0 → s.arrtop + 11 ≤ arrPool →
    (∀ i < s.arrtop, cells i = s.arrpool i) → R s { s with
      varr := Function.update s.varr li { base := s.arrtop, d1 := 11, d2 := 1, ndim := 1 }
      effects := s.effects + 1, arrpool := cells, arrtop := s.arrtop + 11 }

/-- Nothing but the cursor and the error changes without an effect. -/
def Quiet (s s' : Interp ν) : Prop :=
  s.effects ≤ s'.effects ∧ (s'.effects = s.effects → { s' with ip := s.ip, err := s.err } = s)

theorem Quiet.refl (s : Interp ν) : Quiet s s := ⟨le_rfl, fun _ => rfl⟩

theorem Quiet.trans (s t u : Interp ν) (hst : Quiet s t) (htu : Quiet t u) : Quiet s u := by
  refine ⟨hst.1.trans htu.1, fun h => ?_⟩
  have ht : t.effects = s.effects := le_antisymm (h ▸ htu.1) hst.1
  have hu := htu.2 (h.trans ht.symm)
  calc { u with ip := s.ip, err := s.err }
      = { { u with ip := t.ip, err := t.err } with ip := s.ip, err := s.err } := rfl
    _ = { t with ip := s.ip, err := s.err } := by rw [hu]
    _ = s := hst.2 ht

theorem Quiet.of_lt {s s' : Interp ν} (h : s.effects < s'.effects) : Quiet s s' :=
  ⟨h.le, fun heq => absurd heq h.ne'⟩

instance : Observes (Quiet : Interp ν → Interp ν → Prop) where
  refl := Quiet.refl
  trans := Quiet.trans
  cursor _ _ _ := ⟨le_rfl, fun _ => rfl⟩
  addVar _ _ _ := .of_lt (Nat.lt_succ_self _)
  draw _ _ := .of_lt (Nat.lt_succ_self _)
  autoDim _ _ _ _ _ _ := .of_lt (Nat.lt_succ_self _)

variable {R : Interp ν → Interp ν → Prop}

abbrev Inspects (R : Interp ν → Interp ν → Prop) (m : BasicM ν α) : Prop := Keeps R m

variable [Observes R]

namespace Inspects

theorem pure (a : α) : Inspects R (Pure.pure a : BasicM ν α) := Keeps.pure Observes.refl a

theorem bind {m : BasicM ν α} {f : α → BasicM ν β} (hm : Inspects R m)
    (hf : ∀ a, Inspects R (f a)) : Inspects R (m >>= f) := Keeps.bind Observes.trans hm hf

theorem get : Inspects R (MonadState.get : BasicM ν (Interp ν)) := Keeps.get Observes.refl

omit [Observes R] in
theorem failure : Inspects R (failure : BasicM ν α) := Keeps.failure

omit [Observes R] in
theorem cond {p : Prop} [Decidable p] {m m' : BasicM ν α} (hm : Inspects R m)
    (hm' : Inspects R m') : Inspects R (if p then m else m') := Keeps.ite hm hm'

/-- An update of the cursor and the error. -/
theorem modify {f : Interp ν → Interp ν}
    (hf : ∀ s, f s = { s with ip := (f s).ip, err := (f s).err }) :
    Inspects R (modify f : BasicM ν PUnit) := by
  refine Keeps.modify fun s => ?_
  rw [hf s]
  exact Observes.cursor s _ _

end Inspects

theorem berr_inspects (m : String) : Inspects R (berr m : BasicM ν Unit) :=
  .modify fun _ => rfl

theorem setIp_inspects (c : Cursor) : Inspects R (setIp c : BasicM ν Unit) :=
  .modify fun _ => rfl

theorem setRest_inspects (t : Text) : Inspects R (setRest t : BasicM ν Unit) :=
  .modify fun _ => rfl

theorem advance_inspects : Inspects R (advance : BasicM ν Unit) :=
  .modify fun _ => rfl

theorem skipsp_inspects : Inspects R (skipsp : BasicM ν Unit) :=
  .modify fun _ => rfl

theorem rest_inspects : Inspects R (rest : BasicM ν Text) := Inspects.get.bind fun _ => .pure _

theorem peek_inspects : Inspects R (peek : BasicM ν UInt8) := Inspects.get.bind fun _ => .pure _

theorem loopFuel_inspects : Inspects R (loopFuel : BasicM ν ℕ) :=
  rest_inspects.bind fun _ => .pure _

theorem kw_inspects (k : String) : Inspects R (kw k : BasicM ν Bool) := by
  refine skipsp_inspects.bind fun _ => rest_inspects.bind fun t => ?_
  split
  · exact .pure _
  · exact (setRest_inspects _).bind fun _ => .pure _

theorem varName_inspects : Inspects R (varName : BasicM ν Text) :=
  skipsp_inspects.bind fun _ => rest_inspects.bind fun _ =>
    (setRest_inspects _).bind fun _ => .pure _

theorem expect_inspects (c : Char) (m : String) : Inspects R (expect c m : BasicM ν Unit) :=
  peek_inspects.bind fun _ => .cond advance_inspects (berr_inspects m)

theorem openParen_inspects : Inspects R (openParen : BasicM ν Bool) :=
  skipsp_inspects.bind fun _ => peek_inspects.bind fun _ =>
    .cond (advance_inspects.bind fun _ => .pure _) (.pure _)

theorem closeParen_inspects (par : Bool) : Inspects R (closeParen par : BasicM ν Unit) :=
  skipsp_inspects.bind fun _ => .cond (expect_inspects _ _) (.pure _)

theorem relop_inspects : Inspects R (relop : BasicM ν (Option Relop)) := by
  refine rest_inspects.bind fun t => ?_
  split
  · exact .pure _
  · exact (setRest_inspects _).bind fun _ => .pure _

theorem peekIsString_inspects : Inspects R (peekIsString : BasicM ν Bool) :=
  skipsp_inspects.bind fun _ => rest_inspects.bind fun _ => .pure _

theorem colour_inspects (ks : List (String × ℕ)) :
    Inspects R (colour ks : BasicM ν (Option ℕ)) := by
  induction ks with
  | nil => exact .pure _
  | cons k ks ih => exact (kw_inspects _).bind fun _ => .cond (.pure _) ih

theorem loadCell_inspects (i : ℤ) : Inspects R (loadCell i : BasicM ν ν) :=
  Inspects.get.bind fun _ => .cond (.pure _) .failure

section Evaluator

variable (N : NumOps ν)

theorem varSlot_inspects (name : Text) : Inspects R (varSlot N name) := by
  refine Inspects.get.bind fun s => ?_
  split
  · exact .pure _
  · refine .cond ((berr_inspects _).bind fun _ => .pure _) ?_
    exact Inspects.bind (Keeps.modify fun s => Observes.addVar N s name) fun _ => .pure _

theorem svaridx_inspects : Inspects R (svaridx N) :=
  Inspects.get.bind fun _ => varName_inspects.bind fun _ =>
    .cond ((setIp_inspects _).bind fun _ => .pure _) (varSlot_inspects N _)

theorem rnd_inspects (n : ν) : Inspects R (rnd N n) :=
  Inspects.get.bind fun s => Inspects.bind
    (Keeps.modify fun t => Observes.draw t (s.seed * 1103515245 + 12345)) fun _ => .pure _

omit [Observes R] in
theorem clearCells_run {n : ℤ} {s s' : Interp ν} {a : Unit}
    (h : (clearCells N n).run s = some (a, s')) :
    ∃ cells : ℤ → ν, (∀ i < s.arrtop, cells i = s.arrpool i) ∧
      s' = { s with arrpool := cells, arrtop := s.arrtop + n } := by
  rw [clearCells] at h
  obtain ⟨_, _, hget, h⟩ := bind_run_iff.mp h
  obtain ⟨rfl, rfl⟩ := Prod.mk.inj (Option.some.inj hget)
  split_ifs at h
  · obtain ⟨-, rfl⟩ := Prod.mk.inj (Option.some.inj h)
    exact ⟨_, fun i hi => if_neg fun hin => absurd hin.1 (not_le.mpr hi), rfl⟩
  · cases h

theorem autoDim_inspects (li : ℕ) : Inspects R (autoDim N li) := by
  intro s b s' h
  rw [autoDim] at h
  obtain ⟨_, _, hget, h⟩ := bind_run_iff.mp h
  obtain ⟨rfl, rfl⟩ := Prod.mk.inj (Option.some.inj hget)
  split_ifs at h with hdim hfull
  · obtain ⟨-, rfl⟩ := Prod.mk.inj (Option.some.inj h)
    exact Observes.refl _
  · exact ((berr_inspects _).bind fun _ => .pure _) _ _ _ h
  · obtain ⟨_, _, hmodify, h⟩ := bind_run_iff.mp h
    obtain ⟨-, rfl⟩ := Prod.mk.inj (Option.some.inj hmodify)
    obtain ⟨_, _, hclear, h⟩ := bind_run_iff.mp h
    obtain ⟨-, rfl⟩ := Prod.mk.inj (Option.some.inj h)
    obtain ⟨cells, hcells, rfl⟩ := clearCells_run N hclear
    exact Observes.autoDim _ li cells (not_not.mp hdim) (not_lt.mp hfull) hcells

variable {E : Evals ν}

structure Evals.Inspect (E : Evals ν) (R : Interp ν → Interp ν → Prop) : Prop where
  factor : Inspects R E.factor
  expr : Inspects R E.expr
  seval : ∀ max, Inspects R (E.seval none max)

variable (hE : E.Inspect R)
include hE

theorem parenSexpr_inspects (max : ℕ) : Inspects R (parenSexpr E max) :=
  openParen_inspects.bind fun _ => (hE.seval max).bind fun _ =>
    (closeParen_inspects _).bind fun _ => .pure _

theorem parenNum_inspects : Inspects R (parenNum E) :=
  openParen_inspects.bind fun _ => hE.expr.bind fun _ =>
    (closeParen_inspects _).bind fun _ => .pure _

theorem subscripts_inspects (li : ℕ) : Inspects R (subscripts N E li) := by
  refine hE.expr.bind fun i => skipsp_inspects.bind fun _ => Inspects.bind ?second fun i2 => ?rest
  case second =>
    exact peek_inspects.bind fun _ => .cond (advance_inspects.bind fun _ =>
      hE.expr.bind fun _ => skipsp_inspects.bind fun _ => .pure _) (.pure _)
  case rest =>
    refine peek_inspects.bind fun _ => .cond ?_ ((berr_inspects _).bind fun _ => .pure _)
    exact advance_inspects.bind fun _ => Inspects.get.bind fun _ =>
      .cond ((berr_inspects _).bind fun _ => .pure _) (.pure _)

theorem arrElem_inspects (li : Option ℕ) : Inspects R (arrElem N E li) := by
  cases li with
  | none => exact .pure _
  | some li =>
    refine (autoDim_inspects N li).bind fun _ => .cond ?_ (.pure _)
    exact peek_inspects.bind fun _ => .cond
      (advance_inspects.bind fun _ => subscripts_inspects N hE li)
      ((berr_inspects _).bind fun _ => .pure _)

theorem variableFactor_inspects : Inspects R (variableFactor N E) := by
  refine Inspects.get.bind fun _ => varName_inspects.bind fun name => .cond ?_ ?_
  · exact (setIp_inspects _).bind fun _ => (berr_inspects _).bind fun _ => .pure _
  · refine (varSlot_inspects N name).bind fun vi => skipsp_inspects.bind fun _ =>
      peek_inspects.bind fun _ => .cond ((arrElem_inspects N hE vi).bind fun e => ?_) ?_
    · cases e with
      | none => exact .pure _
      | some i => exact loadCell_inspects i
    · cases vi with
      | none => exact .pure _
      | some i => exact Inspects.get.bind fun _ => .pure _

theorem nameFactor_inspects : Inspects R (nameFactor N E) := by
  refine (colour_inspects _).bind fun c => ?_
  cases c with
  | some n => exact .pure _
  | none =>
    refine (kw_inspects _).bind fun _ => .cond ?btn <| (kw_inspects _).bind fun _ =>
      .cond ?len <| (kw_inspects _).bind fun _ => .cond ?asc <| (kw_inspects _).bind fun _ =>
      .cond ?val <| variableFactor_inspects N hE
    case btn => exact (parenNum_inspects hE).bind fun _ => .pure _
    all_goals exact (parenSexpr_inspects hE _).bind fun _ => .pure _

theorem functionFactor_inspects : Inspects R (functionFactor N E) := by
  refine (kw_inspects _).bind fun _ => .cond ?abs <| (kw_inspects _).bind fun _ =>
    .cond ?int <| (kw_inspects _).bind fun _ => .cond ?sgn <| (kw_inspects _).bind fun _ =>
    .cond ?sqr <| (kw_inspects _).bind fun _ => .cond ?sin <| (kw_inspects _).bind fun _ =>
    .cond ?cos <| (kw_inspects _).bind fun _ => .cond ?rnd <| nameFactor_inspects N hE
  case rnd => exact hE.factor.bind fun n => rnd_inspects N n
  case sin => exact hE.factor.bind fun _ => Keeps.lift Observes.refl _
  case cos => exact hE.factor.bind fun _ => Keeps.lift Observes.refl _
  all_goals exact hE.factor.bind fun _ => .pure _

theorem factor_inspects : Inspects R (factor N E) := by
  refine skipsp_inspects.bind fun _ => peek_inspects.bind fun _ => .cond ?paren <|
    .cond ?neg <| .cond ?pos <| .cond ?num <| functionFactor_inspects N hE
  case paren =>
    exact advance_inspects.bind fun _ => hE.expr.bind fun _ => skipsp_inspects.bind fun _ =>
      (expect_inspects _ _).bind fun _ => .pure _
  case neg => exact advance_inspects.bind fun _ => hE.factor.bind fun _ => .pure _
  case pos => exact advance_inspects.bind fun _ => hE.factor
  case num => exact rest_inspects.bind fun _ => (setRest_inspects _).bind fun _ => .pure _

theorem powerLoop_inspects (fuel : ℕ) (v : ν) : Inspects R (powerLoop N E fuel v) := by
  induction fuel generalizing v with
  | zero => exact .failure
  | succ fuel ih =>
    refine peek_inspects.bind fun _ => .cond ?_ (.pure _)
    exact advance_inspects.bind fun _ => (factor_inspects N hE).bind fun _ =>
      skipsp_inspects.bind fun _ => ih _

theorem power_inspects : Inspects R (power N E) :=
  (factor_inspects N hE).bind fun _ => skipsp_inspects.bind fun _ =>
    loopFuel_inspects.bind fun _ => powerLoop_inspects N hE _ _

omit hE in
theorem divOf_inspects (v r : ν) : Inspects R (divOf N v r) :=
  .cond ((berr_inspects _).bind fun _ => .pure _) (.pure _)

omit hE in
theorem modOf_inspects (v r : ν) : Inspects R (modOf N v r) :=
  .cond ((berr_inspects _).bind fun _ => .pure _) (.pure _)

theorem termLoop_inspects (fuel : ℕ) (v : ν) : Inspects R (termLoop N E fuel v) := by
  induction fuel generalizing v with
  | zero => exact .failure
  | succ fuel ih =>
    refine peek_inspects.bind fun _ => .cond ?mul <| .cond ?div <|
      (kw_inspects _).bind fun _ => .cond ?mod (.pure _)
    case mul =>
      exact advance_inspects.bind fun _ => (power_inspects N hE).bind fun _ =>
        skipsp_inspects.bind fun _ => ih _
    case div =>
      exact advance_inspects.bind fun _ => (power_inspects N hE).bind fun _ =>
        (divOf_inspects N _ _).bind fun _ => skipsp_inspects.bind fun _ => ih _
    case mod =>
      exact (power_inspects N hE).bind fun _ => (modOf_inspects N _ _).bind fun _ =>
        skipsp_inspects.bind fun _ => ih _

theorem term_inspects : Inspects R (term N E) :=
  (power_inspects N hE).bind fun _ => skipsp_inspects.bind fun _ =>
    loopFuel_inspects.bind fun _ => termLoop_inspects N hE _ _

theorem addsubLoop_inspects (fuel : ℕ) (v : ν) : Inspects R (addsubLoop N E fuel v) := by
  induction fuel generalizing v with
  | zero => exact .failure
  | succ fuel ih =>
    refine peek_inspects.bind fun _ => .cond ?_ (.pure _)
    exact advance_inspects.bind fun _ => (term_inspects N hE).bind fun _ =>
      skipsp_inspects.bind fun _ => ih _

theorem addsub_inspects : Inspects R (addsub N E) :=
  (term_inspects N hE).bind fun _ => skipsp_inspects.bind fun _ =>
    loopFuel_inspects.bind fun _ => addsubLoop_inspects N hE _ _

theorem relexpr_inspects : Inspects R (relexpr N E) := by
  refine peekIsString_inspects.bind fun _ => .cond ?text ?num
  case text =>
    refine (hE.seval _).bind fun _ => skipsp_inspects.bind fun _ => relop_inspects.bind fun op => ?_
    cases op with
    | none => exact (berr_inspects _).bind fun _ => .pure _
    | some op => exact (hE.seval _).bind fun _ => .pure _
  case num =>
    refine (addsub_inspects N hE).bind fun _ => skipsp_inspects.bind fun _ =>
      relop_inspects.bind fun op => ?_
    cases op with
    | none => exact .pure _
    | some op => exact (addsub_inspects N hE).bind fun _ => .pure _

theorem exprLoop_inspects (fuel : ℕ) (v : ν) : Inspects R (exprLoop N E fuel v) := by
  induction fuel generalizing v with
  | zero => exact .failure
  | succ fuel ih =>
    have hturn : ∀ f : ν → ν, Inspects R (do let r ← relexpr N E; skipsp; exprLoop N E fuel (f r)) :=
      fun f => (relexpr_inspects N hE).bind fun _ => skipsp_inspects.bind fun _ => ih _
    exact (kw_inspects _).bind fun _ => .cond (hturn _) <|
      (kw_inspects _).bind fun _ => .cond (hturn _) (.pure _)

theorem exprAt_inspects : Inspects R (exprAt N E) :=
  (relexpr_inspects N hE).bind fun _ => skipsp_inspects.bind fun _ =>
    loopFuel_inspects.bind fun _ => exprLoop_inspects N hE _ _

omit hE in
theorem finish_inspects (max : ℕ) (t : Text) :
    Inspects R (finish none max t : BasicM ν Text) := Inspects.bind (.pure _) fun _ => .pure _

theorem midString_inspects (max : ℕ) : Inspects R (midString N E none max) := by
  refine skipsp_inspects.bind fun _ => (expect_inspects _ _).bind fun _ =>
    (hE.seval _).bind fun s => skipsp_inspects.bind fun _ => (expect_inspects _ _).bind fun _ =>
    hE.expr.bind fun _ => skipsp_inspects.bind fun _ => Inspects.bind ?len fun _ =>
    (expect_inspects _ _).bind fun _ => finish_inspects _ _
  exact peek_inspects.bind fun _ => .cond (advance_inspects.bind fun _ =>
    hE.expr.bind fun _ => skipsp_inspects.bind fun _ => .pure _) (.pure _)

theorem leftString_inspects (max : ℕ) : Inspects R (leftString N E none max) :=
  skipsp_inspects.bind fun _ => (expect_inspects _ _).bind fun _ => (hE.seval _).bind fun _ =>
    skipsp_inspects.bind fun _ => (expect_inspects _ _).bind fun _ => hE.expr.bind fun _ =>
    skipsp_inspects.bind fun _ => (expect_inspects _ _).bind fun _ => finish_inspects _ _

theorem rightString_inspects (max : ℕ) : Inspects R (rightString N E none max) :=
  skipsp_inspects.bind fun _ => (expect_inspects _ _).bind fun _ => (hE.seval _).bind fun _ =>
    skipsp_inspects.bind fun _ => (expect_inspects _ _).bind fun _ => hE.expr.bind fun _ =>
    skipsp_inspects.bind fun _ => (expect_inspects _ _).bind fun _ => finish_inspects _ _

omit hE in
theorem stringVar_inspects (max : ℕ) : Inspects R (stringVar N none max) := by
  refine Inspects.get.bind fun _ => (svaridx_inspects N).bind fun si => ?_
  cases si with
  | some si => exact Inspects.get.bind fun _ => finish_inspects _ _
  | none =>
    exact (setIp_inspects _).bind fun _ => (berr_inspects _).bind fun _ => finish_inspects _ _

omit hE in
theorem literal_inspects (max : ℕ) : Inspects R (literal none max : BasicM ν Text) :=
  advance_inspects.bind fun _ => rest_inspects.bind fun _ => (setRest_inspects _).bind fun _ =>
    Inspects.bind (.pure _) fun _ => .pure _

theorem sfactor_inspects (max : ℕ) : Inspects R (sfactor N E none max) := by
  refine skipsp_inspects.bind fun _ => Inspects.bind (.pure _) fun _ => peek_inspects.bind fun _ =>
    .cond (literal_inspects max) <| .cond ?paren <|
    (kw_inspects _).bind fun _ => .cond (midString_inspects N hE max) <|
    (kw_inspects _).bind fun _ => .cond (leftString_inspects N hE max) <|
    (kw_inspects _).bind fun _ => .cond (rightString_inspects N hE max) <|
    (kw_inspects _).bind fun _ => .cond ?chr <|
    (kw_inspects _).bind fun _ => .cond ?str (stringVar_inspects N max)
  case paren =>
    exact advance_inspects.bind fun _ => (hE.seval _).bind fun _ => skipsp_inspects.bind fun _ =>
      (expect_inspects _ _).bind fun _ => .pure _
  all_goals
    exact (parenNum_inspects hE).bind fun _ => Inspects.bind (.pure _) fun _ => .pure _

theorem sevalLoop_inspects (max fuel : ℕ) (t : Text) :
    Inspects R (sevalLoop N E none max fuel t) := by
  induction fuel generalizing t with
  | zero => exact .failure
  | succ fuel ih =>
    refine peek_inspects.bind fun _ => .cond ?_ (.pure _)
    exact advance_inspects.bind fun _ => (sfactor_inspects N hE _).bind fun _ =>
      Inspects.bind (.pure _) fun _ => skipsp_inspects.bind fun _ => ih _

theorem sevalAt_inspects (max : ℕ) : Inspects R (sevalAt N E none max) :=
  (sfactor_inspects N hE max).bind fun _ => skipsp_inspects.bind fun _ =>
    loopFuel_inspects.bind fun _ => sevalLoop_inspects N hE _ _ _

end Evaluator

/-- By induction on the depth. -/
theorem evals_inspect (N : NumOps ν) (depth : ℕ) : (evals N depth).Inspect R := by
  induction depth with
  | zero => exact ⟨.failure, .failure, fun _ => .failure⟩
  | succ depth ih =>
    exact ⟨factor_inspects N ih, exprAt_inspects N ih, sevalAt_inspects N ih⟩

theorem expr_inspects (N : NumOps ν) : Inspects R (expr N) :=
  loopFuel_inspects.bind fun n => (evals_inspect N n).expr

theorem seval_inspects (N : NumOps ν) (max : ℕ) : Inspects R (seval N none max) :=
  loopFuel_inspects.bind fun n => (evals_inspect N n).seval max

end XinuRpi4.Basic
