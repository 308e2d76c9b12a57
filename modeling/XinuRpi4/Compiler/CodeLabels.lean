import XinuRpi4.Compiler.CodeBuffer

/-!
# Every branch of a listing goes to a label of the table

`newlabel` never hands out a label outside `lab_off`, and the walk takes all its labels
from there: from the stacks of loop labels, or from a case node.
-/

namespace XinuRpi4.Compiler

/-- The label of a branch is one of the table. -/
def Line.LabelIn : Line → Prop
  | .branch _ lab _ => lab < Table.labOff.size
  | _ => True

/-- All labels that the walk holds are of the table. -/
structure WalkState.LabelsIn (s : WalkState) : Prop where
  brk : ∀ l ∈ s.brk, l < Table.labOff.size
  cont : ∀ l ∈ s.cont, l < Table.labOff.size
  clabel : ∀ id, s.clabel id < Table.labOff.size
  asked : s.err = none → s.asked = s.nlab ∧ s.nlab ≤ Table.labOff.size

namespace Walk

variable {α β : Type}

/-- A part of the walk that keeps to the labels of the table, and what it answers. -/
def Labelled (p : Walk α) (R : α → Prop) : Prop :=
  ∀ s : WalkState, s.LabelsIn → R (p s).1 ∧ (p s).2.1.LabelsIn ∧ ∀ l ∈ (p s).2.2, l.LabelIn

theorem Labelled.bind {p : Walk α} {R : α → Prop} {f : α → Walk β} {S : β → Prop}
    (hp : p.Labelled R) (hf : ∀ a, R a → (f a).Labelled S) : (p >>= f).Labelled S := by
  intro s hs
  obtain ⟨hR, hs₁, hls⟩ := hp s hs
  obtain ⟨hS, hs₂, hls'⟩ := hf _ hR _ hs₁
  exact ⟨hS, hs₂, fun l hl => (List.mem_append.mp hl).elim (hls l) (hls' l)⟩

theorem Labelled.seq {p : Walk Unit} {q : Walk β} {S : β → Prop}
    (hp : p.Labelled fun _ => True) (hq : q.Labelled S) : (do p; q).Labelled S :=
  hp.bind fun _ _ => hq

theorem labelled_pure {a : α} {R : α → Prop} (h : R a) : (Pure.pure a : Walk α).Labelled R :=
  fun _ hs => ⟨h, hs, by simp [Pure.pure, Walk.pure]⟩

theorem labelled_line {l : Line} (h : l.LabelIn) : (Walk.line l).Labelled fun _ => True :=
  fun _ hs => ⟨trivial, hs, by simpa [Walk.line] using h⟩

theorem labelled_modify {f : WalkState → WalkState} (h : ∀ s, s.LabelsIn → (f s).LabelsIn) :
    (Walk.modify f).Labelled fun _ => True :=
  fun s hs => ⟨trivial, h s hs, by simp [Walk.modify]⟩

theorem labelled_get : Walk.get.Labelled fun s => s.LabelsIn :=
  fun _ hs => ⟨hs, hs, by simp [Walk.get]⟩

end Walk

open Walk

/-- The label goes to the table. -/
abbrev LabelOk (l : ℕ) : Prop := l < Table.labOff.size

section Primitives

theorem labelled_emit (w : BitVec 32) : (emit w).Labelled fun _ => True :=
  labelled_line (show (Line.word w).LabelIn from trivial)

theorem labelled_access (t : Table) (i : ℕ) : (Walk.line (.access t i)).Labelled fun _ => True :=
  labelled_line (show (Line.access t i).LabelIn from trivial)

theorem labelled_place (l : ℕ) : (place l).Labelled fun _ => True :=
  labelled_line (show (Line.place l).LabelIn from trivial)

theorem labelled_emitB {l : ℕ} (h : LabelOk l) : (emitB l).Labelled fun _ => True :=
  labelled_line h

theorem labelled_emitCbz {l : ℕ} (h : LabelOk l) : (emitCbz l).Labelled fun _ => True :=
  labelled_line h

theorem labelled_emitCbnz {l : ℕ} (h : LabelOk l) : (emitCbnz l).Labelled fun _ => True :=
  labelled_line h

theorem labelled_emitBcond (cond : BitVec 32) {l : ℕ} (h : LabelOk l) :
    (emitBcond cond l).Labelled fun _ => True :=
  labelled_line h

theorem labelled_walkError (msg : String) : (walkError msg).Labelled fun _ => True :=
  labelled_modify fun s hs => ⟨hs.brk, hs.cont, hs.clabel, fun herr => by
    cases hold : s.err <;> simp [hold] at herr⟩

theorem newlabel_eq (s : WalkState) : newlabel s =
    if Table.labOff.size ≤ s.nlab then
      (0, { s with asked := s.asked + 1, err := s.err.orElse fun _ => some "too many labels" }, [])
    else (s.nlab, { s with asked := s.asked + 1, nlab := s.nlab + 1 }, []) := by
  change (if _ then _ else _ : Walk ℕ) _ = _
  split <;> rfl

theorem labelled_newlabel : newlabel.Labelled LabelOk := by
  intro s hs
  rw [newlabel_eq]
  split
  · refine ⟨show 0 < Table.labOff.size by decide, ⟨hs.brk, hs.cont, hs.clabel, fun herr => ?_⟩, by simp⟩
    cases hold : s.err <;> simp [hold] at herr
  · next hroom =>
    refine ⟨not_le.mp hroom, ⟨hs.brk, hs.cont, hs.clabel, fun herr => ?_⟩, by simp⟩
    obtain ⟨hasked, -⟩ := hs.asked herr
    simp only
    omega

theorem labelled_pushBrk {l : ℕ} (h : LabelOk l) : (pushBrk l).Labelled fun _ => True := by
  refine labelled_get.bind fun _ _ => (labelled_access _ _).seq (labelled_modify fun s hs => ?_)
  exact ⟨List.forall_mem_cons.mpr ⟨h, hs.brk⟩, hs.cont, hs.clabel, hs.asked⟩

theorem labelled_pushCont {l : ℕ} (h : LabelOk l) : (pushCont l).Labelled fun _ => True := by
  refine labelled_get.bind fun _ _ => (labelled_access _ _).seq (labelled_modify fun s hs => ?_)
  exact ⟨hs.brk, List.forall_mem_cons.mpr ⟨h, hs.cont⟩, hs.clabel, hs.asked⟩

theorem labelled_popBrk : popBrk.Labelled fun _ => True :=
  labelled_modify fun _ hs =>
    ⟨fun l hl => hs.brk l (List.mem_of_mem_tail hl), hs.cont, hs.clabel, hs.asked⟩

theorem labelled_popCont : popCont.Labelled fun _ => True :=
  labelled_modify fun _ hs =>
    ⟨hs.brk, fun l hl => hs.cont l (List.mem_of_mem_tail hl), hs.clabel, hs.asked⟩

theorem labelled_unlessFailed {p : Walk Unit} (h : p.Labelled fun _ => True) :
    (unlessFailed p).Labelled fun _ => True := by
  intro s hs
  rw [unlessFailed]
  split
  · exact ⟨trivial, hs, by simp⟩
  · exact h s hs

theorem labelled_emitLoadimm (r : ℕ) (v : Word) : (emitLoadimm r v).Labelled fun _ => True :=
  (labelled_emit _).seq <| (labelled_emit _).seq <| (labelled_emit _).seq (labelled_emit _)

end Primitives

section Expressions

variable (env : GenEnv) (offset : Offsets)

theorem labelled_emitBudgetCheck {l : ℕ} (h : LabelOk l) :
    (emitBudgetCheck env l).Labelled fun _ => True := by
  rw [emitBudgetCheck]
  split
  · exact labelled_pure trivial
  · exact (labelled_emitLoadimm _ _).seq ((labelled_emit _).seq (labelled_emitCbz h))

theorem labelled_frameAddr (d : ℕ) (off : ℤ) : (frameAddr d off).Labelled fun _ => True := by
  rw [frameAddr]
  split
  · exact labelled_emit _
  · exact (labelled_emitLoadimm _ _).seq (labelled_emit _)

theorem labelled_varAddr (v : Var) : (varAddr offset v).Labelled fun _ => True := by
  rw [varAddr]
  split
  · exact labelled_emitLoadimm _ _
  · exact labelled_frameAddr _ _

theorem labelled_addMemberOffset (off : ℤ) : (addMemberOffset off).Labelled fun _ => True := by
  rw [addMemberOffset]
  split
  · exact labelled_pure trivial
  · exact labelled_emit _

theorem labelled_genLoad (ty : Ty) : (genLoad env ty).Labelled fun _ => True := by
  rw [genLoad.eq_def]
  split
  · exact labelled_pure trivial
  · split <;> exact labelled_emit _

theorem labelled_genStore (ty : Ty) : (genStore env ty).Labelled fun _ => True := by
  rw [genStore]
  split <;> exact labelled_emit _

theorem labelled_binaryOp : ∀ k : BinKind, (binaryOp k).Labelled fun _ => True
  | .add => labelled_emit _
  | .sub => labelled_emit _
  | .mul => labelled_emit _
  | .div => labelled_emit _
  | .mod => (labelled_emit _).seq (labelled_emit _)
  | .eq => (labelled_emit _).seq (labelled_emit _)
  | .ne => (labelled_emit _).seq (labelled_emit _)
  | .lt => (labelled_emit _).seq (labelled_emit _)
  | .le => (labelled_emit _).seq (labelled_emit _)
  | .logand => labelled_walkError _
  | .logor => labelled_walkError _

theorem labelled_checkArgc (argc : ℕ) : (checkArgc argc).Labelled fun _ => True := by
  rw [checkArgc]
  split
  · exact labelled_walkError _
  · exact labelled_pure trivial

theorem labelled_popArgs : ∀ n : ℕ, (popArgs n).Labelled fun _ => True
  | 0 => labelled_pure trivial
  | n + 1 => (labelled_emit _).seq (labelled_popArgs n)

theorem labelled_genCallee (f : String) : (genCallee env f).Labelled fun _ => True := by
  rw [genCallee]
  split
  · next fn _ =>
    exact (labelled_line (show (Line.call fn).LabelIn from trivial)).seq (labelled_emit _)
  · dsimp only
    split
    · exact labelled_walkError _
    · exact (labelled_emitLoadimm _ _).seq (labelled_emit _)

/-- A binary operator that is computed from two operands on the stack. -/
theorem labelled_genBinary {p q : Walk Unit} (k : BinKind) (hp : p.Labelled fun _ => True)
    (hq : q.Labelled fun _ => True) :
    (unlessFailed do p; emitPush; q; emitPop 1; binaryOp k).Labelled fun _ => True :=
  labelled_unlessFailed <| hp.seq <| (labelled_emit _).seq <| hq.seq <| (labelled_emit _).seq <|
    labelled_binaryOp k

mutual

theorem labelled_genAddr : ∀ e : Expr, (genAddr env offset e).Labelled fun _ => True
  | .var v => labelled_varAddr offset v
  | .deref lhs _ => labelled_genExpr lhs
  | .member lhs _ _ => (labelled_genAddr lhs).seq (labelled_addMemberOffset _)
  | .str _ => labelled_emitLoadimm _ _
  | .num _ => labelled_walkError _
  | .binary _ _ _ _ => labelled_walkError _
  | .not _ => labelled_walkError _
  | .neg _ => labelled_walkError _
  | .assign _ _ _ => labelled_walkError _
  | .addr _ _ => labelled_walkError _
  | .funcall _ _ => labelled_walkError _

theorem labelled_genExpr : ∀ e : Expr, (genExpr env offset e).Labelled fun _ => True
  | .num _ => labelled_unlessFailed (labelled_emitLoadimm _ _)
  | .str _ => labelled_unlessFailed (labelled_emitLoadimm _ _)
  | .var v => labelled_unlessFailed ((labelled_varAddr offset v).seq (labelled_genLoad env _))
  | .assign lhs rhs _ => labelled_unlessFailed <|
      (labelled_genAddr lhs).seq <| (labelled_emit _).seq <| (labelled_genExpr rhs).seq <|
        (labelled_emit _).seq (labelled_genStore env _)
  | .deref lhs _ => labelled_unlessFailed ((labelled_genExpr lhs).seq (labelled_genLoad env _))
  | .member lhs _ _ => labelled_unlessFailed <|
      (labelled_genAddr lhs).seq <| (labelled_addMemberOffset _).seq (labelled_genLoad env _)
  | .addr lhs _ => labelled_unlessFailed (labelled_genAddr lhs)
  | .neg lhs => labelled_unlessFailed ((labelled_genExpr lhs).seq (labelled_emit _))
  | .not lhs => labelled_unlessFailed <|
      (labelled_genExpr lhs).seq ((labelled_emit _).seq (labelled_emit _))
  | .binary .logand lhs rhs _ => labelled_unlessFailed <|
      labelled_newlabel.bind fun _ hfalse => labelled_newlabel.bind fun _ hend =>
        (labelled_genExpr lhs).seq <| (labelled_emitCbz hfalse).seq <|
          (labelled_genExpr rhs).seq <| (labelled_emitCbz hfalse).seq <| (labelled_emit _).seq <|
            (labelled_emitB hend).seq <| (labelled_place _).seq <| (labelled_emit _).seq <|
              labelled_place _
  | .binary .logor lhs rhs _ => labelled_unlessFailed <|
      labelled_newlabel.bind fun _ htrue => labelled_newlabel.bind fun _ hend =>
        (labelled_genExpr lhs).seq <| (labelled_emit _).seq <| (labelled_emitCbnz htrue).seq <|
          (labelled_genExpr rhs).seq <| (labelled_emitCbnz htrue).seq <| (labelled_emit _).seq <|
            (labelled_emitB hend).seq <| (labelled_place _).seq <| (labelled_emit _).seq <|
              labelled_place _
  | .binary .add lhs rhs _ => labelled_genBinary _ (labelled_genExpr rhs) (labelled_genExpr lhs)
  | .binary .sub lhs rhs _ => labelled_genBinary _ (labelled_genExpr rhs) (labelled_genExpr lhs)
  | .binary .mul lhs rhs _ => labelled_genBinary _ (labelled_genExpr rhs) (labelled_genExpr lhs)
  | .binary .div lhs rhs _ => labelled_genBinary _ (labelled_genExpr rhs) (labelled_genExpr lhs)
  | .binary .mod lhs rhs _ => labelled_genBinary _ (labelled_genExpr rhs) (labelled_genExpr lhs)
  | .binary .eq lhs rhs _ => labelled_genBinary _ (labelled_genExpr rhs) (labelled_genExpr lhs)
  | .binary .ne lhs rhs _ => labelled_genBinary _ (labelled_genExpr rhs) (labelled_genExpr lhs)
  | .binary .lt lhs rhs _ => labelled_genBinary _ (labelled_genExpr rhs) (labelled_genExpr lhs)
  | .binary .le lhs rhs _ => labelled_genBinary _ (labelled_genExpr rhs) (labelled_genExpr lhs)
  | .funcall f args => labelled_unlessFailed <|
      (labelled_checkArgc _).seq <| (labelled_genArgs 8 args).seq <|
        (labelled_popArgs (min args.length 8)).seq (labelled_genCallee env f)

theorem labelled_genArgs : ∀ (k : ℕ) (args : Args),
    (genArgs env offset k args).Labelled fun _ => True
  | 0, .nil => labelled_pure trivial
  | _ + 1, .nil => labelled_pure trivial
  | 0, .cons _ _ => labelled_pure trivial
  | k + 1, .cons head next =>
    (labelled_genExpr head).seq <| (labelled_emit _).seq (labelled_genArgs k next)

end

end Expressions

section Statements

variable (env : GenEnv) (offset : Offsets)

theorem labelled_genCases : ∀ (cases : List Case) (defcase : Option ℕ),
    (∀ l, defcase = some l → LabelOk l) →
      (genCases cases defcase).Labelled fun d => ∀ l, d = some l → LabelOk l
  | [], _, h => labelled_pure h
  | c :: cases, defcase, h => by
    rw [genCases]
    refine labelled_newlabel.bind fun l hl => Labelled.seq ?_ ?_
    · refine labelled_modify fun s hs => ⟨hs.brk, hs.cont, fun id => ?_, hs.asked⟩
      by_cases hid : id = c.id
      · simpa [hid] using hl
      · simpa [Function.update_of_ne hid] using hs.clabel id
    · split
      · exact labelled_genCases cases _ fun _ heq => Option.some.inj heq ▸ hl
      · exact (labelled_emitLoadimm _ _).seq <| (labelled_emit _).seq <|
          (labelled_emitBcond _ hl).seq (labelled_genCases cases _ h)

theorem labelled_genOptional : ∀ e : Option Expr, (genOptional env offset e).Labelled fun _ => True
  | none => labelled_pure trivial
  | some e => labelled_genExpr env offset e

theorem labelled_genForCond {l : ℕ} (h : LabelOk l) :
    ∀ e : Option Expr, (genForCond env offset l e).Labelled fun _ => True
  | none => labelled_pure trivial
  | some e => (labelled_genExpr env offset e).seq (labelled_emitCbz h)

theorem labelled_genForInit : ∀ e : Option Expr, (genForInit env offset e).Labelled fun _ => True
  | none => labelled_pure trivial
  | some e => labelled_unlessFailed (labelled_genExpr env offset e)

theorem labelled_genBreak : genBreak.Labelled fun _ => True := by
  refine labelled_get.bind fun s hs => ?_
  split
  · exact labelled_walkError _
  · next l rest heq =>
    exact (labelled_access _ _).seq (labelled_emitB (hs.brk l (by simp [heq])))

theorem labelled_genContinue : genContinue.Labelled fun _ => True := by
  refine labelled_get.bind fun s hs => ?_
  split
  · exact labelled_walkError _
  · next l rest heq =>
    exact (labelled_access _ _).seq (labelled_emitB (hs.cont l (by simp [heq])))

theorem curLret_ok : LabelOk curLret := by decide

mutual

theorem labelled_genStmt : ∀ st : Stmt, (genStmt env offset st).Labelled fun _ => True
  | .exprStmt lhs => labelled_unlessFailed (labelled_genExpr env offset lhs)
  | .ret lhs => labelled_unlessFailed <|
      (labelled_genExpr env offset lhs).seq (labelled_emitB curLret_ok)
  | .ifThen cond then_ => labelled_unlessFailed <|
      labelled_newlabel.bind fun _ helse => labelled_newlabel.bind fun _ hend =>
        (labelled_genExpr env offset cond).seq <| (labelled_emitCbz helse).seq <|
          (labelled_genStmt then_).seq <| (labelled_emitB hend).seq <|
            (labelled_place _).seq (labelled_place _)
  | .ifElse cond then_ els => labelled_unlessFailed <|
      labelled_newlabel.bind fun _ helse => labelled_newlabel.bind fun _ hend =>
        (labelled_genExpr env offset cond).seq <| (labelled_emitCbz helse).seq <|
          (labelled_genStmt then_).seq <| (labelled_emitB hend).seq <|
            (labelled_place _).seq <| (labelled_genStmt els).seq (labelled_place _)
  | .loopWhile cond body => labelled_unlessFailed <|
      labelled_newlabel.bind fun _ hbegin => labelled_newlabel.bind fun _ hend =>
        (labelled_place _).seq <| (labelled_genExpr env offset cond).seq <|
          (labelled_emitCbz hend).seq <| (labelled_pushBrk hend).seq <|
            (labelled_pushCont hbegin).seq <| (labelled_genStmt body).seq <|
              labelled_popBrk.seq <| labelled_popCont.seq <|
                (labelled_emitBudgetCheck env hend).seq <| (labelled_emitB hbegin).seq <|
                  labelled_place _
  | .loopFor init cond inc body => labelled_unlessFailed <|
      labelled_newlabel.bind fun _ hbegin => labelled_newlabel.bind fun _ hcont =>
        labelled_newlabel.bind fun _ hend =>
          (labelled_genForInit env offset init).seq <| (labelled_place _).seq <|
            (labelled_genForCond env offset hend cond).seq <| (labelled_pushBrk hend).seq <|
              (labelled_pushCont hcont).seq <| (labelled_genStmt body).seq <|
                labelled_popBrk.seq <| labelled_popCont.seq <| (labelled_place _).seq <|
                  (labelled_genOptional env offset inc).seq <|
                    (labelled_emitBudgetCheck env hend).seq <| (labelled_emitB hbegin).seq <|
                      labelled_place _
  | .switch cond cases then_ => labelled_unlessFailed <|
      labelled_newlabel.bind fun _ hend => (labelled_genExpr env offset cond).seq <|
        (labelled_genCases cases none (by simp)).bind fun defcase hdef =>
          (labelled_emitB (by cases defcase with
            | none => exact hend
            | some l => exact hdef l rfl)).seq <|
            (labelled_pushBrk hend).seq <| (labelled_genStmt then_).seq <|
              labelled_popBrk.seq (labelled_place _)
  | .labeled _ lhs => labelled_unlessFailed <|
      labelled_get.bind fun _ _ => (labelled_place _).seq (labelled_genStmt lhs)
  | .brk => labelled_unlessFailed labelled_genBreak
  | .cont => labelled_unlessFailed labelled_genContinue
  | .block body => labelled_unlessFailed (labelled_genStmts body)

theorem labelled_genStmts : ∀ sts : Stmts, (genStmts env offset sts).Labelled fun _ => True
  | .nil => labelled_pure trivial
  | .cons head next => (labelled_genStmt head).seq (labelled_genStmts next)

end

theorem labelled_genFrame (frame : ℤ) : (genFrame frame).Labelled fun _ => True := by
  rw [genFrame]
  split
  · split
    · exact labelled_emit _
    · exact (labelled_emitLoadimm _ _).seq (labelled_emit _)
  · exact labelled_pure trivial

theorem labelled_storeParam (i : ℕ) (ty : Ty) : (storeParam env i ty).Labelled fun _ => True := by
  rw [storeParam]
  split <;> exact labelled_emit _

theorem labelled_spillParams : ∀ (i : ℕ) (params : List Var),
    (spillParams env offset i params).Labelled fun _ => True
  | _, [] => labelled_pure trivial
  | i, p :: params => (labelled_frameAddr _ _).seq <|
      (labelled_storeParam env i p.ty).seq (labelled_spillParams (i + 1) params)

theorem labelled_genFunc (fn : Func) : (genFunc env fn).Labelled fun _ => True :=
  labelled_newlabel.bind fun _ _ =>
    Labelled.seq ((labelled_emit _).seq <| (labelled_emit _).seq <|
        (labelled_genFrame _).seq (labelled_spillParams env _ 0 fn.params)) <|
      (labelled_genStmt env _ fn.body).seq <| (labelled_emit _).seq <| (labelled_place _).seq <|
        (labelled_emit _).seq <| (labelled_emit _).seq (labelled_emit _)

theorem WalkState.labelsIn_start : WalkState.start.LabelsIn where
  brk := by simp [start]
  cont := by simp [start]
  clabel := fun _ => by simp [start, Table.size]
  asked := fun _ => ⟨rfl, Nat.zero_le _⟩

/-- Every branch of a function goes to a label of the table. -/
theorem listing_labelIn (fn : Func) : ∀ l ∈ listing env fn, l.LabelIn :=
  (labelled_genFunc env fn .start WalkState.labelsIn_start).2.2

/-- A function that asks for more labels than there are is in error. -/
theorem walkErr_of_labelsAsked {fn : Func} (h : Table.labOff.size < labelsAsked env fn) :
    (walkErr env fn).isSome := by
  have hs := (labelled_genFunc env fn .start WalkState.labelsIn_start).2.1
  rw [walkErr, ← Option.ne_none_iff_isSome]
  intro herr
  obtain ⟨hasked, hle⟩ := hs.asked herr
  rw [labelsAsked, hasked] at h
  omega

end Statements

end XinuRpi4.Compiler
