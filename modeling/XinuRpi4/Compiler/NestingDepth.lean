import XinuRpi4.Compiler.BufferSteps

/-!
# How deep a function nests its loops

The depth is read off the syntax tree. The stacks of loop labels hold out exactly when it
is at most 64, or when the walk fails in front of the first loop that is nested deeper.
-/

namespace XinuRpi4.Compiler

section Depth

mutual

/-- How many loops and `switch`es are open at once in a statement. -/
def Stmt.depth : Stmt → ℕ
  | .exprStmt _ => 0
  | .ret _ => 0
  | .ifThen _ then_ => then_.depth
  | .ifElse _ then_ els => max then_.depth els.depth
  | .loopWhile _ body => body.depth + 1
  | .loopFor _ _ _ body => body.depth + 1
  | .switch _ _ then_ => then_.depth + 1
  | .labeled _ lhs => lhs.depth
  | .brk => 0
  | .cont => 0
  | .block body => body.depth

def Stmts.depth : Stmts → ℕ
  | .nil => 0
  | .cons head next => max head.depth next.depth

end

mutual

/-- What stands in front of the first loop or `switch` that is opened when `d` others are. -/
def Stmt.front : ℕ → Stmt → Stmt
  | d, .ifThen cond then_ => .ifThen cond (then_.front d)
  | d, .ifElse cond then_ els =>
    if then_.depth ≤ d then .ifElse cond then_ (els.front d) else .ifThen cond (then_.front d)
  | 0, .loopWhile _ _ => .block .nil
  | d + 1, .loopWhile cond body => .loopWhile cond (body.front d)
  | 0, .loopFor _ _ _ _ => .block .nil
  | d + 1, .loopFor init cond inc body =>
    .loopFor init cond (if body.depth ≤ d then inc else none) (body.front d)
  | 0, .switch _ _ _ => .block .nil
  | d + 1, .switch cond cases then_ => .switch cond cases (then_.front d)
  | d, .labeled c lhs => .labeled c (lhs.front d)
  | d, .block body => .block (body.front d)
  | _, .exprStmt lhs => .exprStmt lhs
  | _, .ret lhs => .ret lhs
  | _, .brk => .brk
  | _, .cont => .cont

def Stmts.front : ℕ → Stmts → Stmts
  | _, .nil => .nil
  | d, .cons head next =>
    if head.depth ≤ d then .cons head (next.front d) else .cons (head.front d) .nil

end

/-- The function up to its first loop or `switch` that is opened when `d` others are. -/
def Func.front (fn : Func) (d : ℕ) : Func := { fn with body := fn.body.front d }

end Depth

namespace Walk

variable {α β : Type}

/-- A part of the walk leaves the loop stacks as they were, and a recorded error. -/
structure Keeps (p : Walk α) : Prop where
  brk : ∀ s, (p s).2.1.brk = s.brk
  cont : ∀ s, (p s).2.1.cont = s.cont
  err : ∀ s, s.err.isSome → (p s).2.1.err.isSome

/-- Such a part that does not look at the stacks. -/
structure Plain (p : Walk α) : Prop extends Keeps p where
  lines : ∀ s, ∀ l ∈ (p s).2.2, l.InTable

theorem Keeps.bind {p : Walk α} {f : α → Walk β} (hp : Keeps p) (hf : ∀ a, Keeps (f a)) :
    Keeps (p >>= f) where
  brk s := ((hf _).brk _).trans (hp.brk s)
  cont s := ((hf _).cont _).trans (hp.cont s)
  err s hs := (hf _).err _ (hp.err s hs)

theorem Plain.bind {p : Walk α} {f : α → Walk β} (hp : Plain p) (hf : ∀ a, Plain (f a)) :
    Plain (p >>= f) where
  toKeeps := hp.toKeeps.bind fun a => (hf a).toKeeps
  lines s l hl := (List.mem_append.mp hl).elim (hp.lines s l) ((hf _).lines _ l)

theorem Plain.seq {p : Walk Unit} {q : Walk β} (hp : Plain p) (hq : Plain q) :
    Plain (do p; q) := hp.bind fun _ => hq

theorem Keeps.seq {p : Walk Unit} {q : Walk β} (hp : Keeps p) (hq : Keeps q) :
    Keeps (do p; q) := hp.bind fun _ => hq

theorem plain_pure (a : α) : Plain (Pure.pure a : Walk α) :=
  ⟨⟨fun _ => rfl, fun _ => rfl, fun _ hs => hs⟩, fun _ _ hl => absurd hl List.not_mem_nil⟩

theorem plain_get : Plain Walk.get :=
  ⟨⟨fun _ => rfl, fun _ => rfl, fun _ hs => hs⟩, fun _ _ hl => absurd hl List.not_mem_nil⟩

theorem plain_line {l : Line} (h : l.InTable) : Plain (Walk.line l) :=
  ⟨⟨fun _ => rfl, fun _ => rfl, fun _ hs => hs⟩, fun _ _ hl => List.mem_singleton.mp hl ▸ h⟩

theorem plain_modify {f : WalkState → WalkState} (hbrk : ∀ s, (f s).brk = s.brk)
    (hcont : ∀ s, (f s).cont = s.cont) (herr : ∀ s, s.err.isSome → (f s).err.isSome) :
    Plain (Walk.modify f) :=
  ⟨⟨hbrk, hcont, herr⟩, fun _ _ hl => absurd hl List.not_mem_nil⟩

end Walk

open Walk

section Primitives

theorem plain_emit (w : BitVec 32) : Plain (emit w) := plain_line trivial

theorem plain_place (l : ℕ) : Plain (place l) := plain_line trivial

theorem plain_emitB (l : ℕ) : Plain (emitB l) := plain_line trivial

theorem plain_emitCbz (l : ℕ) : Plain (emitCbz l) := plain_line trivial

theorem plain_emitCbnz (l : ℕ) : Plain (emitCbnz l) := plain_line trivial

theorem plain_emitBcond (cond : BitVec 32) (l : ℕ) : Plain (emitBcond cond l) := plain_line trivial

theorem plain_walkError (msg : String) : Plain (walkError msg) :=
  plain_modify (fun _ => rfl) (fun _ => rfl) fun s hs => by
    obtain ⟨e, he⟩ := Option.isSome_iff_exists.mp hs
    simp [he]

theorem plain_newlabel : Plain newlabel := by
  refine Plain.seq (plain_modify (fun _ => rfl) (fun _ => rfl) fun _ hs => hs) ?_
  refine plain_get.bind fun s => ?_
  split
  · exact (plain_walkError _).seq (plain_pure _)
  · refine Plain.seq ?_ (plain_pure _)
    exact plain_modify (fun _ => rfl) (fun _ => rfl) fun _ hs => hs

theorem Walk.Keeps.unlessFailed {p : Walk Unit} (h : Keeps p) : Keeps (unlessFailed p) := by
  refine ⟨fun s => ?_, fun s => ?_, fun s hs => ?_⟩ <;> rw [Compiler.unlessFailed]
  · split
    · rfl
    · exact h.brk s
  · split
    · rfl
    · exact h.cont s
  · rw [if_pos hs]
    exact hs

theorem Walk.Plain.unlessFailed {p : Walk Unit} (h : Plain p) : Plain (unlessFailed p) := by
  refine ⟨h.toKeeps.unlessFailed, fun s => ?_⟩
  rw [Compiler.unlessFailed]
  split
  · exact fun _ hl => absurd hl List.not_mem_nil
  · exact h.lines s

theorem plain_emitLoadimm (r : ℕ) (v : Word) : Plain (emitLoadimm r v) :=
  (plain_emit _).seq <| (plain_emit _).seq <| (plain_emit _).seq (plain_emit _)

end Primitives

section Expressions

variable (env : GenEnv) (offset : Offsets)

theorem plain_emitBudgetCheck (l : ℕ) : Plain (emitBudgetCheck env l) := by
  rw [emitBudgetCheck]
  split
  · exact plain_pure _
  · exact (plain_emitLoadimm _ _).seq ((plain_emit _).seq (plain_emitCbz l))

theorem plain_frameAddr (d : ℕ) (off : ℤ) : Plain (frameAddr d off) := by
  rw [frameAddr]
  split
  · exact plain_emit _
  · exact (plain_emitLoadimm _ _).seq (plain_emit _)

theorem plain_varAddr (v : Var) : Plain (varAddr offset v) := by
  rw [varAddr]
  split
  · exact plain_emitLoadimm _ _
  · exact plain_frameAddr _ _

theorem plain_addMemberOffset (off : ℤ) : Plain (addMemberOffset off) := by
  rw [addMemberOffset]
  split
  · exact plain_pure _
  · exact plain_emit _

theorem plain_genLoad (ty : Ty) : Plain (genLoad env ty) := by
  rw [genLoad.eq_def]
  split
  · exact plain_pure _
  · split <;> exact plain_emit _

theorem plain_genStore (ty : Ty) : Plain (genStore env ty) := by
  rw [genStore]
  split <;> exact plain_emit _

theorem plain_binaryOp (k : BinKind) : Plain (binaryOp k) := by
  cases k with
  | mod => exact (plain_emit _).seq (plain_emit _)
  | eq | ne | lt | le => exact (plain_emit _).seq (plain_emit _)
  | logand | logor => exact plain_walkError _
  | add | sub | mul | div => exact plain_emit _

theorem plain_checkArgc (argc : ℕ) : Plain (checkArgc argc) := by
  rw [checkArgc]
  split
  · exact plain_walkError _
  · exact plain_pure _

theorem plain_popArgs : ∀ n : ℕ, Plain (popArgs n)
  | 0 => plain_pure _
  | n + 1 => (plain_emit _).seq (plain_popArgs n)

theorem plain_genCallee (f : String) : Plain (genCallee env f) := by
  rw [genCallee]
  split
  · next fn _ => exact (plain_line (show (Line.call fn).InTable from trivial)).seq (plain_emit _)
  · dsimp only
    split
    · exact plain_walkError _
    · exact (plain_emitLoadimm _ _).seq (plain_emit _)

theorem plain_genBinary {p q : Walk Unit} (k : BinKind) (hp : Plain p) (hq : Plain q) :
    Plain (unlessFailed do p; emitPush; q; emitPop 1; binaryOp k) :=
  (hp.seq <| (plain_emit _).seq <| hq.seq <| (plain_emit _).seq (plain_binaryOp k)).unlessFailed

mutual

theorem plain_genAddr : ∀ e : Expr, Plain (genAddr env offset e)
  | .var v => plain_varAddr offset v
  | .deref lhs _ => plain_genExpr lhs
  | .member lhs _ _ => (plain_genAddr lhs).seq (plain_addMemberOffset _)
  | .str _ => plain_emitLoadimm _ _
  | .num _ => plain_walkError _
  | .binary _ _ _ _ => plain_walkError _
  | .not _ => plain_walkError _
  | .neg _ => plain_walkError _
  | .assign _ _ _ => plain_walkError _
  | .addr _ _ => plain_walkError _
  | .funcall _ _ => plain_walkError _

theorem plain_genExpr : ∀ e : Expr, Plain (genExpr env offset e)
  | .num _ => (plain_emitLoadimm _ _).unlessFailed
  | .str _ => (plain_emitLoadimm _ _).unlessFailed
  | .var v => ((plain_varAddr offset v).seq (plain_genLoad env _)).unlessFailed
  | .assign lhs rhs _ => ((plain_genAddr lhs).seq <| (plain_emit _).seq <|
      (plain_genExpr rhs).seq <| (plain_emit _).seq (plain_genStore env _)).unlessFailed
  | .deref lhs _ => ((plain_genExpr lhs).seq (plain_genLoad env _)).unlessFailed
  | .member lhs _ _ => ((plain_genAddr lhs).seq <|
      (plain_addMemberOffset _).seq (plain_genLoad env _)).unlessFailed
  | .addr lhs _ => (plain_genAddr lhs).unlessFailed
  | .neg lhs => ((plain_genExpr lhs).seq (plain_emit _)).unlessFailed
  | .not lhs => ((plain_genExpr lhs).seq ((plain_emit _).seq (plain_emit _))).unlessFailed
  | .binary .logand lhs rhs _ => (plain_newlabel.bind fun _ => plain_newlabel.bind fun _ =>
      (plain_genExpr lhs).seq <| (plain_emitCbz _).seq <| (plain_genExpr rhs).seq <|
        (plain_emitCbz _).seq <| (plain_emit _).seq <| (plain_emitB _).seq <|
          (plain_place _).seq <| (plain_emit _).seq (plain_place _)).unlessFailed
  | .binary .logor lhs rhs _ => (plain_newlabel.bind fun _ => plain_newlabel.bind fun _ =>
      (plain_genExpr lhs).seq <| (plain_emit _).seq <| (plain_emitCbnz _).seq <|
        (plain_genExpr rhs).seq <| (plain_emitCbnz _).seq <| (plain_emit _).seq <|
          (plain_emitB _).seq <| (plain_place _).seq <| (plain_emit _).seq
            (plain_place _)).unlessFailed
  | .binary .add lhs rhs _ => plain_genBinary _ (plain_genExpr rhs) (plain_genExpr lhs)
  | .binary .sub lhs rhs _ => plain_genBinary _ (plain_genExpr rhs) (plain_genExpr lhs)
  | .binary .mul lhs rhs _ => plain_genBinary _ (plain_genExpr rhs) (plain_genExpr lhs)
  | .binary .div lhs rhs _ => plain_genBinary _ (plain_genExpr rhs) (plain_genExpr lhs)
  | .binary .mod lhs rhs _ => plain_genBinary _ (plain_genExpr rhs) (plain_genExpr lhs)
  | .binary .eq lhs rhs _ => plain_genBinary _ (plain_genExpr rhs) (plain_genExpr lhs)
  | .binary .ne lhs rhs _ => plain_genBinary _ (plain_genExpr rhs) (plain_genExpr lhs)
  | .binary .lt lhs rhs _ => plain_genBinary _ (plain_genExpr rhs) (plain_genExpr lhs)
  | .binary .le lhs rhs _ => plain_genBinary _ (plain_genExpr rhs) (plain_genExpr lhs)
  | .funcall f args => ((plain_checkArgc _).seq <| (plain_genArgs 8 args).seq <|
      (plain_popArgs (min args.length 8)).seq (plain_genCallee env f)).unlessFailed

theorem plain_genArgs : ∀ (k : ℕ) (args : Args), Plain (genArgs env offset k args)
  | 0, .nil => plain_pure _
  | _ + 1, .nil => plain_pure _
  | 0, .cons _ _ => plain_pure _
  | k + 1, .cons head next => (plain_genExpr head).seq <| (plain_emit _).seq (plain_genArgs k next)

end

theorem plain_genCases : ∀ (cases : List Case) (defcase : Option ℕ), Plain (genCases cases defcase)
  | [], _ => plain_pure _
  | c :: cases, defcase => by
    rw [genCases]
    refine plain_newlabel.bind fun l => Plain.seq ?_ ?_
    · exact plain_modify (fun _ => rfl) (fun _ => rfl) fun _ hs => hs
    · split
      · exact plain_genCases cases _
      · exact (plain_emitLoadimm _ _).seq <| (plain_emit _).seq <|
          (plain_emitBcond _ _).seq (plain_genCases cases _)

theorem plain_genOptional : ∀ e : Option Expr, Plain (genOptional env offset e)
  | none => plain_pure _
  | some e => plain_genExpr env offset e

theorem plain_genForCond (l : ℕ) : ∀ e : Option Expr, Plain (genForCond env offset l e)
  | none => plain_pure _
  | some e => (plain_genExpr env offset e).seq (plain_emitCbz l)

theorem plain_genForInit : ∀ e : Option Expr, Plain (genForInit env offset e)
  | none => plain_pure _
  | some e => (plain_genExpr env offset e).unlessFailed

end Expressions

section Stacks

variable {α β : Type} {d : ℕ} {p p' q q' : Walk Unit}

/-- There is room for `d` more labels on each stack. -/
structure WalkState.Free (d : ℕ) (s : WalkState) : Prop where
  brk : s.brk.length + d ≤ 64
  cont : s.cont.length ≤ s.brk.length

/-- A part of the walk that keeps to the tables when there is room for `d` more labels. -/
def Walk.Within (d : ℕ) (p : Walk α) : Prop :=
  ∀ s : WalkState, s.Free d → ∀ l ∈ (p s).2.2, l.InTable

theorem WalkState.Free.keep {p : Walk α} {s : WalkState} (h : s.Free d) (hp : Keeps p) :
    (p s).2.1.Free d := by
  refine ⟨?_, ?_⟩
  · rw [hp.brk]
    exact h.brk
  · rw [hp.brk, hp.cont]
    exact h.cont

/-- A loop takes one place on each of the stacks. -/
theorem WalkState.Free.pushBoth {s : WalkState} (h : s.Free (d + 1)) (l l' : ℕ) :
    { s with brk := l :: s.brk, cont := l' :: s.cont }.Free d := by
  have hbrk := h.brk
  exact ⟨by rw [List.length_cons]; omega, Nat.succ_le_succ h.cont⟩

theorem WalkState.Free.push {s : WalkState} (h : s.Free (d + 1)) (l : ℕ) :
    { s with brk := l :: s.brk }.Free d := by
  have hbrk := h.brk
  exact ⟨by rw [List.length_cons]; omega, h.cont.trans (Nat.le_succ _)⟩

theorem WalkState.Free.inTable {s : WalkState} (h : s.Free (d + 1)) :
    (Line.access .brkLab s.brk.length).InTable ∧ (Line.access .contLab s.cont.length).InTable := by
  have hbrk := h.brk
  have hcont := h.cont
  exact ⟨(by omega : s.brk.length < 64), (by omega : s.cont.length < 64)⟩

theorem Walk.Plain.within {p : Walk α} (h : Plain p) : Within d p := fun s _ => h.lines s

theorem Walk.Within.bind {p : Walk α} {f : α → Walk β} (hk : Keeps p) (hp : Within d p)
    (hf : ∀ a, Within d (f a)) : Within d (p >>= f) :=
  fun s hs l hl => (List.mem_append.mp hl).elim (hp s hs l) (hf _ _ (hs.keep hk) l)

theorem Walk.Plain.thenWithin {p : Walk α} {f : α → Walk β} (hp : Plain p)
    (hf : ∀ a, Within d (f a)) : Within d (p >>= f) := hp.within.bind hp.toKeeps hf

theorem Walk.Within.seq (hk : Keeps p) (hp : Within d p) (hq : Within d q) :
    Within d (do p; q) := hp.bind hk fun _ => hq

theorem Walk.Within.unlessFailed (h : Within d p) : Within d (unlessFailed p) := by
  intro s hs
  rw [Compiler.unlessFailed]
  split
  · exact fun _ hl => absurd hl List.not_mem_nil
  · exact h s hs

/-- A loop puts its labels on the stacks and takes them off again. -/
theorem keeps_loop (l l' : ℕ) (hp : Keeps p) (hq : Keeps q) :
    Keeps (do pushBrk l; pushCont l'; p; popBrk; popCont; q) where
  brk _ := (hq.brk _).trans (congrArg List.tail (hp.brk _))
  cont _ := (hq.cont _).trans (congrArg List.tail (hp.cont _))
  err s hs := hq.err _ (hp.err { s with brk := l :: s.brk, cont := l' :: s.cont } hs)

theorem keeps_switch (l : ℕ) (hp : Keeps p) (hq : Keeps q) :
    Keeps (do pushBrk l; p; popBrk; q) where
  brk _ := (hq.brk _).trans (congrArg List.tail (hp.brk _))
  cont _ := (hq.cont _).trans (hp.cont _)
  err s hs := hq.err _ (hp.err { s with brk := l :: s.brk } hs)

theorem within_loop (l l' : ℕ) (hp : Within d p) (hq : Plain q) :
    Within (d + 1) (do pushBrk l; pushCont l'; p; popBrk; popCont; q) := by
  intro s hs x hx
  rcases List.mem_append.mp hx with hx | hx
  · exact List.mem_singleton.mp hx ▸ hs.inTable.1
  rcases List.mem_append.mp hx with hx | hx
  · exact List.mem_singleton.mp hx ▸ hs.inTable.2
  rcases List.mem_append.mp hx with hx | hx
  · exact hp _ (hs.pushBoth l l') x hx
  · exact hq.lines _ x hx

theorem within_switch (l : ℕ) (hp : Within d p) (hq : Plain q) :
    Within (d + 1) (do pushBrk l; p; popBrk; q) := by
  intro s hs x hx
  rcases List.mem_append.mp hx with hx | hx
  · exact List.mem_singleton.mp hx ▸ hs.inTable.1
  rcases List.mem_append.mp hx with hx | hx
  · exact hp _ (hs.push l) x hx
  · exact hq.lines _ x hx

end Stacks

section Shallow

variable (env : GenEnv) (offset : Offsets)

theorem keeps_genBreak : Keeps genBreak := by
  refine plain_get.toKeeps.bind fun s => ?_
  split
  · exact (plain_walkError _).toKeeps
  · next l rest _ =>
    have hline : Keeps (Walk.line (.access .brkLab rest.length)) :=
      ⟨fun _ => rfl, fun _ => rfl, fun _ hs => hs⟩
    exact hline.seq (plain_emitB l).toKeeps

theorem keeps_genContinue : Keeps genContinue := by
  refine plain_get.toKeeps.bind fun s => ?_
  split
  · exact (plain_walkError _).toKeeps
  · next l rest _ =>
    have hline : Keeps (Walk.line (.access .contLab rest.length)) :=
      ⟨fun _ => rfl, fun _ => rfl, fun _ hs => hs⟩
    exact hline.seq (plain_emitB l).toKeeps

mutual

/-- A statement leaves the loop stacks as they were, however deep it is. -/
theorem keeps_genStmt : ∀ st : Stmt, Keeps (genStmt env offset st)
  | .exprStmt lhs => (plain_genExpr env offset lhs).unlessFailed.toKeeps
  | .ret lhs => ((plain_genExpr env offset lhs).seq (plain_emitB _)).unlessFailed.toKeeps
  | .ifThen cond then_ =>
    (plain_newlabel.toKeeps.bind fun _ => plain_newlabel.toKeeps.bind fun _ =>
      (plain_genExpr env offset cond).toKeeps.seq <| (plain_emitCbz _).toKeeps.seq <|
        (keeps_genStmt then_).seq <| (plain_emitB _).toKeeps.seq <| (plain_place _).toKeeps.seq <|
          (plain_place _).toKeeps).unlessFailed
  | .ifElse cond then_ els =>
    (plain_newlabel.toKeeps.bind fun _ => plain_newlabel.toKeeps.bind fun _ =>
      (plain_genExpr env offset cond).toKeeps.seq <| (plain_emitCbz _).toKeeps.seq <|
        (keeps_genStmt then_).seq <| (plain_emitB _).toKeeps.seq <| (plain_place _).toKeeps.seq <|
          (keeps_genStmt els).seq (plain_place _).toKeeps).unlessFailed
  | .loopWhile cond body =>
    (plain_newlabel.toKeeps.bind fun _ => plain_newlabel.toKeeps.bind fun _ =>
      (plain_place _).toKeeps.seq <| (plain_genExpr env offset cond).toKeeps.seq <|
        (plain_emitCbz _).toKeeps.seq <| keeps_loop _ _ (keeps_genStmt body) <|
          (plain_emitBudgetCheck env _).toKeeps.seq <| (plain_emitB _).toKeeps.seq
            (plain_place _).toKeeps).unlessFailed
  | .loopFor init cond inc body =>
    (plain_newlabel.toKeeps.bind fun _ => plain_newlabel.toKeeps.bind fun _ =>
      plain_newlabel.toKeeps.bind fun _ => (plain_genForInit env offset init).toKeeps.seq <|
        (plain_place _).toKeeps.seq <| (plain_genForCond env offset _ cond).toKeeps.seq <|
          keeps_loop _ _ (keeps_genStmt body) <| (plain_place _).toKeeps.seq <|
            (plain_genOptional env offset inc).toKeeps.seq <|
              (plain_emitBudgetCheck env _).toKeeps.seq <| (plain_emitB _).toKeeps.seq
                (plain_place _).toKeeps).unlessFailed
  | .switch cond cases then_ =>
    (plain_newlabel.toKeeps.bind fun _ => (plain_genExpr env offset cond).toKeeps.seq <|
      (plain_genCases cases none).toKeeps.bind fun _ => (plain_emitB _).toKeeps.seq <|
        keeps_switch _ (keeps_genStmt then_) (plain_place _).toKeeps).unlessFailed
  | .labeled _ lhs =>
    (plain_get.toKeeps.bind fun _ => (plain_place _).toKeeps.seq (keeps_genStmt lhs)).unlessFailed
  | .brk => keeps_genBreak.unlessFailed
  | .cont => keeps_genContinue.unlessFailed
  | .block body => (keeps_genStmts body).unlessFailed

theorem keeps_genStmts : ∀ sts : Stmts, Keeps (genStmts env offset sts)
  | .nil => (plain_pure _).toKeeps
  | .cons head next => (keeps_genStmt head).seq (keeps_genStmts next)

end

theorem within_genBreak {d : ℕ} : Within d genBreak := by
  intro s hs
  have hbrk : s.brk.length + d ≤ 64 := hs.brk
  obtain ⟨nlab, asked, brk, cont, clabel, err⟩ := s
  cases brk with
  | nil => exact (plain_walkError "break outside loop/switch").lines _
  | cons l rest =>
    have hin : (Line.access .brkLab rest.length).InTable :=
      (by rw [List.length_cons] at hbrk; omega : rest.length < 64)
    exact ((plain_line hin).seq (plain_emitB l)).lines _

theorem within_genContinue {d : ℕ} : Within d genContinue := by
  intro s hs
  have hcont : s.cont.length ≤ 64 := hs.cont.trans ((Nat.le_add_right _ d).trans hs.brk)
  obtain ⟨nlab, asked, brk, cont, clabel, err⟩ := s
  cases cont with
  | nil => exact (plain_walkError "continue outside loop").lines _
  | cons l rest =>
    have hin : (Line.access .contLab rest.length).InTable :=
      (by rw [List.length_cons] at hcont; omega : rest.length < 64)
    exact ((plain_line hin).seq (plain_emitB l)).lines _

mutual

/-- A statement that is not deeper than there is room for keeps to the loop stacks. -/
theorem within_genStmt : ∀ (st : Stmt) (d : ℕ), st.depth ≤ d → Within d (genStmt env offset st)
  | .exprStmt lhs, _, _ => (plain_genExpr env offset lhs).unlessFailed.within
  | .ret lhs, _, _ => ((plain_genExpr env offset lhs).seq (plain_emitB _)).unlessFailed.within
  | .ifThen cond then_, d, h =>
    (plain_newlabel.thenWithin fun _ => plain_newlabel.thenWithin fun _ =>
      (plain_genExpr env offset cond).thenWithin fun _ => (plain_emitCbz _).thenWithin fun _ =>
        (within_genStmt then_ d h).seq (keeps_genStmt env offset then_) <|
          ((plain_emitB _).seq <| (plain_place _).seq (plain_place _)).within).unlessFailed
  | .ifElse cond then_ els, d, h =>
    (plain_newlabel.thenWithin fun _ => plain_newlabel.thenWithin fun _ =>
      (plain_genExpr env offset cond).thenWithin fun _ => (plain_emitCbz _).thenWithin fun _ =>
        (within_genStmt then_ d ((le_max_left _ _).trans h)).seq (keeps_genStmt env offset then_) <|
          (plain_emitB _).thenWithin fun _ => (plain_place _).thenWithin fun _ =>
            (within_genStmt els d ((le_max_right _ _).trans h)).seq (keeps_genStmt env offset els)
              (plain_place _).within).unlessFailed
  | .loopWhile _ _, 0, h => absurd h (Nat.not_succ_le_zero _)
  | .loopWhile cond body, d + 1, h =>
    (plain_newlabel.thenWithin fun _ => plain_newlabel.thenWithin fun _ =>
      (plain_place _).thenWithin fun _ => (plain_genExpr env offset cond).thenWithin fun _ =>
        (plain_emitCbz _).thenWithin fun _ =>
          within_loop _ _ (within_genStmt body d (Nat.le_of_succ_le_succ h)) <|
            (plain_emitBudgetCheck env _).seq <| (plain_emitB _).seq (plain_place _)).unlessFailed
  | .loopFor _ _ _ _, 0, h => absurd h (Nat.not_succ_le_zero _)
  | .loopFor init cond inc body, d + 1, h =>
    (plain_newlabel.thenWithin fun _ => plain_newlabel.thenWithin fun _ =>
      plain_newlabel.thenWithin fun _ => (plain_genForInit env offset init).thenWithin fun _ =>
        (plain_place _).thenWithin fun _ => (plain_genForCond env offset _ cond).thenWithin fun _ =>
          within_loop _ _ (within_genStmt body d (Nat.le_of_succ_le_succ h)) <|
            (plain_place _).seq <| (plain_genOptional env offset inc).seq <|
              (plain_emitBudgetCheck env _).seq <| (plain_emitB _).seq
                (plain_place _)).unlessFailed
  | .switch _ _ _, 0, h => absurd h (Nat.not_succ_le_zero _)
  | .switch cond cases then_, d + 1, h =>
    (plain_newlabel.thenWithin fun _ => (plain_genExpr env offset cond).thenWithin fun _ =>
      (plain_genCases cases none).thenWithin fun _ => (plain_emitB _).thenWithin fun _ =>
        within_switch _ (within_genStmt then_ d (Nat.le_of_succ_le_succ h))
          (plain_place _)).unlessFailed
  | .labeled _ lhs, d, h =>
    (plain_get.thenWithin fun _ => (plain_place _).thenWithin fun _ =>
      within_genStmt lhs d h).unlessFailed
  | .brk, _, _ => within_genBreak.unlessFailed
  | .cont, _, _ => within_genContinue.unlessFailed
  | .block body, d, h => (within_genStmts body d h).unlessFailed

theorem within_genStmts : ∀ (sts : Stmts) (d : ℕ), sts.depth ≤ d →
    Within d (genStmts env offset sts)
  | .nil, _, _ => (plain_pure _).within
  | .cons head next, d, h =>
    (within_genStmt head d ((le_max_left _ _).trans h)).seq (keeps_genStmt env offset head)
      (within_genStmts next d ((le_max_right _ _).trans h))

end

end Shallow

section Fronts

variable {α : Type} {d : ℕ} {p p' q q' : Walk Unit}

/-- With room for `d` more labels, `p` comes to a label for which there is none exactly when
its front `q` is without an error. -/
def Walk.Cut (d : ℕ) (p q : Walk Unit) : Prop :=
  ∀ s : WalkState, s.brk.length + d = 64 → s.cont.length ≤ s.brk.length →
    ((q s).2.1.err.isSome ∧ (p s).2.1.err.isSome ∧ ∀ l ∈ (p s).2.2, l.InTable) ∨
      (q s).2.1.err = none ∧ ∃ l ∈ (p s).2.2, ¬ l.InTable

/-- What comes behind an error does not reach the tables. -/
def Walk.Idle (p : Walk Unit) : Prop :=
  ∀ s : WalkState, s.err.isSome → (p s).2.1.err.isSome ∧ ∀ l ∈ (p s).2.2, l.InTable

/-- A part of the walk that cannot fail. -/
def Walk.Sure (p : Walk Unit) : Prop := ∀ s, (p s).2.1.err = s.err

/-- A label is put on the full stack of `brk_lab`. -/
def Walk.Overruns (p : Walk Unit) : Prop :=
  ∀ s : WalkState, s.brk.length = 64 → ∃ l ∈ (p s).2.2, ¬ l.InTable

theorem Walk.Plain.idle (h : Plain p) : Idle p := fun s hs => ⟨h.err s hs, h.lines s⟩

theorem idle_unlessFailed (p : Walk Unit) : Idle (unlessFailed p) := by
  intro s hs
  rw [unlessFailed, if_pos hs]
  exact ⟨hs, fun _ hl => absurd hl List.not_mem_nil⟩

theorem Walk.Idle.seq (hp : Idle p) (hq : Idle q) : Idle (do p; q) := fun s hs =>
  ⟨(hq _ (hp s hs).1).1, fun l hl =>
    (List.mem_append.mp hl).elim ((hp s hs).2 l) ((hq _ (hp s hs).1).2 l)⟩

theorem Walk.Sure.seq (hp : Sure p) (hq : Sure q) : Sure (do p; q) :=
  fun s => (hq _).trans (hp s)

theorem sure_emitBudgetCheck (env : GenEnv) (l : ℕ) : Sure (emitBudgetCheck env l) := by
  rw [emitBudgetCheck]
  split
  · exact fun _ => rfl
  · exact fun _ => rfl

theorem Walk.Overruns.bind {p : Walk α} {f : α → Walk Unit} (hk : Keeps p)
    (hf : ∀ a, Overruns (f a)) : Overruns (p >>= f) := by
  intro s hs
  obtain ⟨l, hl, hout⟩ := hf (p s).1 (p s).2.1 (by rw [hk.brk]; exact hs)
  exact ⟨l, List.mem_append_right _ hl, hout⟩

theorem overruns_pushBrk (l : ℕ) (p : Walk Unit) : Overruns (do pushBrk l; p) := by
  intro s hs
  refine ⟨.access .brkLab s.brk.length, List.mem_append_left _ (List.mem_singleton_self _), ?_⟩
  rw [hs]
  decide

/-- Of a loop that is too deep the front is empty. -/
theorem Walk.Overruns.cut (h : Overruns p) :
    Cut 0 (unlessFailed p) (unlessFailed (Pure.pure ())) := by
  intro s hs _
  rw [unlessFailed, unlessFailed]
  by_cases herr : s.err.isSome
  · rw [if_pos herr, if_pos herr]
    exact Or.inl ⟨herr, herr, fun _ hl => absurd hl List.not_mem_nil⟩
  · rw [if_neg herr, if_neg herr]
    exact Or.inr ⟨Option.not_isSome_iff_eq_none.mp herr, h s hs⟩

theorem Walk.Cut.unlessFailed (h : Cut d p q) :
    Cut d (unlessFailed p) (unlessFailed q) := by
  intro s hs hs'
  rw [Compiler.unlessFailed, Compiler.unlessFailed]
  by_cases herr : s.err.isSome
  · rw [if_pos herr, if_pos herr]
    exact Or.inl ⟨herr, herr, fun _ hl => absurd hl List.not_mem_nil⟩
  · rw [if_neg herr, if_neg herr]
    exact h s hs hs'

/-- The same goes before both. -/
theorem Walk.Cut.before {p : Walk α} {f g : α → Walk Unit} (hk : Keeps p) (hp : Within d p)
    (h : ∀ a, Cut d (f a) (g a)) : Cut d (p >>= f) (p >>= g) := by
  intro s hs hs'
  have hfree : s.Free d := ⟨hs.le, hs'⟩
  have hstacks : (p s).2.1.brk.length + d = 64 := by rw [hk.brk]; exact hs
  rcases h (p s).1 (p s).2.1 hstacks (hfree.keep hk).cont with ⟨hq, hf, hin⟩ | ⟨hq, l, hl, hout⟩
  · exact Or.inl ⟨hq, hf, fun l hl => (List.mem_append.mp hl).elim (hp s hfree l) (hin l)⟩
  · exact Or.inr ⟨hq, l, List.mem_append_right _ hl, hout⟩

theorem Walk.Plain.cut {p : Walk α} {f g : α → Walk Unit} (hp : Plain p)
    (h : ∀ a, Cut d (f a) (g a)) : Cut d (p >>= f) (p >>= g) := .before hp.toKeeps hp.within h

/-- What comes behind is idle after an error, and the front goes on without a new one. -/
theorem Walk.Cut.after (h : Cut d p q) (hp : Idle p') (hq : Sure q') :
    Cut d (do p; p') (do q; q') := by
  intro s hs hs'
  rcases h s hs hs' with ⟨herr, hfail, hin⟩ | ⟨herr, l, hl, hout⟩
  · refine Or.inl ⟨?_, (hp _ hfail).1, fun l hl => ?_⟩
    · exact (hq _).symm ▸ herr
    · exact (List.mem_append.mp hl).elim (hin l) ((hp _ hfail).2 l)
  · exact Or.inr ⟨(hq _).trans herr, l, List.mem_append_left _ hl, hout⟩

theorem Walk.Cut.loop (l l' : ℕ) (h : Cut d p q) :
    Cut (d + 1) (do pushBrk l; pushCont l'; p) (do pushBrk l; pushCont l'; q) := by
  intro s hs hs'
  have hfree : s.Free (d + 1) := ⟨hs.le, hs'⟩
  rcases h { s with brk := l :: s.brk, cont := l' :: s.cont }
      (by rw [List.length_cons]; omega) (hfree.pushBoth l l').cont with ⟨hq, hf, hin⟩ | ⟨hq, x, hx, hout⟩
  · refine Or.inl ⟨hq, hf, fun x hx => ?_⟩
    rcases List.mem_append.mp hx with hx | hx
    · exact List.mem_singleton.mp hx ▸ hfree.inTable.1
    rcases List.mem_append.mp hx with hx | hx
    · exact List.mem_singleton.mp hx ▸ hfree.inTable.2
    · exact hin x hx
  · exact Or.inr ⟨hq, x, List.mem_append_right _ (List.mem_append_right _ hx), hout⟩

theorem Walk.Cut.switch (l : ℕ) (h : Cut d p q) :
    Cut (d + 1) (do pushBrk l; p) (do pushBrk l; q) := by
  intro s hs hs'
  have hfree : s.Free (d + 1) := ⟨hs.le, hs'⟩
  rcases h { s with brk := l :: s.brk } (by rw [List.length_cons]; omega) (hfree.push l).cont with
    ⟨hq, hf, hin⟩ | ⟨hq, x, hx, hout⟩
  · refine Or.inl ⟨hq, hf, fun x hx => ?_⟩
    rcases List.mem_append.mp hx with hx | hx
    · exact List.mem_singleton.mp hx ▸ hfree.inTable.1
    · exact hin x hx
  · exact Or.inr ⟨hq, x, List.mem_append_right _ hx, hout⟩

end Fronts

section Shallow

variable (env : GenEnv) (offset : Offsets)

theorem idle_genStmt : ∀ st : Stmt, Idle (genStmt env offset st)
  | .exprStmt _ => idle_unlessFailed _
  | .ret _ => idle_unlessFailed _
  | .ifThen _ _ => idle_unlessFailed _
  | .ifElse _ _ _ => idle_unlessFailed _
  | .loopWhile _ _ => idle_unlessFailed _
  | .loopFor _ _ _ _ => idle_unlessFailed _
  | .switch _ _ _ => idle_unlessFailed _
  | .labeled _ _ => idle_unlessFailed _
  | .brk => idle_unlessFailed _
  | .cont => idle_unlessFailed _
  | .block _ => idle_unlessFailed _

theorem idle_genStmts : ∀ sts : Stmts, Idle (genStmts env offset sts)
  | .nil => (plain_pure _).idle
  | .cons head next => (idle_genStmt env offset head).seq (idle_genStmts next)

theorem sure_pure : Sure (Pure.pure () : Walk Unit) := fun _ => rfl

theorem sure_emitB (l : ℕ) : Sure (emitB l) := fun _ => rfl

theorem sure_place (l : ℕ) : Sure (place l) := fun _ => rfl

theorem sure_loopEnd (l l' : ℕ) :
    Sure (do popBrk; popCont; emitBudgetCheck env l; emitB l'; place l) :=
  fun s => sure_emitBudgetCheck env l { s with brk := s.brk.tail, cont := s.cont.tail }

theorem idle_pops {p : Walk Unit} (hp : Plain p) : Idle (do popBrk; popCont; p) :=
  fun s hs => hp.idle { s with brk := s.brk.tail, cont := s.cont.tail } hs

mutual

/-- A statement that is too deep overruns a stack, unless its front fails. -/
theorem cut_genStmt : ∀ (st : Stmt) (d : ℕ), d < st.depth →
    Cut d (genStmt env offset st) (genStmt env offset (st.front d))
  | .exprStmt _, _, h => absurd h (Nat.not_lt_zero _)
  | .ret _, _, h => absurd h (Nat.not_lt_zero _)
  | .ifThen cond then_, d, h => by
    rw [Stmt.front]
    refine (plain_newlabel.cut fun _ => plain_newlabel.cut fun _ =>
      (plain_genExpr env offset cond).cut fun _ => (plain_emitCbz _).cut fun _ =>
        (cut_genStmt then_ d h).after ?_ ?_).unlessFailed
    · exact ((plain_emitB _).seq ((plain_place _).seq (plain_place _))).idle
    · exact (sure_emitB _).seq ((sure_place _).seq (sure_place _))
  | .ifElse cond then_ els, d, h => by
    rw [Stmt.front]
    split_ifs with hthen
    · have hels : d < els.depth := (lt_max_iff.mp h).resolve_left (not_lt.mpr hthen)
      refine (plain_newlabel.cut fun _ => plain_newlabel.cut fun _ =>
        (plain_genExpr env offset cond).cut fun _ => (plain_emitCbz _).cut fun _ =>
          Cut.before (keeps_genStmt env offset then_) (within_genStmt env offset then_ d hthen)
            fun _ => (plain_emitB _).cut fun _ => (plain_place _).cut fun _ =>
              (cut_genStmt els d hels).after ?_ ?_).unlessFailed
      · exact (plain_place _).idle
      · exact sure_place _
    · refine (plain_newlabel.cut fun _ => plain_newlabel.cut fun _ =>
        (plain_genExpr env offset cond).cut fun _ => (plain_emitCbz _).cut fun _ =>
          (cut_genStmt then_ d (not_le.mp hthen)).after ?_ ?_).unlessFailed
      · exact (plain_emitB _).idle.seq <| (plain_place _).idle.seq <|
          (idle_genStmt env offset els).seq (plain_place _).idle
      · exact (sure_emitB _).seq ((sure_place _).seq (sure_place _))
  | .loopWhile cond body, 0, _ => by
    rw [Stmt.front]
    exact (Overruns.bind plain_newlabel.toKeeps fun _ => Overruns.bind plain_newlabel.toKeeps
      fun _ => Overruns.bind (plain_place _).toKeeps fun _ =>
        Overruns.bind (plain_genExpr env offset cond).toKeeps fun _ =>
          Overruns.bind (plain_emitCbz _).toKeeps fun _ => overruns_pushBrk _ _).cut
  | .loopWhile cond body, d + 1, h => by
    rw [Stmt.front]
    refine (plain_newlabel.cut fun _ => plain_newlabel.cut fun _ => (plain_place _).cut fun _ =>
      (plain_genExpr env offset cond).cut fun _ => (plain_emitCbz _).cut fun _ =>
        Cut.loop _ _ ((cut_genStmt body d (Nat.lt_of_succ_lt_succ h)).after ?_ ?_)).unlessFailed
    · exact idle_pops ((plain_emitBudgetCheck env _).seq ((plain_emitB _).seq (plain_place _)))
    · exact sure_loopEnd env _ _
  | .loopFor init cond inc body, 0, _ => by
    rw [Stmt.front]
    exact (Overruns.bind plain_newlabel.toKeeps fun _ => Overruns.bind plain_newlabel.toKeeps
      fun _ => Overruns.bind plain_newlabel.toKeeps fun _ =>
        Overruns.bind (plain_genForInit env offset init).toKeeps fun _ =>
          Overruns.bind (plain_place _).toKeeps fun _ =>
            Overruns.bind (plain_genForCond env offset _ cond).toKeeps fun _ =>
              overruns_pushBrk _ _).cut
  | .loopFor init cond inc body, d + 1, h => by
    have hbody : d < body.depth := Nat.lt_of_succ_lt_succ h
    rw [Stmt.front, if_neg (not_le.mpr hbody)]
    refine (plain_newlabel.cut fun _ => plain_newlabel.cut fun _ => plain_newlabel.cut fun _ =>
      (plain_genForInit env offset init).cut fun _ => (plain_place _).cut fun _ =>
        (plain_genForCond env offset _ cond).cut fun _ =>
          Cut.loop _ _ ((cut_genStmt body d hbody).after ?_ ?_)).unlessFailed
    · exact idle_pops ((plain_place _).seq <| (plain_genOptional env offset inc).seq <|
        (plain_emitBudgetCheck env _).seq ((plain_emitB _).seq (plain_place _)))
    · exact fun s => sure_emitBudgetCheck env _ { s with brk := s.brk.tail, cont := s.cont.tail }
  | .switch cond cases then_, 0, _ => by
    rw [Stmt.front]
    exact (Overruns.bind plain_newlabel.toKeeps fun _ =>
      Overruns.bind (plain_genExpr env offset cond).toKeeps fun _ =>
        Overruns.bind (plain_genCases cases none).toKeeps fun _ =>
          Overruns.bind (plain_emitB _).toKeeps fun _ => overruns_pushBrk _ _).cut
  | .switch cond cases then_, d + 1, h => by
    rw [Stmt.front]
    refine (plain_newlabel.cut fun _ => (plain_genExpr env offset cond).cut fun _ =>
      (plain_genCases cases none).cut fun _ => (plain_emitB _).cut fun _ =>
        Cut.switch _ ((cut_genStmt then_ d (Nat.lt_of_succ_lt_succ h)).after ?_ ?_)).unlessFailed
    · exact fun s hs => (plain_place _).idle { s with brk := s.brk.tail } hs
    · exact fun _ => rfl
  | .labeled c lhs, d, h => by
    rw [Stmt.front]
    exact (plain_get.cut fun _ => (plain_place _).cut fun _ => cut_genStmt lhs d h).unlessFailed
  | .brk, _, h => absurd h (Nat.not_lt_zero _)
  | .cont, _, h => absurd h (Nat.not_lt_zero _)
  | .block body, d, h => by
    rw [Stmt.front]
    exact (cut_genStmts body d h).unlessFailed

theorem cut_genStmts : ∀ (sts : Stmts) (d : ℕ), d < sts.depth →
    Cut d (genStmts env offset sts) (genStmts env offset (sts.front d))
  | .nil, _, h => absurd h (Nat.not_lt_zero _)
  | .cons head next, d, h => by
    rw [Stmts.front]
    split_ifs with hhead
    · have hnext : d < next.depth := (lt_max_iff.mp h).resolve_left (not_lt.mpr hhead)
      exact Cut.before (keeps_genStmt env offset head) (within_genStmt env offset head d hhead)
        fun _ => cut_genStmts next d hnext
    · exact (cut_genStmt head d (not_le.mp hhead)).after (idle_genStmts env offset next) sure_pure

end

theorem plain_genFrame (frame : ℤ) : Plain (genFrame frame) := by
  rw [genFrame]
  split
  · split
    · exact plain_emit _
    · exact (plain_emitLoadimm _ _).seq (plain_emit _)
  · exact plain_pure _

theorem plain_storeParam (i : ℕ) (ty : Ty) : Plain (storeParam env i ty) := by
  rw [storeParam]
  split <;> exact plain_emit _

theorem plain_spillParams : ∀ (i : ℕ) (params : List Var), Plain (spillParams env offset i params)
  | _, [] => plain_pure _
  | i, p :: params => (plain_frameAddr _ _).seq <|
      (plain_storeParam env i p.ty).seq (plain_spillParams (i + 1) params)

theorem plain_genPrologue (fn : Func) : Plain (genPrologue env fn) :=
  (plain_emit _).seq <| (plain_emit _).seq <| (plain_genFrame _).seq
    (plain_spillParams env _ 0 fn.params)

theorem plain_epilogue : Plain (do
    emit (movImmSmall 0 0)
    place curLret
    emit movSpFp
    emit epilogueLdp
    emit retWord) :=
  (plain_emit _).seq <| (plain_place _).seq <| (plain_emit _).seq <| (plain_emit _).seq
    (plain_emit _)

theorem within_genFunc {fn : Func} (h : fn.body.depth ≤ 64) : Within 64 (genFunc env fn) :=
  plain_newlabel.thenWithin fun _ => (plain_genPrologue env fn).thenWithin fun _ =>
    (within_genStmt env _ fn.body 64 h).seq (keeps_genStmt env _ fn.body) plain_epilogue.within

theorem cut_genFunc {fn : Func} (h : 64 < fn.body.depth) :
    Cut 64 (genFunc env fn) (genFunc env (fn.front 64)) :=
  plain_newlabel.cut fun _ => (plain_genPrologue env fn).cut fun _ =>
    (cut_genStmt env _ fn.body 64 h).after plain_epilogue.idle fun _ => rfl

/-- The function never has more than 64 loops and `switch`es open, or an error ends the walk in
front of the first one that is too deep. -/
def Shallow (fn : Func) : Prop := fn.body.depth ≤ 64 ∨ (walkErr env (fn.front 64)).isSome

instance (fn : Func) : Decidable (Shallow env fn) := inferInstanceAs (Decidable (_ ∨ _))

/-- A function that is too deep overruns a stack or is in error. -/
theorem listing_of_deep {fn : Func} (h : 64 < fn.body.depth) :
    ((walkErr env (fn.front 64)).isSome ∧ (walkErr env fn).isSome ∧
        ∀ l ∈ listing env fn, l.InTable) ∨
      walkErr env (fn.front 64) = none ∧ ∃ l ∈ listing env fn, ¬ l.InTable :=
  cut_genFunc env h .start rfl le_rfl

/-- The loop stacks hold out exactly in shallow functions. -/
theorem shallow_iff (fn : Func) : Shallow env fn ↔ ∀ l ∈ listing env fn, l.InTable := by
  by_cases hdepth : fn.body.depth ≤ 64
  · exact iff_of_true (Or.inl hdepth) (within_genFunc env hdepth .start ⟨le_rfl, le_rfl⟩)
  · rw [Shallow, or_iff_right hdepth]
    rcases listing_of_deep env (not_le.mp hdepth) with ⟨hfront, -, hin⟩ | ⟨hfront, l, hl, hout⟩
    · exact iff_of_true hfront hin
    · exact iff_of_false (by simp [hfront]) fun hin => hout (hin l hl)

/-- A shallow function without an error is not deeper than the stacks. -/
theorem Shallow.depth_le {fn : Func} (h : Shallow env fn) (herr : walkErr env fn = none) :
    fn.body.depth ≤ 64 := by
  by_contra hdeep
  rcases listing_of_deep env (not_le.mp hdeep) with ⟨-, hfail, -⟩ | ⟨hfront, -⟩
  · simp [herr] at hfail
  · rcases h with h | h
    · exact hdeep h
    · simp [hfront] at h

end Shallow

end XinuRpi4.Compiler
