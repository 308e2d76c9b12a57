import XinuRpi4.Compiler.ParserProgress

/-!
# More fuel

A run of the parser that did not use up its fuel stays the same with more, and one that
did is the beginning of the longer run.
-/

namespace XinuRpi4.Compiler

variable {α β γ : Type}

def Outcome.state : Outcome α → PState
  | .done _ s => s
  | .stop _ s => s

/-- The run is the same, or its fuel was used up on the way. -/
def Below (o o' : Outcome α) : Prop :=
  o = o' ∨ ∃ s, o = .stop .fuel s ∧ s.heads <:+ o'.state.heads

/-- A function and the same with more fuel. -/
structure Mono (p q : P α) : Prop where
  below : ∀ s, Below (p s) (q s)
  grows : ∀ s, s.heads <:+ (q s).state.heads

namespace Mono

variable {p q : P α} {f g : α → P β}

theorem self (h : ∀ s, s.heads <:+ (p s).state.heads) : Mono p p := ⟨fun _ => Or.inl rfl, h⟩

theorem right (h : Mono p q) : Mono q q := self h.grows

theorem stop (h : Mono q q) : Mono (P.stop .fuel) q :=
  ⟨fun s => Or.inr ⟨s, rfl, h.grows s⟩, h.grows⟩

theorem bind_of (hp : Mono p q)
    (hf : ∀ s a s', q s = .done a s' → Mono (f a) (g a)) : Mono (p >>= f) (q >>= g) := by
  have hgrows : ∀ s, (q s).state.heads <:+ ((q >>= g) s).state.heads := by
    intro s
    rw [bind_eq]
    cases hq : q s with
    | done a s₁ => exact (hf s a s₁ hq).grows s₁
    | stop why s₁ => exact List.suffix_rfl
  constructor
  · intro s
    rcases hp.below s with h | ⟨s₁, h, hsuf⟩
    · rw [bind_eq, bind_eq, h]
      cases hq : q s with
      | done a s₁ => exact (hf s a s₁ hq).below s₁
      | stop why s₁ => exact Or.inl rfl
    · refine Or.inr ⟨s₁, ?_, hsuf.trans (hgrows s)⟩
      rw [bind_eq, h]
  · exact fun s => (hp.grows s).trans (hgrows s)

theorem bind (hp : Mono p q) (hf : ∀ a, Mono (f a) (g a)) : Mono (p >>= f) (q >>= g) :=
  hp.bind_of fun _ a _ _ => hf a

theorem pure (a : α) : Mono (Pure.pure a : P α) (Pure.pure a) := self fun _ => List.suffix_rfl

theorem get : Mono P.get P.get := self fun _ => List.suffix_rfl

theorem modify {f : PState → PState} (h : ∀ s, (f s).heads = s.heads) :
    Mono (P.modify f) (P.modify f) := self fun s => by
  have heq : (P.modify f s).state.heads = (f s).heads := rfl
  rw [heq, h]

theorem ite {c : Bool} {p' q' : P α} (h : Mono p q) (h' : Mono p' q') :
    Mono (if c then p else p') (if c then q else q') := by
  cases c
  · exact h'
  · exact h

/-- Recursion on fuel, with functions `A` as arguments and an accumulator `b`. -/
theorem of_step {A : Type} (Rel : A → A → Prop) (hrefl : ∀ a a', Rel a a' → Rel a' a')
    (F : A → ℕ → γ → P α) (hzero : ∀ a b, F a 0 b = P.stop .fuel)
    (hstep : ∀ a a' n m, n ≤ m → Rel a a' → (∀ b, Mono (F a n b) (F a' m b)) →
      ∀ b, Mono (F a (n + 1) b) (F a' (m + 1) b))
    {a a' : A} (ha : Rel a a') {n m : ℕ} (hnm : n ≤ m) (b : γ) : Mono (F a n b) (F a' m b) := by
  induction m generalizing a a' n b with
  | zero =>
    obtain rfl : n = 0 := by omega
    rw [hzero, hzero]
    exact self fun _ => List.suffix_rfl
  | succ m ih =>
    cases n with
    | zero =>
      rw [hzero]
      have ha' := hrefl a a' ha
      exact stop (hstep a' a' m m le_rfl ha' (fun b => ih ha' le_rfl b) b)
    | succ n => exact hstep a a' n m (by omega) ha (fun b => ih ha (by omega) b) b

/-- Recursion on fuel alone. -/
theorem of_fuel (F : ℕ → γ → P α) (hzero : ∀ b, F 0 b = P.stop .fuel)
    (hstep : ∀ n m, n ≤ m → (∀ b, Mono (F n b) (F m b)) → ∀ b, Mono (F (n + 1) b) (F (m + 1) b))
    {n m : ℕ} (hnm : n ≤ m) (b : γ) : Mono (F n b) (F m b) :=
  of_step (@Eq Unit) (fun _ _ _ => rfl) (fun _ => F) (fun _ => hzero)
    (fun _ _ n m h _ => hstep n m h) (Eq.refl ()) hnm b

end Mono

section Primitives

theorem mono_cur : Mono cur cur := Mono.self fun s => by
  unfold cur
  split <;> exact List.suffix_rfl

theorem mono_advance : Mono advance advance := Mono.self fun s => by
  unfold advance
  split <;> exact List.suffix_rfl

theorem mono_ccError (msg : String) : Mono (ccError msg) (ccError msg) :=
  Mono.self fun _ => List.suffix_rfl

theorem mono_check (c : Bool) (msg : String) : Mono (check c msg) (check c msg) :=
  (Mono.pure ()).ite (mono_ccError msg)

theorem mono_expect (t : String) : Mono (expect t) (expect t) := Mono.self fun s => by
  unfold expect
  split_ifs
  · exact mono_advance.grows s
  · exact (mono_ccError _).grows s

theorem mono_consume (t : String) : Mono (consume t) (consume t) := Mono.self fun s => by
  unfold consume
  split_ifs <;> exact List.suffix_rfl

theorem mono_atPunct (t : String) : Mono (atPunct t) (atPunct t) :=
  Mono.self fun _ => List.suffix_rfl

theorem mono_logHead (k : LoopKind) : Mono (logHead k) (logHead k) :=
  Mono.self fun s => List.suffix_cons (k, s.tk) s.heads

theorem mono_logLength : Mono logLength logLength := Mono.modify fun _ => rfl

theorem mono_ccAlloc (n : ℕ) : Mono (ccAlloc n) (ccAlloc n) := Mono.self fun s => by
  unfold ccAlloc
  dsimp only
  split_ifs <;> exact List.suffix_rfl

theorem Silent.mono {p : P α} (hp : Silent p) : Mono p p := Mono.self fun s => by
  have h := hp s
  cases hps : p s with
  | done a s' =>
    rw [hps] at h
    exact h.heads ▸ List.suffix_rfl
  | stop why s' =>
    rw [hps] at h
    exact h.2.heads ▸ List.suffix_rfl

end Primitives

section Types

theorem starLoop_mono {n m : ℕ} (h : n ≤ m) (ty : Ty) : Mono (starLoop n ty) (starLoop m ty) := by
  refine Mono.of_fuel starLoop (fun _ => rfl) (fun n m _ ih ty => ?_) h ty
  refine (mono_atPunct _).bind fun c => Mono.ite ?_ (Mono.pure _)
  exact mono_advance.bind fun _ => (silent_tyPtrTo _).mono.bind fun ty' => ih ty'

theorem arraySuffix_mono (ty : Ty) : Mono (arraySuffix ty) (arraySuffix ty) := by
  refine (mono_consume _).bind fun c => Mono.ite ?_ (Mono.pure _)
  exact mono_logLength.bind fun _ => mono_cur.bind fun t => (mono_check _ _).bind fun _ =>
    mono_advance.bind fun _ => (mono_expect _).bind fun _ => (silent_tyArrayOf _ _).mono

theorem baseType_mono {d d' : P Ty} (hd : Mono d d') : Mono (baseType d) (baseType d') := by
  refine (mono_consume _).bind fun c => Mono.ite (Mono.pure _) ?_
  refine (mono_consume _).bind fun c => Mono.ite (Mono.pure _) ?_
  refine (mono_consume _).bind fun c => Mono.ite (hd.bind fun _ => Mono.pure _) ?_
  refine mono_cur.bind fun t => Mono.get.bind fun s => ?_
  split
  · exact mono_advance.bind fun _ => Mono.pure _
  · exact (mono_ccError _).bind fun _ => Mono.pure _

theorem declspecWith_mono {d d' : P Ty} (hd : Mono d d') {n m : ℕ} (h : n ≤ m) :
    Mono (declspecWith d n) (declspecWith d' m) := by
  refine (baseType_mono hd).bind fun o => ?_
  cases o with
  | none => exact Mono.pure _
  | some ty => exact starLoop_mono h ty

theorem memberLoop_mono {d d' : P Ty} (hd : Mono d d') {n m : ℕ} (h : n ≤ m) (off : ℤ)
    (ms : List Member) : Mono (memberLoop d n off ms) (memberLoop d' m off ms) := by
  refine Mono.of_step Mono (fun _ _ h => h.right) (fun d n (b : ℤ × List Member) =>
    memberLoop d n b.1 b.2) (fun _ _ => rfl) (fun d d' n m _ hd ih b => ?_) hd h (off, ms)
  refine (mono_logHead _).bind fun _ => (mono_atPunct _).bind fun c => ?_
  refine Mono.ite (Mono.pure _) (mono_cur.bind fun t => ?_)
  split_ifs
  · exact Mono.pure _
  refine hd.bind fun mty => mono_cur.bind fun u => ?_
  split_ifs
  · exact (mono_ccError _).bind fun _ => Mono.pure _
  refine mono_advance.bind fun _ => (arraySuffix_mono mty).bind fun mty' => ?_
  refine (mono_expect _).bind fun _ => Mono.get.bind fun s => (mono_ccAlloc _).bind fun _ => ?_
  exact ih (_, _)

theorem structBody_mono {d d' : P Ty} (hd : Mono d d') {n m : ℕ} (h : n ≤ m)
    (tag : Option String) : Mono (structBody d n tag) (structBody d' m tag) := by
  refine (mono_ccAlloc _).bind fun _ => Mono.get.bind fun s => ?_
  dsimp only
  refine Mono.bind (Mono.modify ?_) fun _ => (silent_registerTag _ _).mono.bind fun _ => ?_
  · exact fun _ => rfl
  refine (memberLoop_mono hd h _ _).bind fun res => (mono_expect _).bind fun _ => ?_
  refine Mono.bind (Mono.modify ?_) fun _ => Mono.pure _
  exact fun _ => rfl

theorem structDecl_mono {n m : ℕ} (h : n ≤ m) : Mono (structDecl n) (structDecl m) := by
  refine Mono.of_fuel (fun n (_ : Unit) => structDecl n) (fun _ => rfl)
    (fun n m hnm ih _ => ?_) h ()
  have htag : Mono structTag structTag := mono_cur.bind fun t => by
    split_ifs
    · exact mono_advance.bind fun _ => Mono.pure _
    · exact Mono.pure _
  refine htag.bind fun tag => (mono_atPunct _).bind fun c => Mono.ite ?_ (silent_structRef tag).mono
  exact mono_advance.bind fun _ => structBody_mono (declspecWith_mono (ih ()) hnm) hnm tag

theorem declspec_mono {n m : ℕ} (h : n ≤ m) : Mono (declspec n) (declspec m) :=
  declspecWith_mono (structDecl_mono h) h

end Types

section Expressions

variable {assign assign' : P Expr} {n m : ℕ}

theorem argLoop_mono (ha : Mono assign assign') (h : n ≤ m) :
    Mono (argLoop assign n) (argLoop assign' m) := by
  refine Mono.of_step Mono (fun _ _ h => h.right) (fun p n (_ : Unit) => argLoop p n)
    (fun _ _ => rfl) (fun p p' n m _ hp ih _ => ?_) ha h ()
  refine hp.bind fun a => (mono_consume _).bind fun c => Mono.ite ?_ (Mono.pure _)
  exact (ih ()).bind fun _ => Mono.pure _

theorem callRest_mono (ha : Mono assign assign') (h : n ≤ m) (name : String) :
    Mono (callRest assign n name) (callRest assign' m name) := by
  refine silent_newNode.mono.bind fun _ => (mono_atPunct _).bind fun c => Mono.ite ?_ ?_
  · exact (mono_expect _).bind fun _ => Mono.pure _
  · exact (argLoop_mono ha h).bind fun _ => (mono_expect _).bind fun _ => Mono.pure _

theorem primary_mono (ha : Mono assign assign') (h : n ≤ m) :
    Mono (primary assign n) (primary assign' m) := by
  refine (mono_consume _).bind fun c => Mono.ite ?_ ?_
  · exact ha.bind fun e => (mono_expect _).bind fun _ => Mono.pure _
  refine mono_cur.bind fun t => ?_
  cases t.kind with
  | num => exact (silent_newNum _).mono.bind fun _ => mono_advance.bind fun _ => Mono.pure _
  | str =>
    exact silent_newNode.mono.bind fun _ => (silent_tyPtrTo _).mono.bind fun _ =>
      mono_advance.bind fun _ => Mono.pure _
  | ident =>
    refine mono_advance.bind fun _ => (mono_consume _).bind fun c => Mono.ite ?_ ?_
    · exact callRest_mono ha h _
    · exact (silent_varRef _).mono
  | punct | kw | eof => exact (mono_ccError _).bind fun _ => (silent_newNum _).mono

theorem postfixLoop_mono (ha : Mono assign assign') (h : n ≤ m) (e : Expr) :
    Mono (postfixLoop assign n e) (postfixLoop assign' m e) := by
  refine Mono.of_step Mono (fun _ _ h => h.right) (fun p n e => postfixLoop p n e)
    (fun _ _ => rfl) (fun p p' n m _ hp ih e => ?_) ha h e
  refine (mono_atPunct _).bind fun c => Mono.ite ?_ ?_
  · exact mono_advance.bind fun _ => hp.bind fun idx => (mono_expect _).bind fun _ =>
      (silent_newIndex _ _).mono.bind fun e' => ih e'
  refine (mono_atPunct _).bind fun c => Mono.ite ?_ ?_
  · refine mono_advance.bind fun _ => mono_cur.bind fun t => ?_
    split_ifs
    · exact (mono_ccError _).bind fun _ => Mono.pure _
    refine (silent_memberOf _ _).mono.bind fun o => mono_advance.bind fun _ => ?_
    cases o with
    | none => exact (mono_ccError _).bind fun _ => Mono.pure _
    | some x => exact silent_newNode.mono.bind fun _ => ih _
  refine (mono_atPunct _).bind fun c => Mono.ite ?_ (Mono.pure _)
  refine mono_advance.bind fun _ => mono_cur.bind fun t => ?_
  split_ifs
  · exact (mono_ccError _).bind fun _ => Mono.pure _
  dsimp only
  refine (silent_memberOf _ _).mono.bind fun o => mono_advance.bind fun _ => ?_
  cases o with
  | none => exact (mono_ccError _).bind fun _ => Mono.pure _
  | some x => exact silent_newNode.mono.bind fun _ => silent_newNode.mono.bind fun _ => ih _

theorem sizeofRest_mono {u u' : P Expr} (hu : Mono u u') (h : n ≤ m) :
    Mono (sizeofRest n u) (sizeofRest m u') := by
  refine Mono.get.bind fun s => Mono.ite ?_ ?_
  · exact mono_advance.bind fun _ => (declspec_mono h).bind fun _ => (mono_expect _).bind fun _ =>
      Mono.get.bind fun _ => (silent_newNum _).mono
  · exact hu.bind fun _ => Mono.get.bind fun _ => (silent_newNum _).mono

theorem unary_mono (ha : Mono assign assign') (h : n ≤ m) :
    Mono (unary assign n) (unary assign' m) := by
  refine Mono.of_step Mono (fun _ _ h => h.right) (fun p n (_ : Unit) => unary p n)
    (fun _ _ => rfl) (fun p p' n m hnm hp ih _ => ?_) ha h ()
  have hu := ih ()
  refine (mono_consume _).bind fun c => Mono.ite (sizeofRest_mono hu hnm) ?_
  refine (mono_consume _).bind fun c => Mono.ite hu ?_
  refine (mono_consume _).bind fun c => Mono.ite ?_ ?_
  · exact silent_newNode.mono.bind fun _ => hu.bind fun _ => Mono.pure _
  refine (mono_consume _).bind fun c => Mono.ite ?_ ?_
  · exact silent_newNode.mono.bind fun _ => hu.bind fun _ => Mono.pure _
  refine (mono_consume _).bind fun c => Mono.ite ?_ ?_
  · exact silent_newNode.mono.bind fun _ => hu.bind fun _ => (silent_newDeref _).mono
  refine (mono_consume _).bind fun c => Mono.ite ?_ ?_
  · exact silent_newNode.mono.bind fun _ => hu.bind fun _ =>
      (silent_tyPtrTo _).mono.bind fun _ => Mono.pure _
  · exact (primary_mono hp hnm).bind fun e => postfixLoop_mono hp hnm e

theorem consumeOp_mono (ops : List (String × β)) : Mono (consumeOp ops) (consumeOp ops) := by
  induction ops with
  | nil => exact Mono.pure _
  | cons o ops ih => exact (mono_consume _).bind fun c => Mono.ite (Mono.pure _) ih

theorem consumeOp_mem {ops : List (String × β)} {s s' : PState} {mk : β}
    (h : consumeOp ops s = .done (some mk) s') : ∃ x, (x, mk) ∈ ops := by
  induction ops generalizing s with
  | nil => cases h
  | cons o ops ih =>
    rw [consumeOp, bind_eq] at h
    cases hc : consume o.1 s with
    | stop why s₁ =>
      rw [hc] at h
      cases h
    | done c s₁ =>
      rw [hc] at h
      cases c with
      | true =>
        cases h
        exact ⟨o.1, List.mem_cons_self ..⟩
      | false =>
        obtain ⟨x, hx⟩ := ih h
        exact ⟨x, List.mem_cons_of_mem _ hx⟩

section Levels

variable {ops : List (String × (Expr → Expr → P Expr))} {sub sub' : P Expr}

theorem leftLoop_mono (hops : ∀ o ∈ ops, ∀ l e, Silent (o.2 l e)) (hsub : Mono sub sub')
    (h : n ≤ m) (l : Expr) : Mono (leftLoop ops sub n l) (leftLoop ops sub' m l) := by
  refine Mono.of_step Mono (fun _ _ h => h.right) (fun p n l => leftLoop ops p n l)
    (fun _ _ => rfl) (fun p p' n m _ hp ih l => ?_) hsub h l
  refine (consumeOp_mono ops).bind_of fun s o s' ho => ?_
  cases o with
  | none => exact Mono.pure _
  | some mk =>
    obtain ⟨x, hx⟩ := consumeOp_mem ho
    exact hp.bind fun e => (hops _ hx l e).mono.bind fun l' => ih l'

theorem leftLevel_mono (hops : ∀ o ∈ ops, ∀ l e, Silent (o.2 l e)) (hsub : Mono sub sub')
    (h : n ≤ m) : Mono (leftLevel ops sub n) (leftLevel ops sub' m) :=
  hsub.bind fun l => leftLoop_mono hops hsub h l

end Levels

theorem logor_mono (ha : Mono assign assign') (h : n ≤ m) :
    Mono (logor assign n) (logor assign' m) := by
  refine leftLevel_mono silent_orOps (leftLevel_mono silent_andOps (leftLevel_mono silent_eqOps
    (leftLevel_mono silent_relOps (leftLevel_mono silent_addOps
      (leftLevel_mono silent_mulOps (unary_mono ha h) h) h) h) h) h) h

end Expressions

theorem assign_mono {n m : ℕ} (h : n ≤ m) : Mono (assign n) (assign m) := by
  refine Mono.of_fuel (fun n (_ : Unit) => assign n) (fun _ => rfl) (fun n m hnm ih _ => ?_) h ()
  refine (logor_mono (ih ()) hnm).bind fun l => (mono_consume _).bind fun c => Mono.ite ?_ (Mono.pure _)
  exact silent_newNode.mono.bind fun _ => (ih ()).bind fun _ => Mono.pure _

section Statements

variable {n m : ℕ}

theorem exprStmt_mono (h : n ≤ m) : Mono (exprStmt n) (exprStmt m) :=
  silent_newNode.mono.bind fun _ => (assign_mono h).bind fun _ => (mono_expect _).bind fun _ =>
    Mono.pure _

theorem initializer_mono (h : n ≤ m) (v : Var) : Mono (initializer n v) (initializer m v) := by
  refine (mono_consume _).bind fun c => Mono.ite ?_ (Mono.pure _)
  exact silent_newNode.mono.bind fun _ => silent_newNode.mono.bind fun _ =>
    (assign_mono h).bind fun _ => silent_newNode.mono.bind fun _ => Mono.pure _

theorem declaration_mono (h : n ≤ m) : Mono (declaration n) (declaration m) := by
  refine (declspec_mono h).bind fun base => mono_cur.bind fun t => ?_
  split_ifs
  · exact (mono_ccError _).bind fun _ => silent_newNode.mono.bind fun _ => Mono.pure _
  · exact mono_advance.bind fun _ => (arraySuffix_mono base).bind fun ty =>
      (silent_newLocal _ ty).mono.bind fun v => silent_newNode.mono.bind fun _ =>
        (initializer_mono h v).bind fun _ => (mono_expect _).bind fun _ => Mono.pure _

theorem condition_mono (h : n ≤ m) : Mono (condition n) (condition m) :=
  (mono_expect _).bind fun _ => (assign_mono h).bind fun _ => (mono_expect _).bind fun _ =>
    Mono.pure _

theorem forInit_mono (h : n ≤ m) : Mono (forInit n) (forInit m) := by
  refine (mono_consume _).bind fun c => Mono.ite (Mono.pure _) ?_
  exact silent_newNode.mono.bind fun _ => (assign_mono h).bind fun _ => (mono_expect _).bind fun _ =>
    Mono.pure _

theorem forExpr_mono (h : n ≤ m) (close : String) : Mono (forExpr n close) (forExpr m close) := by
  refine (mono_atPunct _).bind fun c => Mono.ite ?_ ?_
  · exact (mono_expect _).bind fun _ => Mono.pure _
  · exact (assign_mono h).bind fun _ => (mono_expect _).bind fun _ => Mono.pure _

theorem signedConst_mono (msg : String) : Mono (signedConst msg) (signedConst msg) := by
  have hsign : Mono minusSign minusSign := by
    refine (mono_atPunct _).bind fun c => Mono.ite ?_ (Mono.pure _)
    exact mono_advance.bind fun _ => Mono.pure _
  refine hsign.bind fun neg => mono_cur.bind fun t => ?_
  split_ifs
  · exact mono_advance.bind fun _ => Mono.pure _
  · exact mono_advance.bind fun _ => Mono.pure _
  · exact (mono_ccError _).bind fun _ => Mono.pure _

theorem switchBody_mono {p q : P Stmt} (h : Mono p q) : Mono (switchBody p) (switchBody q) := by
  refine Mono.get.bind fun s => ?_
  dsimp only
  refine Mono.bind (Mono.modify ?_) fun _ => h.bind fun body => Mono.get.bind fun s' => ?_
  · exact fun _ => rfl
  refine Mono.bind (Mono.modify ?_) fun _ => Mono.pure _
  exact fun _ => rfl

theorem blockLoop_mono {p q : P Stmt} (h : Mono p q) (hnm : n ≤ m) :
    Mono (blockLoop p n) (blockLoop q m) := by
  refine Mono.of_step Mono (fun _ _ h => h.right) (fun p n (_ : Unit) => blockLoop p n)
    (fun _ _ => rfl) (fun p p' n m _ hp ih _ => ?_) h hnm ()
  refine (mono_logHead _).bind fun _ => (mono_atPunct _).bind fun c => ?_
  refine Mono.ite (Mono.pure _) (mono_cur.bind fun t => ?_)
  split_ifs
  · exact Mono.pure _
  · exact hp.bind fun st => (ih ()).bind fun _ => Mono.pure _

theorem blockItem_mono {p q : P Stmt} (h : Mono p q) (hnm : n ≤ m) :
    Mono (blockItem n p) (blockItem m q) :=
  Mono.get.bind fun _ => (declaration_mono hnm).ite h

theorem stmt_mono (h : n ≤ m) : Mono (stmt n) (stmt m) := by
  refine Mono.of_fuel (fun n (_ : Unit) => stmt n) (fun _ => rfl) (fun n m hnm ih _ => ?_) h ()
  have hs := ih ()
  refine (mono_consume _).bind fun c => Mono.ite ?_ ?_
  · exact silent_newNode.mono.bind fun _ => (assign_mono hnm).bind fun _ =>
      (mono_expect _).bind fun _ => Mono.pure _
  refine (mono_consume _).bind fun c => Mono.ite ?_ ?_
  · refine silent_newNode.mono.bind fun _ => (condition_mono hnm).bind fun _ => hs.bind fun _ => ?_
    refine (mono_consume _).bind fun c => Mono.ite ?_ (Mono.pure _)
    exact hs.bind fun _ => Mono.pure _
  refine (mono_consume _).bind fun c => Mono.ite ?_ ?_
  · exact silent_newNode.mono.bind fun _ => (condition_mono hnm).bind fun _ => hs.bind fun _ =>
      Mono.pure _
  refine (mono_consume _).bind fun c => Mono.ite ?_ ?_
  · exact silent_newNode.mono.bind fun _ => (mono_expect _).bind fun _ =>
      (forInit_mono hnm).bind fun _ => (forExpr_mono hnm _).bind fun _ =>
        (forExpr_mono hnm _).bind fun _ => hs.bind fun _ => Mono.pure _
  refine (mono_consume _).bind fun c => Mono.ite ?_ ?_
  · exact silent_newNode.mono.bind fun _ => (condition_mono hnm).bind fun _ =>
      (switchBody_mono hs).bind fun _ => Mono.pure _
  refine (mono_consume _).bind fun c => Mono.ite ?_ ?_
  · exact (silent_insideSwitch _).mono.bind fun _ => (signedConst_mono _).bind fun _ =>
      (mono_expect _).bind fun _ => (silent_newCase _ _).mono.bind fun _ => hs.bind fun _ =>
        Mono.pure _
  refine (mono_consume _).bind fun c => Mono.ite ?_ ?_
  · exact (silent_insideSwitch _).mono.bind fun _ => (mono_expect _).bind fun _ =>
      (silent_newCase _ _).mono.bind fun _ => hs.bind fun _ => Mono.pure _
  refine (mono_consume _).bind fun c => Mono.ite ?_ ?_
  · exact (mono_expect _).bind fun _ => silent_newNode.mono.bind fun _ => Mono.pure _
  refine (mono_consume _).bind fun c => Mono.ite ?_ ?_
  · exact (mono_expect _).bind fun _ => silent_newNode.mono.bind fun _ => Mono.pure _
  refine (mono_atPunct _).bind fun c => Mono.ite ?_ (exprStmt_mono hnm)
  exact mono_advance.bind fun _ => silent_newNode.mono.bind fun _ =>
    (blockLoop_mono (blockItem_mono hs hnm) hnm).bind fun _ => (mono_expect _).bind fun _ =>
      Mono.pure _

end Statements

section Declarations

variable {n m : ℕ}

theorem paramLoop_mono (hnm : n ≤ m) {i j : ℕ} (hij : i ≤ j) (ps : List Var) :
    Mono (paramLoop n i ps) (paramLoop m j ps) := by
  refine Mono.of_step (fun a b : ℕ => a ≤ b) (fun _ _ _ => le_rfl) (fun a k ps => paramLoop a k ps)
    (fun _ _ => rfl) (fun a a' i j _ ha ih ps => ?_) hnm hij ps
  refine (declspec_mono ha).bind fun pty => mono_cur.bind fun t => ?_
  split_ifs
  · exact (mono_ccError _).bind fun _ => Mono.pure _
  · refine mono_advance.bind fun _ => (silent_newLocal _ _).mono.bind fun v => ?_
    exact (mono_consume _).bind fun c => Mono.ite (ih _) (Mono.pure _)

theorem paramList_mono (h : n ≤ m) : Mono (paramList n) (paramList m) := by
  refine (mono_expect _).bind fun _ => (mono_atPunct _).bind fun c => Mono.ite ?_ ?_
  · exact (mono_expect _).bind fun _ => Mono.pure _
  · exact (paramLoop_mono h h _).bind fun _ => (mono_expect _).bind fun _ => Mono.pure _

theorem functionRest_mono (h : n ≤ m) (ret : Ty) (name : String) :
    Mono (functionRest n ret name) (functionRest m ret name) := by
  refine (mono_ccAlloc _).bind fun _ => Mono.bind (Mono.modify ?_) fun _ => ?_
  · exact fun _ => rfl
  refine (paramList_mono h).bind fun ps => (mono_check _ _).bind fun _ => ?_
  refine (mono_atPunct _).bind fun c => Mono.ite ?_ ?_
  · exact (stmt_mono h).bind fun _ => Mono.get.bind fun _ => Mono.pure _
  · exact (mono_ccError _).bind fun _ => Mono.pure _

theorem storeInit_mono (ty : Ty) (v : Var) (val : Word) :
    Mono (storeInit ty v val) (storeInit ty v val) := by
  unfold storeInit
  cases v.place with
  | frame _ => exact Mono.pure _
  | global p => exact Mono.modify fun _ => rfl

theorem globalDecl_mono (base : Ty) (name : String) :
    Mono (globalDecl base name) (globalDecl base name) := by
  have hinit : ∀ ty v, Mono (globalInit ty v) (globalInit ty v) := fun ty v =>
    (mono_consume _).bind fun c => Mono.ite
      ((signedConst_mono _).bind fun val => storeInit_mono ty v val) (Mono.pure _)
  exact (arraySuffix_mono base).bind fun ty => (silent_newGlobal name ty).mono.bind fun v =>
    (hinit ty v).bind fun _ => mono_expect _

theorem ccFailed_mono : Mono ccFailed ccFailed := Mono.self fun _ => List.suffix_rfl

theorem typedefRest_mono (h : n ≤ m) : Mono (typedefRest n) (typedefRest m) := by
  refine (declspec_mono h).bind fun ty => mono_cur.bind fun t => ?_
  split_ifs
  · exact (mono_ccError _).bind fun _ => Mono.pure _
  · exact (silent_registerTypedef _ _).mono.bind fun _ => mono_advance.bind fun _ =>
      (mono_expect _).bind fun _ => Mono.pure _

theorem topRest_mono (h : n ≤ m) (base : Ty) : Mono (topRest n base) (topRest m base) := by
  refine mono_cur.bind fun t => ?_
  split_ifs
  · exact (mono_ccError _).bind fun _ => Mono.pure _
  refine mono_advance.bind fun _ => (mono_atPunct _).bind fun c => Mono.ite ?_ ?_
  · exact (functionRest_mono h _ _).bind fun _ => ccFailed_mono.bind fun _ => Mono.pure _
  · exact (globalDecl_mono _ _).bind fun _ => ccFailed_mono.bind fun _ => Mono.pure _

theorem topLoop_mono (h : n ≤ m) (fns : List Func) : Mono (topLoop n fns) (topLoop m fns) := by
  refine Mono.of_fuel topLoop (fun _ => rfl) (fun n m hnm ih fns => ?_) h fns
  refine Mono.get.bind fun s => ?_
  cases s.tk with
  | nil => exact Mono.pure _
  | cons t r =>
    dsimp only
    split_ifs
    · exact Mono.pure _
    refine (mono_consume _).bind fun c => Mono.ite ?_ ?_
    · exact (typedefRest_mono hnm).bind fun c => Mono.ite (ih fns) (Mono.pure _)
    refine (declspec_mono hnm).bind fun base => (mono_consume _).bind fun c => Mono.ite (ih fns) ?_
    refine (topRest_mono hnm base).bind fun o => ?_
    cases o with
    | none => exact Mono.pure _
    | some new => exact ih _

/-- What a run of `cc_parse` has done stays done with more fuel. -/
theorem ccParse_below (h : n ≤ m) (toks : List Token) (arena : Arena) :
    Below (ccParse n toks arena) (ccParse m toks arena) :=
  (topLoop_mono h []).below _

end Declarations

end XinuRpi4.Compiler
