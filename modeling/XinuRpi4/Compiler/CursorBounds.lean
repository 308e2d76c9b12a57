import XinuRpi4.Compiler.ParserTermination

/-!
# Where the cursor of the parser leaves the token list

A token is skipped behind a test of its kind, which fails at the last token, with one
exception: the length of an array is skipped before anything is known of it. So the
cursor leaves the list exactly where a `[` in front of a length is the last token but one.
-/

namespace XinuRpi4.Compiler

variable {α β : Type} {toks : List Token} {s : PState} {t : Token} {r : List Token}

/-- An array length has been read at the last token. -/
def Overshot (s : PState) : Prop := ∃ e, [e] ∈ s.lengths

/-- The cursor is on the list, or null behind an array length that was the last token. -/
structure Tracks (toks : List Token) (s : PState) : Prop where
  suffix : s.tk <:+ toks
  null_iff : s.tk = [] ↔ Overshot s

/-- What a call that keeps track of the cursor ends with. -/
def Tracked (toks : List Token) : Outcome α → Prop
  | .done _ s => Tracks toks s
  | .stop why s => Tracks toks s ∧ (why = .null → Overshot s)

/-- A call that keeps track of the cursor. -/
def Keeps (toks : List Token) (p : P α) : Prop := ∀ s, Tracks toks s → Tracked toks (p s)

/-- A call that does so in front of the token `t`. -/
def KeepsAt (toks : List Token) (t : Token) (p : P α) : Prop :=
  ∀ s r, s.tk = t :: r → Tracks toks s → Tracked toks (p s)

theorem Tracks.congr {s' : PState} (h : Tracks toks s) (hs : SameCursor s s') : Tracks toks s' := by
  have hover : Overshot s' ↔ Overshot s := by simp only [Overshot, hs.lengths]
  exact ⟨hs.tk ▸ h.suffix, by rw [hs.tk, hover, h.null_iff]⟩

theorem Ends.of_suffix {T : List Token} (h : Ends toks) (hT : T <:+ toks) (hne : T ≠ []) :
    Ends T := by
  obtain ⟨pre, e, rfl, he⟩ := h
  obtain ⟨skipped, heq⟩ := hT
  obtain ⟨T', e', rfl⟩ := (List.eq_nil_or_concat' T).resolve_left hne
  rw [← List.append_assoc] at heq
  have hlast := (List.append_inj' heq rfl).2
  rw [List.cons.injEq] at hlast
  exact ⟨T', e', rfl, hlast.1 ▸ he⟩

theorem Tracks.not_overshot (h : Tracks toks s) (htk : s.tk = t :: r) : ¬ Overshot s := by
  rw [← h.null_iff, htk]
  exact List.cons_ne_nil t r

theorem Tracks.tail_ne_nil (h : Tracks toks s) (hends : Ends toks) (htk : s.tk = t :: r)
    (ht : t.kind ≠ .eof) : r ≠ [] := by
  have hsuf : t :: r <:+ toks := htk ▸ h.suffix
  exact ((hends.of_suffix hsuf (List.cons_ne_nil t r)).tail ht).ne_nil

/-- A token other than the last is skipped. -/
theorem Tracks.skip (h : Tracks toks s) (hends : Ends toks) (htk : s.tk = t :: r)
    (ht : t.kind ≠ .eof) : Tracks toks { s with tk := r } := by
  have hsuf : t :: r <:+ toks := htk ▸ h.suffix
  exact ⟨(List.suffix_cons t r).trans hsuf,
    iff_of_false (h.tail_ne_nil hends htk ht) (h.not_overshot htk)⟩

/-- An array length is skipped, whatever token it is. -/
theorem Tracks.skipLength (h : Tracks toks s) {u : Token} (htk : s.tk = t :: u :: r)
    {s' : PState} (htk' : s'.tk = r) (hlen : s'.lengths = (u :: r) :: s.lengths) :
    Tracks toks s' := by
  have hsuf : t :: u :: r <:+ toks := htk ▸ h.suffix
  refine ⟨?_, ?_⟩
  · rw [htk']
    exact (List.suffix_cons u r).trans ((List.suffix_cons t _).trans hsuf)
  rw [htk', Overshot, hlen]
  constructor
  · rintro rfl
    exact ⟨u, List.mem_cons_self ..⟩
  · rintro ⟨e, he⟩
    rcases List.mem_cons.mp he with heq | hmem
    · rw [List.cons.injEq] at heq
      exact heq.2.symm
    · exact absurd ⟨e, hmem⟩ (h.not_overshot htk)

theorem check_done (c : Bool) (msg : String) (s : PState) :
    ∃ s', check c msg s = .done () s' ∧ SameCursor s s' := by
  cases c
  · exact ⟨_, rfl, rfl, rfl, rfl⟩
  · exact ⟨s, rfl, SameCursor.refl s⟩

section Rules

variable {p : P α} {f : α → P β}

/-- The second call may rely on what the first answers. -/
theorem Keeps.bind_of (hp : Keeps toks p)
    (hf : ∀ s a s', p s = .done a s' → Keeps toks (f a)) : Keeps toks (p >>= f) := by
  intro s hs
  have htr := hp s hs
  rw [bind_eq]
  cases hps : p s with
  | done a s₁ =>
    rw [hps] at htr
    exact hf s a s₁ hps s₁ htr
  | stop why s₁ =>
    rw [hps] at htr
    exact htr

theorem Keeps.bind (hp : Keeps toks p) (hf : ∀ a, Keeps toks (f a)) : Keeps toks (p >>= f) :=
  hp.bind_of fun _ a _ _ => hf a

theorem Silent.tracked (hp : Silent p) (hs : Tracks toks s) : Tracked toks (p s) := by
  have h := hp s
  cases hps : p s with
  | done a s' =>
    rw [hps] at h
    exact hs.congr h
  | stop why s' =>
    rw [hps] at h
    refine ⟨hs.congr h.2, fun hwhy => ?_⟩
    rw [h.1] at hwhy
    cases hwhy

theorem Silent.keeps (hp : Silent p) : Keeps toks p := fun _ hs => hp.tracked hs

theorem keeps_pure (a : α) : Keeps toks (Pure.pure a : P α) := (silent_pure a).keeps

theorem keeps_get : Keeps toks P.get := silent_get.keeps

theorem keeps_outOfFuel : Keeps toks (P.stop .fuel : P α) := by
  refine fun s hs => ⟨hs, fun h => ?_⟩
  cases h

theorem Keeps.ite {c : Bool} {q q' : P α} (h : Keeps toks q) (h' : Keeps toks q') :
    Keeps toks (if c then q else q') := by
  cases c
  · exact h'
  · exact h

theorem Keeps.at (h : Keeps toks p) : KeepsAt toks t p := fun s _ _ hs => h s hs

/-- A name is skipped only as an identifier. -/
theorem KeepsAt.name {q : P α} (hp : Keeps toks p) (hq : t.kind = .ident → KeepsAt toks t q) :
    KeepsAt toks t (if t.kind ≠ .ident then p else q) := by
  split_ifs with hk
  · exact hp.at
  · exact hq (not_not.mp hk)

theorem KeepsAt.silent (hp : Silent p) (hf : ∀ a, KeepsAt toks t (f a)) :
    KeepsAt toks t (p >>= f) := by
  intro s r htk hs
  have h := hp s
  have htr := hp.tracked hs
  rw [bind_eq]
  cases hps : p s with
  | done a s₁ =>
    rw [hps] at h htr
    exact hf a s₁ r (h.tk.trans htk) htr
  | stop why s₁ =>
    rw [hps] at htr
    exact htr

end Rules

section Cursor

variable {x : String}

theorem keeps_atPunct : Keeps toks (atPunct x) := fun _ hs => hs

theorem keeps_logHead (k : LoopKind) : Keeps toks (logHead k) :=
  fun _ hs => ⟨hs.suffix, hs.null_iff⟩

theorem Keeps.cur {f : Token → P β} (hf : ∀ t, KeepsAt toks t (f t)) : Keeps toks (cur >>= f) := by
  intro s hs
  rw [bind_eq, Compiler.cur]
  cases htk : s.tk with
  | nil => exact ⟨hs, fun _ => hs.null_iff.mp htk⟩
  | cons t r => exact hf t s r htk hs

variable (hends : Ends toks)
include hends

theorem KeepsAt.advance {f : Unit → P β} (ht : t.kind ≠ .eof) (hf : Keeps toks (f ())) :
    KeepsAt toks t (advance >>= f) := by
  intro s r htk hs
  rw [bind_eq, Compiler.advance, htk]
  exact hf _ (hs.skip hends htk ht)

/-- A punctuator that has been found at the cursor is skipped. -/
theorem Keeps.skip {f : Unit → P β} {q : P β} (hf : Keeps toks (f ())) (hq : Keeps toks q) :
    Keeps toks (atPunct x >>= fun c => if c = true then advance >>= f else q) := by
  intro s hs
  rw [bind_eq, atPunct]
  cases htk : s.tk with
  | nil => exact hq s hs
  | cons t r =>
    by_cases ht : t.kind = .punct ∧ t.text = x
    · rw [isPunct, decide_eq_true ht]
      exact KeepsAt.advance hends (by rw [ht.1]; decide) hf s r htk hs
    · rw [isPunct, decide_eq_false ht]
      exact hq s hs

theorem keeps_consume : Keeps toks (consume x) := by
  intro s hs
  rw [consume]
  cases htk : s.tk with
  | nil => exact hs
  | cons t r =>
    by_cases ht : Takes x t
    · rw [if_pos ((takes_iff x t r).mpr ht)]
      exact hs.skip hends htk ht.ne_eof
    · rw [if_neg fun h => ht ((takes_iff x t r).mp h)]
      exact hs

theorem keeps_expect : Keeps toks (expect x) := by
  intro s hs
  rw [expect]
  cases htk : s.tk with
  | nil => exact (silent_ccError _).tracked hs
  | cons t r =>
    by_cases ht : Takes x t
    · rw [if_pos ((takes_iff x t r).mpr ht), Compiler.advance, htk]
      exact hs.skip hends htk ht.ne_eof
    · rw [if_neg fun h => ht ((takes_iff x t r).mp h)]
      exact (silent_ccError _).tracked hs

/-- The one step of the cursor that may go behind the last token. -/
theorem keeps_arraySuffix (ty : Ty) : Keeps toks (arraySuffix ty) := by
  intro s hs
  rw [arraySuffix, bind_eq, consume]
  cases htk : s.tk with
  | nil => exact hs
  | cons t r =>
    by_cases ht : Takes "[" t
    · rw [if_pos ((takes_iff _ t r).mpr ht)]
      have hr := hs.tail_ne_nil hends htk ht.ne_eof
      obtain ⟨u, r', rfl⟩ := List.exists_cons_of_ne_nil hr
      obtain ⟨s₁, hcheck, hsame⟩ := check_done (u.kind = .num) "array length must be a constant"
        { s with tk := u :: r', lengths := (u :: r') :: s.lengths }
      have hrun : Tracked toks ((advance >>= fun _ => do
          expect "]"
          tyArrayOf ty (toInt32 u.val.toInt)) s₁) := by
        rw [bind_eq, Compiler.advance, hsame.tk]
        have hmoved : Tracks toks { s₁ with tk := r' } := hs.skipLength htk rfl hsame.lengths
        exact ((keeps_expect hends).bind fun _ => (silent_tyArrayOf ty _).keeps) _ hmoved
      have heq : (check (u.kind = .num) "array length must be a constant" >>= fun _ => do
          advance
          expect "]"
          tyArrayOf ty (toInt32 u.val.toInt))
            { s with tk := u :: r', lengths := (u :: r') :: s.lengths } =
          (advance >>= fun _ => do
            expect "]"
            tyArrayOf ty (toInt32 u.val.toInt)) s₁ := by
        rw [bind_eq, hcheck]
      rw [← heq] at hrun
      exact hrun
    · rw [if_neg fun h => ht ((takes_iff _ t r).mp h)]
      exact hs

end Cursor

section Types

variable (hends : Ends toks)
include hends

theorem keeps_starLoop (n : ℕ) (ty : Ty) : Keeps toks (starLoop n ty) := by
  induction n generalizing ty with
  | zero => exact keeps_outOfFuel
  | succ n ih =>
    exact Keeps.skip hends ((silent_tyPtrTo ty).keeps.bind fun ty' => ih ty') (keeps_pure _)

theorem keeps_baseType {d : P Ty} (hd : Keeps toks d) : Keeps toks (baseType d) := by
  refine (keeps_consume hends).bind fun c => Keeps.ite (keeps_pure _) ?_
  refine (keeps_consume hends).bind fun c => Keeps.ite (keeps_pure _) ?_
  refine (keeps_consume hends).bind fun c => Keeps.ite (hd.bind fun _ => keeps_pure _) ?_
  refine Keeps.cur fun t => KeepsAt.silent silent_get fun s => ?_
  split
  · rename_i hk _
    exact KeepsAt.advance hends (by rw [hk]; decide) (keeps_pure _)
  · exact ((silent_ccError _).keeps.bind fun _ => keeps_pure _).at

theorem keeps_declspecWith {d : P Ty} (hd : Keeps toks d) (n : ℕ) :
    Keeps toks (declspecWith d n) := by
  refine (keeps_baseType hends hd).bind fun o => ?_
  cases o with
  | none => exact keeps_pure _
  | some ty => exact keeps_starLoop hends n ty

theorem keeps_memberLoop {d : P Ty} (hd : Keeps toks d) (n : ℕ) (off : ℤ) (ms : List Member) :
    Keeps toks (memberLoop d n off ms) := by
  induction n generalizing off ms with
  | zero => exact keeps_outOfFuel
  | succ n ih =>
    refine (keeps_logHead _).bind fun _ => keeps_atPunct.bind fun c => ?_
    refine Keeps.ite (keeps_pure _) (Keeps.cur fun t => ?_)
    split_ifs
    · exact (keeps_pure _).at
    refine (hd.bind fun mty => Keeps.cur fun u => ?_).at
    refine KeepsAt.name ((silent_ccError _).keeps.bind fun _ => keeps_pure _) fun hu => ?_
    refine KeepsAt.advance hends (by rw [hu]; decide) ?_
    refine (keeps_arraySuffix hends mty).bind fun mty' => (keeps_expect hends).bind fun _ => ?_
    refine keeps_get.bind fun s => (silent_ccAlloc _).keeps.bind fun _ => ?_
    exact ih _ _

theorem keeps_structBody {d : P Ty} (hd : Keeps toks d) (n : ℕ) (tag : Option String) :
    Keeps toks (structBody d n tag) := by
  refine (silent_ccAlloc _).keeps.bind fun _ => keeps_get.bind fun s => ?_
  dsimp only
  refine Keeps.bind (silent_modify ?_).keeps fun _ => (silent_registerTag _ _).keeps.bind fun _ => ?_
  · exact fun _ => ⟨rfl, rfl, rfl⟩
  refine (keeps_memberLoop hends hd n _ _).bind fun res => (keeps_expect hends).bind fun _ => ?_
  refine Keeps.bind (silent_modify ?_).keeps fun _ => keeps_pure _
  exact fun _ => ⟨rfl, rfl, rfl⟩

theorem keeps_structDecl (n : ℕ) : Keeps toks (structDecl n) := by
  induction n with
  | zero => exact keeps_outOfFuel
  | succ n ih =>
    have htag : Keeps toks structTag := Keeps.cur fun t => by
      split_ifs with ht
      · exact KeepsAt.advance hends (by rw [ht]; decide) (keeps_pure _)
      · exact (keeps_pure _).at
    refine htag.bind fun tag => Keeps.skip hends ?_ (silent_structRef tag).keeps
    exact keeps_structBody hends (keeps_declspecWith hends ih n) n tag

theorem keeps_declspec (n : ℕ) : Keeps toks (declspec n) :=
  keeps_declspecWith hends (keeps_structDecl hends n) n

end Types

section Expressions

variable (hends : Ends toks) {assign : P Expr}
include hends

theorem keeps_argLoop (ha : Keeps toks assign) (n : ℕ) : Keeps toks (argLoop assign n) := by
  induction n with
  | zero => exact keeps_outOfFuel
  | succ n ih =>
    refine ha.bind fun a => (keeps_consume hends).bind fun c => Keeps.ite ?_ (keeps_pure _)
    exact ih.bind fun _ => keeps_pure _

theorem keeps_callRest (ha : Keeps toks assign) (n : ℕ) (name : String) :
    Keeps toks (callRest assign n name) := by
  refine silent_newNode.keeps.bind fun _ => keeps_atPunct.bind fun c => Keeps.ite ?_ ?_
  · exact (keeps_expect hends).bind fun _ => keeps_pure _
  · exact (keeps_argLoop hends ha n).bind fun _ => (keeps_expect hends).bind fun _ => keeps_pure _

theorem keeps_primary (ha : Keeps toks assign) (n : ℕ) : Keeps toks (primary assign n) := by
  refine (keeps_consume hends).bind fun c => Keeps.ite ?_ ?_
  · exact ha.bind fun e => (keeps_expect hends).bind fun _ => keeps_pure _
  refine Keeps.cur fun t => ?_
  cases hk : t.kind with
  | num =>
    refine KeepsAt.silent (silent_newNum _) fun e => ?_
    exact KeepsAt.advance hends (by rw [hk]; decide) (keeps_pure _)
  | str =>
    refine KeepsAt.silent silent_newNode fun _ => KeepsAt.silent (silent_tyPtrTo _) fun _ => ?_
    exact KeepsAt.advance hends (by rw [hk]; decide) (keeps_pure _)
  | ident =>
    refine KeepsAt.advance hends (by rw [hk]; decide) ((keeps_consume hends).bind fun c => ?_)
    exact Keeps.ite (keeps_callRest hends ha n _) (silent_varRef _).keeps
  | punct | kw | eof => exact ((silent_ccError _).keeps.bind fun _ => (silent_newNum _).keeps).at

theorem keeps_postfixLoop (ha : Keeps toks assign) (n : ℕ) (e : Expr) :
    Keeps toks (postfixLoop assign n e) := by
  induction n generalizing e with
  | zero => exact keeps_outOfFuel
  | succ n ih =>
    refine Keeps.skip hends ?_ (Keeps.skip hends ?_ (Keeps.skip hends ?_ (keeps_pure _)))
    · exact ha.bind fun idx => (keeps_expect hends).bind fun _ =>
        (silent_newIndex _ _).keeps.bind fun e' => ih e'
    · refine Keeps.cur fun t => ?_
      refine KeepsAt.name ((silent_ccError _).keeps.bind fun _ => keeps_pure _) fun ht => ?_
      refine KeepsAt.silent (silent_memberOf _ _) fun o => ?_
      refine KeepsAt.advance hends (by rw [ht]; decide) ?_
      cases o with
      | none => exact (silent_ccError _).keeps.bind fun _ => keeps_pure _
      | some x => exact silent_newNode.keeps.bind fun _ => ih _
    · refine Keeps.cur fun t => ?_
      refine KeepsAt.name ((silent_ccError _).keeps.bind fun _ => keeps_pure _) fun ht => ?_
      dsimp only
      refine KeepsAt.silent (silent_memberOf _ _) fun o => ?_
      refine KeepsAt.advance hends (by rw [ht]; decide) ?_
      cases o with
      | none => exact (silent_ccError _).keeps.bind fun _ => keeps_pure _
      | some x => exact silent_newNode.keeps.bind fun _ => silent_newNode.keeps.bind fun _ => ih _

theorem keeps_sizeofRest {u : P Expr} (hu : Keeps toks u) (n : ℕ) :
    Keeps toks (sizeofRest n u) := by
  intro s hs
  have heq : sizeofRest n u s = (if isPunct s.tk "(" && s.looksLikeType s.tk.tail then do
        advance
        let t ← declspec n
        expect ")"
        let s ← P.get
        newNum (BitVec.ofInt 64 (t.size s.types))
      else do
        let e ← u
        let s ← P.get
        newNum (BitVec.ofInt 64 (e.ty.size s.types))) s := rfl
  rw [heq]
  split_ifs with hty
  · rw [Bool.and_eq_true] at hty
    cases htk : s.tk with
    | nil =>
      rw [htk, isPunct] at hty
      exact absurd hty.1 Bool.false_ne_true
    | cons t r =>
      rw [htk, isPunct, decide_eq_true_eq] at hty
      refine KeepsAt.advance hends (by rw [hty.1.1]; decide) ?_ s r htk hs
      exact (keeps_declspec hends n).bind fun _ => (keeps_expect hends).bind fun _ =>
        keeps_get.bind fun _ => (silent_newNum _).keeps
  · exact (hu.bind fun _ => keeps_get.bind fun _ => (silent_newNum _).keeps) s hs

theorem keeps_unary (ha : Keeps toks assign) (n : ℕ) : Keeps toks (unary assign n) := by
  induction n with
  | zero => exact keeps_outOfFuel
  | succ n ih =>
    refine (keeps_consume hends).bind fun c => Keeps.ite (keeps_sizeofRest hends ih n) ?_
    refine (keeps_consume hends).bind fun c => Keeps.ite ih ?_
    refine (keeps_consume hends).bind fun c => Keeps.ite ?_ ?_
    · exact silent_newNode.keeps.bind fun _ => ih.bind fun _ => keeps_pure _
    refine (keeps_consume hends).bind fun c => Keeps.ite ?_ ?_
    · exact silent_newNode.keeps.bind fun _ => ih.bind fun _ => keeps_pure _
    refine (keeps_consume hends).bind fun c => Keeps.ite ?_ ?_
    · exact silent_newNode.keeps.bind fun _ => ih.bind fun _ => (silent_newDeref _).keeps
    refine (keeps_consume hends).bind fun c => Keeps.ite ?_ ?_
    · exact silent_newNode.keeps.bind fun _ => ih.bind fun _ =>
        (silent_tyPtrTo _).keeps.bind fun _ => keeps_pure _
    · exact (keeps_primary hends ha n).bind fun e => keeps_postfixLoop hends ha n e

theorem keeps_consumeOp (ops : List (String × β)) : Keeps toks (consumeOp ops) := by
  induction ops with
  | nil => exact keeps_pure _
  | cons o ops ih => exact (keeps_consume hends).bind fun c => Keeps.ite (keeps_pure _) ih

section Levels

variable {ops : List (String × (Expr → Expr → P Expr))} {sub : P Expr}

theorem keeps_leftLoop (hops : ∀ o ∈ ops, ∀ l e, Silent (o.2 l e)) (hsub : Keeps toks sub) (n : ℕ)
    (l : Expr) : Keeps toks (leftLoop ops sub n l) := by
  induction n generalizing l with
  | zero => exact keeps_outOfFuel
  | succ n ih =>
    refine Keeps.bind_of (keeps_consumeOp hends ops) fun s o s' ho => ?_
    cases o with
    | none => exact keeps_pure _
    | some mk =>
      obtain ⟨x, hx⟩ := consumeOp_mem ho
      exact hsub.bind fun e => (hops _ hx l e).keeps.bind fun l' => ih l'

theorem keeps_leftLevel (hops : ∀ o ∈ ops, ∀ l e, Silent (o.2 l e)) (hsub : Keeps toks sub)
    (n : ℕ) : Keeps toks (leftLevel ops sub n) :=
  hsub.bind fun l => keeps_leftLoop hends hops hsub n l

end Levels

theorem keeps_logor (ha : Keeps toks assign) (n : ℕ) : Keeps toks (logor assign n) := by
  have hmul : Keeps toks (mul assign n) :=
    keeps_leftLevel hends silent_mulOps (keeps_unary hends ha n) n
  have hadd : Keeps toks (addExpr assign n) := keeps_leftLevel hends silent_addOps hmul n
  have hrel : Keeps toks (relational assign n) := keeps_leftLevel hends silent_relOps hadd n
  have heq : Keeps toks (equality assign n) := keeps_leftLevel hends silent_eqOps hrel n
  have hand : Keeps toks (logand assign n) := keeps_leftLevel hends silent_andOps heq n
  exact keeps_leftLevel hends silent_orOps hand n

end Expressions

section Statements

variable (hends : Ends toks)
include hends

theorem keeps_assign (n : ℕ) : Keeps toks (assign n) := by
  induction n with
  | zero => exact keeps_outOfFuel
  | succ n ih =>
    refine (keeps_logor hends ih n).bind fun l => (keeps_consume hends).bind fun c => ?_
    refine Keeps.ite ?_ (keeps_pure _)
    exact silent_newNode.keeps.bind fun _ => ih.bind fun _ => keeps_pure _

theorem keeps_exprStmt (n : ℕ) : Keeps toks (exprStmt n) :=
  silent_newNode.keeps.bind fun _ => (keeps_assign hends n).bind fun _ =>
    (keeps_expect hends).bind fun _ => keeps_pure _

theorem keeps_initializer (n : ℕ) (v : Var) : Keeps toks (initializer n v) := by
  refine (keeps_consume hends).bind fun c => Keeps.ite ?_ (keeps_pure _)
  exact silent_newNode.keeps.bind fun _ => silent_newNode.keeps.bind fun _ =>
    (keeps_assign hends n).bind fun _ => silent_newNode.keeps.bind fun _ => keeps_pure _

theorem keeps_declaration (n : ℕ) : Keeps toks (declaration n) := by
  refine (keeps_declspec hends n).bind fun base => Keeps.cur fun t => ?_
  refine KeepsAt.name ?_ fun ht => KeepsAt.advance hends (by rw [ht]; decide) ?_
  · exact (silent_ccError _).keeps.bind fun _ => silent_newNode.keeps.bind fun _ => keeps_pure _
  · exact (keeps_arraySuffix hends base).bind fun ty => (silent_newLocal _ ty).keeps.bind fun v =>
      silent_newNode.keeps.bind fun _ => (keeps_initializer hends n v).bind fun _ =>
        (keeps_expect hends).bind fun _ => keeps_pure _

theorem keeps_condition (n : ℕ) : Keeps toks (condition n) :=
  (keeps_expect hends).bind fun _ => (keeps_assign hends n).bind fun _ =>
    (keeps_expect hends).bind fun _ => keeps_pure _

theorem keeps_forInit (n : ℕ) : Keeps toks (forInit n) := by
  refine (keeps_consume hends).bind fun c => Keeps.ite (keeps_pure _) ?_
  exact silent_newNode.keeps.bind fun _ => (keeps_assign hends n).bind fun _ =>
    (keeps_expect hends).bind fun _ => keeps_pure _

theorem keeps_forExpr (n : ℕ) (close : String) : Keeps toks (forExpr n close) := by
  refine keeps_atPunct.bind fun c => Keeps.ite ?_ ?_
  · exact (keeps_expect hends).bind fun _ => keeps_pure _
  · exact (keeps_assign hends n).bind fun _ => (keeps_expect hends).bind fun _ => keeps_pure _

theorem keeps_signedConst (msg : String) : Keeps toks (signedConst msg) := by
  have hsign : Keeps toks minusSign := Keeps.skip hends (keeps_pure _) (keeps_pure _)
  refine hsign.bind fun neg => Keeps.cur fun t => ?_
  by_cases ht : t.kind = .num
  · rw [if_pos ht]
    refine KeepsAt.advance hends (by rw [ht]; decide) ?_
    split_ifs <;> exact keeps_pure _
  · rw [if_neg ht]
    exact ((silent_ccError _).keeps.bind fun _ => keeps_pure _).at

omit hends in
theorem keeps_switchBody {p : P Stmt} (hp : Keeps toks p) : Keeps toks (switchBody p) := by
  refine keeps_get.bind fun s => ?_
  dsimp only
  refine Keeps.bind (silent_modify ?_).keeps fun _ => hp.bind fun body => keeps_get.bind fun s' => ?_
  · exact fun _ => ⟨rfl, rfl, rfl⟩
  refine Keeps.bind (silent_modify ?_).keeps fun _ => keeps_pure _
  exact fun _ => ⟨rfl, rfl, rfl⟩

omit hends in
theorem keeps_blockLoop {p : P Stmt} (hp : Keeps toks p) (n : ℕ) :
    Keeps toks (blockLoop p n) := by
  induction n with
  | zero => exact keeps_outOfFuel
  | succ n ih =>
    refine (keeps_logHead _).bind fun _ => keeps_atPunct.bind fun c => ?_
    refine Keeps.ite (keeps_pure _) (Keeps.cur fun t => ?_)
    split_ifs
    · exact (keeps_pure _).at
    · exact (hp.bind fun st => ih.bind fun _ => keeps_pure _).at

theorem keeps_blockItem {p : P Stmt} (hp : Keeps toks p) (n : ℕ) : Keeps toks (blockItem n p) :=
  keeps_get.bind fun _ => (keeps_declaration hends n).ite hp

theorem keeps_stmt (n : ℕ) : Keeps toks (stmt n) := by
  induction n with
  | zero => exact keeps_outOfFuel
  | succ n ih =>
    refine (keeps_consume hends).bind fun c => Keeps.ite ?_ ?_
    · exact silent_newNode.keeps.bind fun _ => (keeps_assign hends n).bind fun _ =>
        (keeps_expect hends).bind fun _ => keeps_pure _
    refine (keeps_consume hends).bind fun c => Keeps.ite ?_ ?_
    · refine silent_newNode.keeps.bind fun _ => (keeps_condition hends n).bind fun _ => ?_
      refine ih.bind fun _ => (keeps_consume hends).bind fun c => Keeps.ite ?_ (keeps_pure _)
      exact ih.bind fun _ => keeps_pure _
    refine (keeps_consume hends).bind fun c => Keeps.ite ?_ ?_
    · exact silent_newNode.keeps.bind fun _ => (keeps_condition hends n).bind fun _ =>
        ih.bind fun _ => keeps_pure _
    refine (keeps_consume hends).bind fun c => Keeps.ite ?_ ?_
    · exact silent_newNode.keeps.bind fun _ => (keeps_expect hends).bind fun _ =>
        (keeps_forInit hends n).bind fun _ => (keeps_forExpr hends n _).bind fun _ =>
          (keeps_forExpr hends n _).bind fun _ => ih.bind fun _ => keeps_pure _
    refine (keeps_consume hends).bind fun c => Keeps.ite ?_ ?_
    · exact silent_newNode.keeps.bind fun _ => (keeps_condition hends n).bind fun _ =>
        (keeps_switchBody ih).bind fun _ => keeps_pure _
    refine (keeps_consume hends).bind fun c => Keeps.ite ?_ ?_
    · exact (silent_insideSwitch _).keeps.bind fun _ => (keeps_signedConst hends _).bind fun _ =>
        (keeps_expect hends).bind fun _ => (silent_newCase _ _).keeps.bind fun _ =>
          ih.bind fun _ => keeps_pure _
    refine (keeps_consume hends).bind fun c => Keeps.ite ?_ ?_
    · exact (silent_insideSwitch _).keeps.bind fun _ => (keeps_expect hends).bind fun _ =>
        (silent_newCase _ _).keeps.bind fun _ => ih.bind fun _ => keeps_pure _
    refine (keeps_consume hends).bind fun c => Keeps.ite ?_ ?_
    · exact (keeps_expect hends).bind fun _ => silent_newNode.keeps.bind fun _ => keeps_pure _
    refine (keeps_consume hends).bind fun c => Keeps.ite ?_ ?_
    · exact (keeps_expect hends).bind fun _ => silent_newNode.keeps.bind fun _ => keeps_pure _
    refine Keeps.skip hends ?_ (keeps_exprStmt hends n)
    exact silent_newNode.keeps.bind fun _ =>
      (keeps_blockLoop (keeps_blockItem hends ih n) n).bind fun _ =>
        (keeps_expect hends).bind fun _ => keeps_pure _

end Statements

section Declarations

theorem keeps_ccFailed : Keeps toks ccFailed := fun _ hs => hs

variable (hends : Ends toks)
include hends

theorem keeps_paramLoop (n k : ℕ) (ps : List Var) : Keeps toks (paramLoop n k ps) := by
  induction k generalizing ps with
  | zero => exact keeps_outOfFuel
  | succ k ih =>
    refine (keeps_declspec hends n).bind fun pty => Keeps.cur fun t => ?_
    refine KeepsAt.name ((silent_ccError _).keeps.bind fun _ => keeps_pure _) fun ht => ?_
    refine KeepsAt.advance hends (by rw [ht]; decide) ?_
    exact (silent_newLocal _ _).keeps.bind fun v => (keeps_consume hends).bind fun c =>
      Keeps.ite (ih _) (keeps_pure _)

theorem keeps_paramList (n : ℕ) : Keeps toks (paramList n) := by
  refine (keeps_expect hends).bind fun _ => keeps_atPunct.bind fun c => Keeps.ite ?_ ?_
  · exact (keeps_expect hends).bind fun _ => keeps_pure _
  · exact (keeps_paramLoop hends n n _).bind fun _ => (keeps_expect hends).bind fun _ =>
      keeps_pure _

theorem keeps_functionRest (n : ℕ) (ret : Ty) (name : String) :
    Keeps toks (functionRest n ret name) := by
  refine (silent_ccAlloc _).keeps.bind fun _ => Keeps.bind (silent_modify ?_).keeps fun _ => ?_
  · exact fun _ => ⟨rfl, rfl, rfl⟩
  refine (keeps_paramList hends n).bind fun ps => (silent_check _ _).keeps.bind fun _ => ?_
  refine keeps_atPunct.bind fun c => Keeps.ite ?_ ?_
  · exact (keeps_stmt hends n).bind fun _ => keeps_get.bind fun _ => keeps_pure _
  · exact (silent_ccError _).keeps.bind fun _ => keeps_pure _

theorem keeps_globalDecl (base : Ty) (name : String) : Keeps toks (globalDecl base name) := by
  have hinit : ∀ ty v, Keeps toks (globalInit ty v) := fun ty v =>
    (keeps_consume hends).bind fun c => Keeps.ite
      ((keeps_signedConst hends _).bind fun val => (silent_storeInit ty v val).keeps) (keeps_pure _)
  exact (keeps_arraySuffix hends base).bind fun ty => (silent_newGlobal name ty).keeps.bind fun v =>
    (hinit ty v).bind fun _ => keeps_expect hends

theorem keeps_typedefRest (n : ℕ) : Keeps toks (typedefRest n) := by
  refine (keeps_declspec hends n).bind fun ty => Keeps.cur fun t => ?_
  refine KeepsAt.name ((silent_ccError _).keeps.bind fun _ => keeps_pure _) fun ht => ?_
  refine KeepsAt.silent (silent_registerTypedef _ _) fun _ => ?_
  refine KeepsAt.advance hends (by rw [ht]; decide) ?_
  exact (keeps_expect hends).bind fun _ => keeps_pure _

theorem keeps_topRest (n : ℕ) (base : Ty) : Keeps toks (topRest n base) := by
  refine Keeps.cur fun t => ?_
  refine KeepsAt.name ((silent_ccError _).keeps.bind fun _ => keeps_pure _) fun ht => ?_
  refine KeepsAt.advance hends (by rw [ht]; decide) (keeps_atPunct.bind fun c => Keeps.ite ?_ ?_)
  · exact (keeps_functionRest hends n _ _).bind fun _ => keeps_ccFailed.bind fun _ =>
      keeps_pure _
  · exact (keeps_globalDecl hends _ _).bind fun _ => keeps_ccFailed.bind fun _ =>
      keeps_pure _

theorem keeps_topLoop (n : ℕ) (fns : List Func) : Keeps toks (topLoop n fns) := by
  induction n generalizing fns with
  | zero => exact keeps_outOfFuel
  | succ n ih =>
    refine keeps_get.bind fun s => ?_
    cases s.tk with
    | nil => exact keeps_pure _
    | cons t r =>
      dsimp only
      split_ifs
      · exact keeps_pure _
      refine (keeps_consume hends).bind fun c => Keeps.ite ?_ ?_
      · exact (keeps_typedefRest hends n).bind fun c => Keeps.ite (ih fns) (keeps_pure _)
      refine (keeps_declspec hends n).bind fun base => (keeps_consume hends).bind fun c => ?_
      refine Keeps.ite (ih fns) ((keeps_topRest hends n base).bind fun o => ?_)
      cases o with
      | none => exact keeps_pure _
      | some new => exact ih _

end Declarations

/-- No null cursor has been read, and the cursor is on the list. As it only moves down the
list, it has been on the list all the time. -/
structure OnList (toks : List Token) (o : Outcome α) : Prop where
  read : ∀ s, o ≠ .stop .null s
  suffix : o.state.tk <:+ toks
  cursor : o.state.tk ≠ []

theorem tracks_start (hends : Ends toks) (arena : Arena) : Tracks toks (.start toks arena) := by
  refine ⟨List.suffix_rfl, iff_of_false hends.ne_nil ?_⟩
  rintro ⟨e, he⟩
  exact absurd he List.not_mem_nil

theorem Tracked.onList_iff {o : Outcome α} (h : Tracked toks o) :
    OnList toks o ↔ ¬ Overshot o.state := by
  cases o with
  | done a s =>
    rw [show (Outcome.done a s).state = s from rfl, ← h.null_iff]
    refine ⟨fun hon => hon.cursor, fun hne => ⟨?_, h.suffix, hne⟩⟩
    intro s' heq
    cases heq
  | stop why s =>
    rw [show (Outcome.stop why s : Outcome α).state = s from rfl]
    refine ⟨fun hon hover => hon.cursor (h.1.null_iff.mpr hover), fun hover => ⟨?_, h.1.suffix, ?_⟩⟩
    · intro s' heq
      cases heq
      exact hover (h.2 rfl)
    · exact fun hnil => hover (h.1.null_iff.mp hnil)

/-- As far as a run is followed, the cursor is on the list exactly as long as no array length is
read at the last token. -/
theorem followed_onList_iff (hends : Ends toks) (arena : Arena) (n : ℕ) :
    OnList toks (ccParse n toks arena) ↔ ∀ e, [e] ∉ (ccParse n toks arena).state.lengths := by
  have hrun : Tracked toks (ccParse n toks arena) :=
    keeps_topLoop hends n [] _ (tracks_start hends arena)
  rw [hrun.onList_iff]
  exact not_exists

/-- If the arena lasts, so that the run is followed to its end, and no array length is read at the
last token, the cursor stays on the list. Where one is read there it leaves the list, whatever
the arena. -/
theorem cursor_on_list (toks : List Token) (arena : Arena) (hends : Ends toks) :
    (ArenaLasts toks arena ∧ (∀ n e, [e] ∉ (ccParse n toks arena).state.lengths) →
      ∀ n, OnList toks (ccParse n toks arena) ∧ ∀ s, ccParse n toks arena ≠ .stop .arena s) ∧
    ((∃ n e, [e] ∈ (ccParse n toks arena).state.lengths) →
      ∃ n, ¬ OnList toks (ccParse n toks arena)) := by
  constructor
  · rintro ⟨harena, hnone⟩ n
    exact ⟨(followed_onList_iff hends arena n).mpr (hnone n), harena n⟩
  · rintro ⟨n, e, he⟩
    exact ⟨n, fun hon => (followed_onList_iff hends arena n).mp hon e he⟩

/-- `int a[4];` -/
def arrayTokens : List Token :=
  [.kw "int", .ident "a", .punct "[", .num 4, .punct "]", .punct ";", .eof]

theorem cursor_on_list_array :
    Ends arrayTokens ∧ ArenaLasts arrayTokens freshArena ∧
      ∀ n, OnList arrayTokens (ccParse n arrayTokens freshArena) := by
  have hends : Ends arrayTokens := ⟨arrayTokens.dropLast, .eof, rfl, rfl⟩
  have hshort : ∀ m < 4, ((ccParse m arrayTokens freshArena).state.lengths.all
      fun T => decide (T.length ≠ 1)) = true := by decide +kernel
  have hdone : (match ccParse 3 arrayTokens freshArena with
      | .done _ _ => true
      | .stop _ _ => false) = true := by decide +kernel
  have harena : ArenaLasts arrayTokens freshArena := by
    cases hrun : ccParse 3 arrayTokens freshArena with
    | done fns s => exact arenaLasts_of_done hrun
    | stop why s =>
      rw [hrun] at hdone
      cases hdone
  have hnone : ∀ n e, [e] ∉ (ccParse n arrayTokens freshArena).state.lengths := by
    intro n e he
    obtain hn | hn := lt_or_ge n 4
    · exact absurd (List.all_eq_true.mp (hshort n hn) _ he) (by simp)
    · rcases ccParse_below (show 3 ≤ n by omega) arrayTokens freshArena with heq | ⟨s, hs, -⟩
      · rw [← heq] at he
        exact absurd (List.all_eq_true.mp (hshort 3 (by omega)) _ he) (by simp)
      · rw [hs] at hdone
        cases hdone
  have hrun := (cursor_on_list arrayTokens freshArena hends).1 ⟨harena, hnone⟩
  exact ⟨hends, harena, fun n => (hrun n).1⟩

/-- `int a[` -/
theorem cut_off_length_left_list :
    ¬ ∀ (toks : List Token) (arena : Arena), Ends toks → ∀ n, OnList toks (ccParse n toks arena) := by
  intro hall
  have hends : Ends [Token.kw "int", .ident "a", .punct "[", .eof] :=
    ⟨[.kw "int", .ident "a", .punct "["], .eof, rfl, rfl⟩
  have hnil : (ccParse 4 [Token.kw "int", .ident "a", .punct "[", .eof] freshArena).state.tk = [] := by
    decide +kernel
  exact (hall _ freshArena hends 4).cursor hnil

end XinuRpi4.Compiler
