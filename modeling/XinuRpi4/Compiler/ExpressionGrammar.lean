import XinuRpi4.Compiler.Scopes
import XinuRpi4.Compiler.TypeGrammar

/-!
# The parser reads expressions as the grammar has them

A loop of the parser goes on from an expression that has been read. So an expression on
the left side of an operator is read by the loop that reads the operator, and the trees
that grow to the left are what the loop builds.
-/

namespace XinuRpi4.Compiler

variable {σ σ₁ σ₂ : Scope} {T T₁ T₂ : List Token} {e : CExpr} {t b : Expr} {j k m n : ℕ}

section Tokens

/-- No operator at the level `k` or above is found in front of the tokens. -/
structure Stops (k : ℕ) (T : List Token) : Prop where
  op : ∀ o : COp, k ≤ o.level → Starts T o.text = false
  suffix : ∀ t ∈ ["(", "[", ".", "->"], Starts T t = false
  eq : k ≤ 1 → Starts T "=" = false

theorem Stops.mono (h : Stops j T) (hjk : j ≤ k) : Stops k T :=
  ⟨fun o ho => h.op o (hjk.trans ho), h.suffix, fun hk => h.eq (hjk.trans hk)⟩

theorem stops_op (o : COp) : Stops (o.level + 1) (.punct o.text :: T) := by
  refine ⟨fun o' h => ?_, ?_, fun h => ?_⟩
  · cases o <;> cases o' <;> simp [Starts, COp.text, COp.level] at h ⊢
  · cases o <;> simp [Starts, COp.text]
  · cases o <;> simp [COp.level] at h

theorem stops_eq : Stops 2 (.punct "=" :: T) := by
  refine ⟨fun o _ => ?_, by simp [Starts], fun h => by omega⟩
  cases o <;> simp [Starts, COp.text]

theorem stops_closer {x : String} (hx : x ∈ [")", "]", ",", ";"]) (k : ℕ) :
    Stops k (.punct x :: T) := by
  simp only [List.mem_cons, List.not_mem_nil, or_false] at hx
  obtain rfl | rfl | rfl | rfl := hx
  all_goals
    refine ⟨fun o _ => ?_, by simp [Starts], fun _ => by simp [Starts]⟩
    cases o <;> simp [Starts, COp.text]

/-- The tokens that `unary` consumes itself. -/
def prefixTexts : List String := ["sizeof", "+", "-", "!", "*", "&"]

/-- A postfix expression begins with none of them. -/
theorem CExpr.opens : ∀ (e : CExpr) (T : List Token), e.fits σ = true → 9 ≤ e.level →
    ∀ x ∈ prefixTexts, Starts (e.tokens ++ T) x = false
  | .num _, T, _, _ => by simp [prefixTexts, tokens, Starts]
  | .str _, T, _, _ => by simp [prefixTexts, tokens, Starts]
  | .ident _, T, _, _ => by simp [prefixTexts, tokens, Starts]
  | .call _ _, T, _, _ => by simp [prefixTexts, tokens, Starts]
  | .paren _, T, _, _ => by simp [prefixTexts, tokens, Starts]
  | .index e i, T, h, _ => by
      simp only [fits, Bool.and_eq_true, decide_eq_true_eq] at h
      rw [tokens, List.append_assoc]
      exact e.opens _ h.1.1 h.2
  | .dot e _, T, h, _ => by
      simp only [fits, Bool.and_eq_true, decide_eq_true_eq] at h
      rw [tokens, List.append_assoc]
      exact e.opens _ h.1 h.2
  | .arrow e _, T, h, _ => by
      simp only [fits, Bool.and_eq_true, decide_eq_true_eq] at h
      rw [tokens, List.append_assoc]
      exact e.opens _ h.1 h.2
  | .sizeofType _, _, _, h => by simp [level] at h
  | .sizeofExpr _, _, _, h => by simp [level] at h
  | .plus _, _, _, h => by simp [level] at h
  | .neg _, _, _, h => by simp [level] at h
  | .not _, _, _, h => by simp [level] at h
  | .star _, _, _, h => by simp [level] at h
  | .amp _, _, _, h => by simp [level] at h
  | .binary op _ _, _, _, h => by cases op <;> simp [level, COp.level] at h
  | .assign _ _, _, _, h => by simp [level] at h

theorem CExpr.tokens_start (e : CExpr) : ∃ x r, e.tokens = x :: r ∧
    ∀ T, isPunct (x :: T) ")" = false := by
  cases e with
  | index e i =>
    obtain ⟨x, r, h, hx⟩ := e.tokens_start
    exact ⟨x, _, by rw [tokens, h, List.cons_append], hx⟩
  | dot e name =>
    obtain ⟨x, r, h, hx⟩ := e.tokens_start
    exact ⟨x, _, by rw [tokens, h, List.cons_append], hx⟩
  | arrow e name =>
    obtain ⟨x, r, h, hx⟩ := e.tokens_start
    exact ⟨x, _, by rw [tokens, h, List.cons_append], hx⟩
  | binary op l r =>
    obtain ⟨x, r, h, hx⟩ := l.tokens_start
    exact ⟨x, _, by rw [tokens, h, List.cons_append], hx⟩
  | assign l r =>
    obtain ⟨x, r, h, hx⟩ := l.tokens_start
    exact ⟨x, _, by rw [tokens, h, List.cons_append], hx⟩
  | num _ | str _ | ident _ | call _ _ | paren _ | sizeofType _ | sizeofExpr _ | plus _ | neg _
  | not _ | star _ | amp _ => exact ⟨_, _, rfl, by simp⟩

/-- What stands behind an opening parenthesis is part of the expression. -/
theorem CExpr.second_token (e : CExpr) (h : isPunct e.tokens "(" = true) :
    ∃ x y r, e.tokens = x :: y :: r := by
  have split (e' : CExpr) (y : Token) (r : List Token) :
      ∃ x y' r', e'.tokens ++ y :: r = x :: y' :: r' := by
    obtain ⟨x, r', h', -⟩ := e'.tokens_start
    rw [h']
    cases r' with
    | nil => exact ⟨x, y, r, rfl⟩
    | cons y' r' => exact ⟨x, y', r' ++ y :: r, rfl⟩
  cases e with
  | num v => simp [tokens] at h
  | str a => simp [tokens] at h
  | ident name => simp [tokens] at h
  | call name args => simp [tokens] at h
  | paren e =>
    obtain ⟨x, r, h', -⟩ := e.tokens_start
    exact ⟨.punct "(", x, r ++ [Token.punct ")"], by rw [tokens, h', List.cons_append]⟩
  | index e i => exact split e _ _
  | dot e name => exact split e _ _
  | arrow e name => exact split e _ _
  | sizeofType t => simp [tokens] at h
  | sizeofExpr e => simp [tokens] at h
  | plus e => simp [tokens] at h
  | neg e => simp [tokens] at h
  | not e => simp [tokens] at h
  | star e => simp [tokens] at h
  | amp e => simp [tokens] at h
  | binary op l r => exact split l _ _
  | assign l r => exact split l _ _

/-- The tokens of a type that has a meaning look like a type. -/
theorem CType.looksLikeType : ∀ (t : CType) (T : List Token) {r : Ty × Scope},
    t.meaning σ = some r → σ.looksLikeType (t.tokens ++ T) = true
  | .int, T, _, _ => by simp [tokens, Scope.looksLikeType]
  | .char, T, _, _ => by simp [tokens, Scope.looksLikeType]
  | .named name, T, r, h => by
      simp only [meaning, Option.map_eq_some_iff] at h
      obtain ⟨ty, h, -⟩ := h
      simp [tokens, Scope.looksLikeType, Token.ident, h]
  | .structRef _, T, _, _ => by simp [tokens, Scope.looksLikeType]
  | .structDef _ _, T, _, _ => by simp [tokens, Scope.looksLikeType]
  | .star t, T, r, h => by
      simp only [meaning, Option.map_eq_some_iff] at h
      obtain ⟨r, h, -⟩ := h
      rw [tokens, List.append_assoc]
      exact t.looksLikeType _ h

end Tokens

section Levels

/-- The operators of a level. -/
def opsAt : ℕ → List (String × (Expr → Expr → P Expr))
  | 2 => orOps
  | 3 => andOps
  | 4 => eqOps
  | 5 => relOps
  | 6 => addOps
  | 7 => mulOps
  | _ => []

/-- The function that reads a level. -/
def levelAt (assign : P Expr) (n : ℕ) : ℕ → P Expr
  | 2 => logor assign n
  | 3 => logand assign n
  | 4 => equality assign n
  | 5 => relational assign n
  | 6 => addExpr assign n
  | 7 => mul assign n
  | _ => unary assign n

theorem levelAt_eq (assign : P Expr) (hj : 2 ≤ j) (hj' : j ≤ 7) :
    levelAt assign n j = leftLevel (opsAt j) (levelAt assign n (j + 1)) n := by
  interval_cases j <;> rfl

/-- An operator is found among those of its level, with the function that applies it. -/
theorem yields_consumeOp_hit (o : COp) : ∃ mk : Expr → Expr → P Expr,
    (∀ σ T, Yields (consumeOp (opsAt o.level)) σ (.punct o.text :: T) (some mk) σ T) ∧
      ∀ {σ l r t T}, Scope.apply σ o l r = some t → Yields (mk l r) σ T t σ T := by
  have apply {k : BinKind} {σ : Scope} {l r t : Expr} {T : List Token}
      (h : some (.binary k l r .int) = some t) : Yields (newBinary k l r) σ T t σ T := by
    obtain rfl := Option.some.inj h
    exact yields_newBinary k l r
  cases o with
  | or => exact ⟨newBinary .logor, fun _ _ => .hit (by simp [Starts, COp.text]) yields_pure, apply⟩
  | and => exact ⟨newBinary .logand, fun _ _ => .hit (by simp [Starts, COp.text]) yields_pure, apply⟩
  | eq => exact ⟨newBinary .eq, fun _ _ => .hit (by simp [Starts, COp.text]) yields_pure, apply⟩
  | ne =>
    exact ⟨newBinary .ne, fun _ _ => .miss (by simp [Starts, COp.text])
      (.hit (by simp [Starts, COp.text]) yields_pure), apply⟩
  | lt => exact ⟨newBinary .lt, fun _ _ => .hit (by simp [Starts, COp.text]) yields_pure, apply⟩
  | le =>
    exact ⟨newBinary .le, fun _ _ => .miss (by simp [Starts, COp.text])
      (.hit (by simp [Starts, COp.text]) yields_pure), apply⟩
  | gt =>
    exact ⟨fun l r => newBinary .lt r l, fun _ _ => .miss (by simp [Starts, COp.text])
      (.miss (by simp [Starts, COp.text]) (.hit (by simp [Starts, COp.text]) yields_pure)), apply⟩
  | ge =>
    exact ⟨fun l r => newBinary .le r l, fun _ _ => .miss (by simp [Starts, COp.text])
      (.miss (by simp [Starts, COp.text]) (.miss (by simp [Starts, COp.text])
        (.hit (by simp [Starts, COp.text]) yields_pure))), apply⟩
  | add => exact ⟨newAdd, fun _ _ => .hit (by simp [Starts, COp.text]) yields_pure, yields_newAdd⟩
  | sub =>
    exact ⟨newSub, fun _ _ => .miss (by simp [Starts, COp.text])
      (.hit (by simp [Starts, COp.text]) yields_pure), yields_newSub⟩
  | mul => exact ⟨newBinary .mul, fun _ _ => .hit (by simp [Starts, COp.text]) yields_pure, apply⟩
  | div =>
    exact ⟨newBinary .div, fun _ _ => .miss (by simp [Starts, COp.text])
      (.hit (by simp [Starts, COp.text]) yields_pure), apply⟩
  | mod =>
    exact ⟨newBinary .mod, fun _ _ => .miss (by simp [Starts, COp.text])
      (.miss (by simp [Starts, COp.text]) (.hit (by simp [Starts, COp.text]) yields_pure)), apply⟩

theorem yields_consumeOp_miss {β : Type} : ∀ {ops : List (String × β)},
    (∀ o ∈ ops, Starts T o.1 = false) → Yields (consumeOp ops) σ T none σ T
  | [], _ => yields_pure
  | o :: ops, h => by
      rw [List.forall_mem_cons] at h
      exact Yields.miss h.1 (yields_consumeOp_miss h.2)

/-- The operators of a level are not found. -/
theorem Stops.opsAt (h : Stops j T) : ∀ o ∈ opsAt j, Starts T o.1 = false := by
  have hop := h.op
  intro o ho
  unfold Compiler.opsAt at ho
  split at ho
  · simp only [orOps, List.mem_cons, List.not_mem_nil, or_false] at ho
    exact ho ▸ hop .or le_rfl
  · simp only [andOps, List.mem_cons, List.not_mem_nil, or_false] at ho
    exact ho ▸ hop .and le_rfl
  · simp only [eqOps, List.mem_cons, List.not_mem_nil, or_false] at ho
    obtain rfl | rfl := ho
    · exact hop .eq le_rfl
    · exact hop .ne le_rfl
  · simp only [relOps, List.mem_cons, List.not_mem_nil, or_false] at ho
    obtain rfl | rfl | rfl | rfl := ho
    · exact hop .lt le_rfl
    · exact hop .le le_rfl
    · exact hop .gt le_rfl
    · exact hop .ge le_rfl
  · simp only [addOps, List.mem_cons, List.not_mem_nil, or_false] at ho
    obtain rfl | rfl := ho
    · exact hop .add le_rfl
    · exact hop .sub le_rfl
  · simp only [mulOps, List.mem_cons, List.not_mem_nil, or_false] at ho
    obtain rfl | rfl | rfl := ho
    · exact hop .mul le_rfl
    · exact hop .div le_rfl
    · exact hop .mod le_rfl
  · simp at ho

/-- The loop of a level goes on from an expression that has been read. -/
def LeftFrom (j n m : ℕ) (t : Expr) (σ : Scope) (T : List Token) (b : Expr) (σ₂ : Scope)
    (T₂ : List Token) : Prop :=
  ∀ k, m ≤ k →
    Yields (leftLoop (opsAt j) (levelAt (assign n) n (j + 1)) k t) σ T b σ₂ T₂

theorem leftFrom_end (h : Stops j T) : LeftFrom j n 1 t σ T t σ T := by
  intro k hk
  cases k with
  | zero => omega
  | succ k => exact (yields_consumeOp_miss h.opsAt).bind yields_pure

/-- The loop reads an operator of its level, and the operand behind it. -/
theorem LeftFrom.op {o : COp} {l r : Expr} {T' : List Token} (hσ : σ₁.apply o l r = some t)
    (hr : Yields (levelAt (assign n) n (o.level + 1)) σ T' r σ₁ T)
    (h : LeftFrom o.level n m t σ₁ T b σ₂ T₂) :
    LeftFrom o.level n (m + 1) l σ (.punct o.text :: T') b σ₂ T₂ := by
  intro k hk
  cases k with
  | zero => omega
  | succ k =>
    obtain ⟨mk, hmk, happly⟩ := yields_consumeOp_hit o
    exact (hmk _ _).bind (hr.bind ((happly hσ).bind (h k (by omega))))

/-- The loop of `postfix` goes on from an expression that has been read. -/
def SuffixesFrom (n m : ℕ) (t : Expr) (σ : Scope) (T : List Token) (b : Expr) (σ₂ : Scope)
    (T₂ : List Token) : Prop :=
  ∀ k, m ≤ k → Yields (postfixLoop (assign n) k t) σ T b σ₂ T₂

theorem suffixesFrom_end (h : Stops j T) : SuffixesFrom n 1 t σ T t σ T := by
  intro k hk
  cases k with
  | zero => omega
  | succ k =>
    refine Yields.notAt (not_isPunct (h.suffix "[" (by simp))) ?_
    refine Yields.notAt (not_isPunct (h.suffix "." (by simp))) ?_
    exact Yields.notAt (not_isPunct (h.suffix "->" (by simp))) yields_pure

theorem yields_newIndex {l i : Expr} (h : σ.sum l i = some t) :
    Yields (newIndex l i) σ T (.deref t (t.ty.base.getD .int)) σ T :=
  (yields_newAdd h).bind yields_pure.node

theorem SuffixesFrom.index {l i : Expr} {T' : List Token} (ht : σ₁.sum l i = some t)
    (hi : Yields (assign n) σ T' i σ₁ (.punct "]" :: T))
    (h : SuffixesFrom n m (.deref t (t.ty.base.getD .int)) σ₁ T b σ₂ T₂) :
    SuffixesFrom n (m + 1) l σ (.punct "[" :: T') b σ₂ T₂ := by
  intro k hk
  cases k with
  | zero => omega
  | succ k =>
    refine Yields.at (by simp) (Yields.advance (hi.bind (Yields.expect (by simp [Starts]) ?_)))
    exact (yields_newIndex ht).bind (h k (by omega))

theorem yields_memberOf {st : Ty} {name : String} {mem : Member}
    (h : σ.findMember st name = some mem) :
    Yields (memberOf (some st) name) σ T (some mem) σ T := by
  refine Yields.get (q := Pure.pure (some mem)) (fun s _ hσ => ?_) yields_pure
  rw [← h, ← hσ]
  rfl

theorem SuffixesFrom.dot {l : Expr} {name : String} {mem : Member}
    (hm : σ.findMember l.ty name = some mem)
    (h : SuffixesFrom n m (.member l mem.offset mem.ty) σ T b σ₂ T₂) :
    SuffixesFrom n (m + 1) l σ (.punct "." :: .ident name :: T) b σ₂ T₂ := by
  intro k hk
  cases k with
  | zero => omega
  | succ k =>
    refine Yields.notAt (by simp) (Yields.at (by simp) (Yields.advance (Yields.cur ?_)))
    rw [if_neg (show ¬ (Token.ident name).kind ≠ .ident from fun h => h rfl)]
    refine (yields_memberOf hm).bind (Yields.advance ?_)
    exact (h k (by omega)).node

theorem SuffixesFrom.arrow {l : Expr} {name : String} {st : Ty} {mem : Member}
    (hst : l.ty.pointee = some st) (hm : σ.findMember st name = some mem)
    (h : SuffixesFrom n m (.member (.deref l st) mem.offset mem.ty) σ T b σ₂ T₂) :
    SuffixesFrom n (m + 1) l σ (.punct "->" :: .ident name :: T) b σ₂ T₂ := by
  intro k hk
  cases k with
  | zero => omega
  | succ k =>
    refine Yields.notAt (by simp) (Yields.notAt (by simp) (Yields.at (by simp) ?_))
    refine Yields.advance (Yields.cur ?_)
    rw [if_neg (show ¬ (Token.ident name).kind ≠ .ident from fun h => h rfl)]
    have hptr : l.ty = .ptr st := by
      cases hty : l.ty <;> rw [hty] at hst <;> cases hst
      rfl
    rw [hptr]
    refine (yields_memberOf hm).bind (Yields.advance ?_)
    exact (h k (by omega)).node.node

end Levels

section Parsed

/-- At the level `j` the tokens of `e` are read as `t`. -/
def ReadAt (σ : Scope) (e : CExpr) (t : Expr) (σ₁ : Scope) (j : ℕ) : Prop :=
  ∀ n T, e.tokens.length + 2 ≤ n → Stops j T →
    Yields (levelAt (assign n) n j) σ (e.tokens ++ T) t σ₁ T

/-- The tokens of `e` are read as `t` by the loop of the level `j`, which goes on. -/
def ReadInto (σ : Scope) (e : CExpr) (t : Expr) (σ₁ : Scope) (j : ℕ) : Prop :=
  ∀ n m T b σ₂ T₂, e.tokens.length + 2 ≤ n → e.tokens.length + m ≤ n → Stops (j + 1) T →
    LeftFrom j n m t σ₁ T b σ₂ T₂ → Yields (levelAt (assign n) n j) σ (e.tokens ++ T) b σ₂ T₂

/-- The same for the loop of `postfix`. -/
def ReadSuffixes (σ : Scope) (e : CExpr) (t : Expr) (σ₁ : Scope) : Prop :=
  ∀ n k m T b σ₂ T₂, e.tokens.length + 2 ≤ n → e.tokens.length + m ≤ k → 1 ≤ m →
    Starts T "(" = false → SuffixesFrom n m t σ₁ T b σ₂ T₂ →
      Yields (postfix_ (assign n) k) σ (e.tokens ++ T) b σ₂ T₂

/-- All that is known of an expression which has been read, by its level. -/
structure Parsed (σ : Scope) (e : CExpr) (t : Expr) (σ₁ : Scope) : Prop where
  suffixes : 9 ≤ e.level → ReadSuffixes σ e t σ₁
  unary : 8 ≤ e.level → ∀ n k T, e.tokens.length + 2 ≤ n → e.tokens.length + 2 ≤ k →
    Stops 8 T → Yields (unary (assign n) k) σ (e.tokens ++ T) t σ₁ T
  into : ∀ j, 2 ≤ j → j ≤ 7 → j ≤ e.level → ReadInto σ e t σ₁ j
  assign : ∀ n T, e.tokens.length + 3 ≤ n → Stops 1 T →
    Yields (assign n) σ (e.tokens ++ T) t σ₁ T

/-- An operand is read first, and then the loop goes on from it. -/
theorem ReadAt.into (h : ReadAt σ e t σ₁ (j + 1)) (hj : 2 ≤ j) (hj' : j ≤ 7) :
    ReadInto σ e t σ₁ j := by
  intro n m T b σ₂ T₂ hn hm hT hloop
  rw [levelAt_eq _ hj hj']
  exact (h n T hn hT).bind (hloop n (by omega))

theorem ReadInto.at (h : ReadInto σ e t σ₁ j) : ReadAt σ e t σ₁ j := by
  intro n T hn hT
  exact h n 1 T t σ₁ T hn (by omega) (hT.mono (by omega)) (leftFrom_end hT)

/-- What is read at a level is read at all levels below. -/
theorem ReadAt.down : ∀ {i : ℕ}, ReadAt σ e t σ₁ i → i ≤ 8 → ∀ j, 2 ≤ j → j ≤ i →
    ReadAt σ e t σ₁ j
  | 0, _, _, j, hj, hji => by omega
  | i + 1, h, hi, j, hj, hji => by
      obtain rfl | hlt := Nat.eq_or_lt_of_le hji
      · exact h
      · exact (h.into (by omega) (by omega)).at.down (by omega) j hj (by omega)

theorem ReadAt.assign (h : ReadAt σ e t σ₁ 2) (n : ℕ) (T : List Token)
    (hn : e.tokens.length + 3 ≤ n) (hT : Stops 1 T) :
    Yields (assign n) σ (e.tokens ++ T) t σ₁ T := by
  obtain ⟨n, rfl⟩ : ∃ i, n = i + 1 := ⟨n - 1, by omega⟩
  exact (h n T (by omega) (hT.mono (by omega))).bind (Yields.miss (hT.eq le_rfl) yields_pure)

theorem Parsed.readAt (h : Parsed σ e t σ₁) (hj : 2 ≤ j) (hj' : j ≤ 8) (he : j ≤ e.level) :
    ReadAt σ e t σ₁ j := by
  obtain rfl | hlt := Nat.eq_or_lt_of_le hj'
  · exact fun n T hn hT => h.unary he n n T hn hn hT
  · exact (h.into j hj (by omega) he).at

theorem parsed_of_assign (he : e.level = 1) (h : ∀ n T, e.tokens.length + 3 ≤ n → Stops 1 T →
    Yields (Compiler.assign n) σ (e.tokens ++ T) t σ₁ T) : Parsed σ e t σ₁ :=
  ⟨fun h => by omega, fun h => by omega, fun _ _ _ _ => by omega, h⟩

theorem parsed_of_into (hj : 2 ≤ e.level) (hj' : e.level ≤ 7) (h : ReadInto σ e t σ₁ e.level) :
    Parsed σ e t σ₁ := by
  have hat := h.at.down (by omega)
  refine ⟨fun h => by omega, fun h => by omega, fun j h₂ h₇ hle => ?_,
    (hat 2 le_rfl hj).assign⟩
  obtain rfl | hlt := Nat.eq_or_lt_of_le hle
  · exact h
  · exact (hat (j + 1) (by omega) (by omega)).into h₂ h₇

theorem parsed_of_unary_suffixes (hs : 9 ≤ e.level → ReadSuffixes σ e t σ₁)
    (h : ∀ n k T, e.tokens.length + 2 ≤ n → e.tokens.length + 2 ≤ k → Stops 8 T →
      Yields (unary (assign n) k) σ (e.tokens ++ T) t σ₁ T) : Parsed σ e t σ₁ := by
  have hat : ReadAt σ e t σ₁ 8 := fun n T hn hT => h n n T hn hn hT
  refine ⟨hs, fun _ => h, fun j h₂ h₇ _ => ?_, (hat.down le_rfl 2 le_rfl (by omega)).assign⟩
  exact (hat.down le_rfl (j + 1) (by omega) (by omega)).into h₂ h₇

theorem parsed_of_unary (he : e.level = 8)
    (h : ∀ n k T, e.tokens.length + 2 ≤ n → e.tokens.length + 1 ≤ k → Stops 8 T →
      Yields (unary (assign n) (k + 1)) σ (e.tokens ++ T) t σ₁ T) : Parsed σ e t σ₁ := by
  refine parsed_of_unary_suffixes (fun h => by omega) fun n k T hn hk hT => ?_
  obtain ⟨k, rfl⟩ : ∃ i, k = i + 1 := ⟨k - 1, by omega⟩
  exact h n k T hn (by omega) hT

theorem parsed_of_suffixes (he : 9 ≤ e.level) (hfits : e.fits σ = true)
    (h : ReadSuffixes σ e t σ₁) : Parsed σ e t σ₁ := by
  refine parsed_of_unary_suffixes (fun _ => h) fun n k T hn hk hT => ?_
  obtain ⟨k, rfl⟩ : ∃ i, k = i + 1 := ⟨k - 1, by omega⟩
  have hopens := e.opens T hfits he
  refine Yields.miss (hopens "sizeof" (by simp [prefixTexts])) ?_
  refine Yields.miss (hopens "+" (by simp [prefixTexts])) ?_
  refine Yields.miss (hopens "-" (by simp [prefixTexts])) ?_
  refine Yields.miss (hopens "!" (by simp [prefixTexts])) ?_
  refine Yields.miss (hopens "*" (by simp [prefixTexts])) ?_
  refine Yields.miss (hopens "&" (by simp [prefixTexts])) ?_
  exact h n k 1 T t σ₁ T hn (by omega) le_rfl (hT.suffix "(" (by simp)) (suffixesFrom_end hT)

/-- A primary expression is what the loop of suffixes begins with. -/
theorem readSuffixes_of_primary
    (h : ∀ n k T, e.tokens.length + 2 ≤ n → e.tokens.length ≤ k → Starts T "(" = false →
      Yields (primary (assign n) k) σ (e.tokens ++ T) t σ₁ T) : ReadSuffixes σ e t σ₁ :=
  fun n k m T b σ₂ T₂ hn hk hm hT hloop =>
    (h n k T hn (by omega) hT).bind (hloop k (by omega))

end Parsed

section Constructors

theorem parsed_num (v : Word) : Parsed σ (.num v) (.num v) σ := by
  refine parsed_of_suffixes (by simp [CExpr.level]) rfl (readSuffixes_of_primary ?_)
  intro n k T _ _ _
  exact Yields.miss (by simp [Starts, CExpr.tokens])
    (Yields.cur ((yields_newNum v).bind (Yields.advance yields_pure)))

theorem parsed_str (a : Word) : Parsed σ (.str a) (.str a) σ := by
  refine parsed_of_suffixes (by simp [CExpr.level]) rfl (readSuffixes_of_primary ?_)
  intro n k T _ _ _
  refine Yields.miss (by simp [Starts, CExpr.tokens]) (Yields.cur (Yields.node ?_))
  exact (yields_tyPtrTo .char).bind (Yields.advance yields_pure)

theorem yields_varRef {name : String} {v : Var} (h : σ.findVar name = some v) :
    Yields (varRef name) σ T (.var v) σ T := by
  refine Yields.get (q := newNode >>= fun _ => Pure.pure (.var v)) (fun s _ hσ => ?_)
    yields_pure.node
  have hfind : s.findVar name = some v := by rw [← h, ← hσ]; rfl
  rw [hfind]

theorem parsed_ident {name : String} {v : Var} (h : σ.findVar name = some v) :
    Parsed σ (.ident name) (.var v) σ := by
  refine parsed_of_suffixes (by simp [CExpr.level]) rfl (readSuffixes_of_primary ?_)
  intro n k T _ _ hT
  refine Yields.miss (by simp [Starts, CExpr.tokens]) (Yields.cur (Yields.advance ?_))
  exact Yields.miss hT (yields_varRef h)

theorem parsed_paren (hfits : e.fits σ = true) (h : Parsed σ e t σ₁) :
    Parsed σ (.paren e) t σ₁ := by
  refine parsed_of_suffixes (by simp [CExpr.level]) hfits (readSuffixes_of_primary ?_)
  intro n k T hn _ _
  simp only [CExpr.tokens, List.length_cons, List.length_append, List.length_nil] at hn
  have he := h.assign n (.punct ")" :: T) (by omega) (stops_closer (by simp) 1)
  simp only [CExpr.tokens, List.cons_append, List.append_assoc, List.nil_append]
  exact Yields.hit (by simp [Starts]) (he.bind (Yields.expect (by simp [Starts]) yields_pure))

theorem parsed_call {name : String} {args : CArgs} {as : Args} (hfits : args.fits σ = true)
    (h : ∀ n k T, args.tokens.length + 3 ≤ n → args.tokens.length ≤ k →
      Yields (callRest (assign n) k name) σ (args.tokens ++ .punct ")" :: T)
        (.funcall name as) σ₁ T) : Parsed σ (.call name args) (.funcall name as) σ₁ := by
  refine parsed_of_suffixes (by simp [CExpr.level]) hfits (readSuffixes_of_primary ?_)
  intro n k T hn hk _
  simp only [CExpr.tokens, List.length_cons, List.length_append, List.length_nil] at hn hk
  simp only [CExpr.tokens, List.cons_append, List.append_assoc, List.nil_append]
  refine Yields.miss (by simp [Starts]) (Yields.cur (Yields.advance ?_))
  exact Yields.hit (by simp [Starts]) (h n k T (by omega) (by omega))

theorem parsed_index {i : CExpr} {l r : Expr} (hfits : (CExpr.index e i).fits σ = true)
    (hlevel : 9 ≤ e.level) (ht : σ₂.sum l r = some t) (he : Parsed σ e l σ₁)
    (hi : Parsed σ₁ i r σ₂) : Parsed σ (.index e i) (.deref t (t.ty.base.getD .int)) σ₂ := by
  refine parsed_of_suffixes (by simp [CExpr.level]) hfits ?_
  intro n k m T b σ₃ T₃ hn hk hm _ hloop
  simp only [CExpr.tokens, List.length_cons, List.length_append, List.length_nil] at hn hk
  have hidx := hi.assign n (.punct "]" :: T) (by omega) (stops_closer (by simp) 1)
  have hread := he.suffixes hlevel n k (m + 1) _ b σ₃ T₃ (by omega) (by omega) (by omega)
    (by simp [Starts]) (hloop.index ht hidx)
  simpa only [CExpr.tokens, List.append_assoc, List.cons_append, List.nil_append] using hread

theorem parsed_dot {name : String} {l : Expr} {mem : Member}
    (hfits : (CExpr.dot e name).fits σ = true) (hlevel : 9 ≤ e.level)
    (hm : σ₁.findMember l.ty name = some mem) (he : Parsed σ e l σ₁) :
    Parsed σ (.dot e name) (.member l mem.offset mem.ty) σ₁ := by
  refine parsed_of_suffixes (by simp [CExpr.level]) hfits ?_
  intro n k m T b σ₃ T₃ hn hk hm' _ hloop
  simp only [CExpr.tokens, List.length_cons, List.length_append, List.length_nil] at hn hk
  have hread := he.suffixes hlevel n k (m + 1) _ b σ₃ T₃ (by omega) (by omega) (by omega)
    (by simp [Starts]) (hloop.dot hm)
  simpa only [CExpr.tokens, List.append_assoc, List.cons_append, List.nil_append] using hread

theorem parsed_arrow {name : String} {l : Expr} {st : Ty} {mem : Member}
    (hfits : (CExpr.arrow e name).fits σ = true) (hlevel : 9 ≤ e.level)
    (hst : l.ty.pointee = some st) (hm : σ₁.findMember st name = some mem)
    (he : Parsed σ e l σ₁) :
    Parsed σ (.arrow e name) (.member (.deref l st) mem.offset mem.ty) σ₁ := by
  refine parsed_of_suffixes (by simp [CExpr.level]) hfits ?_
  intro n k m T b σ₃ T₃ hn hk hm' _ hloop
  simp only [CExpr.tokens, List.length_cons, List.length_append, List.length_nil] at hn hk
  have hread := he.suffixes hlevel n k (m + 1) _ b σ₃ T₃ (by omega) (by omega) (by omega)
    (by simp [Starts]) (hloop.arrow hst hm)
  simpa only [CExpr.tokens, List.append_assoc, List.cons_append, List.nil_append] using hread

/-- What `sizeof` reads off the scope behind its operand. -/
theorem yields_sizeNum (ty : Ty) :
    Yields (P.get >>= fun s => newNum (BitVec.ofInt 64 (ty.size s.types))) σ T (σ.unit ty) σ T := by
  refine Yields.get (q := newNum (BitVec.ofInt 64 (ty.size σ.types))) (fun s _ hσ => ?_)
    (yields_newNum _)
  rw [← hσ]
  rfl

theorem parsed_sizeofType {ty : CType} {u : Ty} (hty : ty.meaning σ = some (u, σ₁)) :
    Parsed σ (.sizeofType ty) (σ₁.unit u) σ₁ := by
  refine parsed_of_unary (by simp [CExpr.level]) fun n k T hn hk hT => ?_
  simp only [CExpr.tokens, List.length_cons, List.length_append, List.length_nil] at hk
  simp only [CExpr.tokens, List.cons_append, List.append_assoc, List.nil_append]
  have hlooks := ty.looksLikeType (.punct ")" :: T) hty
  have hdecl := ty.parsed (T := .punct ")" :: T) (n := k) (m := 1) hty (by omega) (by simp)
    (starsFrom_end (by simp))
  refine Yields.hit (by simp [Starts]) (Yields.get (q := ?_) (fun s hs hσ => ?_) ?_)
  · exact do
      advance
      let t ← declspec k
      expect ")"
      let s ← P.get
      newNum (BitVec.ofInt 64 (t.size s.types))
  · have htest : (isPunct s.tk "(" && s.looksLikeType s.tk.tail) = true := by
      rw [hs, List.tail_cons, Bool.and_eq_true]
      exact ⟨by simp, by rw [← hlooks, ← hσ]; rfl⟩
    rw [if_pos htest]
  · exact Yields.advance (hdecl.bind (Yields.expect (by simp [Starts]) (yields_sizeNum u)))

theorem parsed_sizeofExpr (hlevel : 8 ≤ e.level)
    (hno : (isPunct e.tokens "(" && σ.looksLikeType e.tokens.tail) = false)
    (he : Parsed σ e t σ₁) : Parsed σ (.sizeofExpr e) (σ₁.unit t.ty) σ₁ := by
  refine parsed_of_unary rfl fun n k T hn hk hT => ?_
  simp only [CExpr.tokens, List.length_cons] at hn hk
  refine Yields.hit (by simp [Starts]) (Yields.get (q := ?_) (fun s hs hσ => ?_) ?_)
  · exact do
      let e ← unary (assign n) k
      let s ← P.get
      newNum (BitVec.ofInt 64 (e.ty.size s.types))
  · have htest : ¬ (isPunct s.tk "(" && s.looksLikeType s.tk.tail) = true := by
      have hs : s.tk = e.tokens ++ T := hs
      rw [hs, Bool.not_eq_true, ← hno]
      obtain ⟨x, r, hx, -⟩ := e.tokens_start
      by_cases hopen : isPunct e.tokens "(" = true
      · obtain ⟨x, y, r, hxy⟩ := e.second_token hopen
        rw [hxy, ← hσ]
        rfl
      · have hopen' : isPunct (e.tokens ++ T) "(" = false := by
          rw [hx] at hopen ⊢
          exact Bool.not_eq_true _ ▸ hopen
        rw [Bool.not_eq_true] at hopen
        rw [hopen, hopen', Bool.false_and, Bool.false_and]
    rw [if_neg htest]
  · exact (he.unary hlevel n k T (by omega) (by omega) hT).bind (yields_sizeNum t.ty)

/-- An operator in front of its operand: the node, the operand, and what is made of them. -/
theorem parsed_prefix {e' : CExpr} {x : Token} {u : Expr} (hlevel : e'.level = 8)
    (htokens : e'.tokens = x :: e.tokens) (he : 8 ≤ e.level) (h : Parsed σ e t σ₁)
    (hunary : ∀ n k T, Yields (unary (assign n) k) σ (e.tokens ++ T) t σ₁ T →
      Yields (unary (assign n) (k + 1)) σ (x :: (e.tokens ++ T)) u σ₁ T) : Parsed σ e' u σ₁ := by
  refine parsed_of_unary hlevel fun n k T hn hk hT => ?_
  rw [htokens, List.length_cons] at hn hk
  rw [htokens, List.cons_append]
  exact hunary n k T (h.unary he n k T (by omega) (by omega) hT)

theorem parsed_plus (he : 8 ≤ e.level) (h : Parsed σ e t σ₁) : Parsed σ (.plus e) t σ₁ :=
  parsed_prefix rfl rfl he h fun _ _ _ hu =>
    Yields.miss (by simp [Starts]) (Yields.hit (by simp [Starts]) hu)

theorem parsed_neg (he : 8 ≤ e.level) (h : Parsed σ e t σ₁) : Parsed σ (.neg e) (.neg t) σ₁ :=
  parsed_prefix rfl rfl he h fun _ _ _ hu =>
    Yields.miss (by simp [Starts]) (Yields.miss (by simp [Starts])
      (Yields.hit (by simp [Starts]) (Yields.node (Yields.bind hu yields_pure))))

theorem parsed_not (he : 8 ≤ e.level) (h : Parsed σ e t σ₁) : Parsed σ (.not e) (.not t) σ₁ :=
  parsed_prefix rfl rfl he h fun _ _ _ hu =>
    Yields.miss (by simp [Starts]) (Yields.miss (by simp [Starts]) (Yields.miss (by simp [Starts])
      (Yields.hit (by simp [Starts]) (Yields.node (Yields.bind hu yields_pure)))))

theorem yields_newDeref {u : Ty} (h : t.ty.base = some u) :
    Yields (newDeref t) σ T (.deref t u) σ T := by
  rw [newDeref, isPtrlike_iff, h]
  exact yields_pure

theorem parsed_star {u : Ty} (he : 8 ≤ e.level) (hu : t.ty.base = some u)
    (h : Parsed σ e t σ₁) : Parsed σ (.star e) (.deref t u) σ₁ :=
  parsed_prefix rfl rfl he h fun _ _ _ hr =>
    Yields.miss (by simp [Starts]) (Yields.miss (by simp [Starts]) (Yields.miss (by simp [Starts])
      (Yields.miss (by simp [Starts])
        (Yields.hit (by simp [Starts]) (hr.bind (yields_newDeref hu)).node))))

theorem parsed_amp (he : 8 ≤ e.level) (h : Parsed σ e t σ₁) :
    Parsed σ (.amp e) (.addr t (.ptr t.ty)) σ₁ :=
  parsed_prefix rfl rfl he h fun _ _ _ hr =>
    Yields.miss (by simp [Starts]) (Yields.miss (by simp [Starts]) (Yields.miss (by simp [Starts])
      (Yields.miss (by simp [Starts]) (Yields.miss (by simp [Starts])
        (Yields.hit (by simp [Starts])
          (Yields.node (Yields.bind hr (Yields.bind (yields_tyPtrTo t.ty) yields_pure))))))))

theorem COp.level_le (o : COp) : 2 ≤ o.level ∧ o.level ≤ 7 := by
  cases o <;> simp [COp.level]

theorem parsed_binary {o : COp} {l r : CExpr} {x y : Expr} (hl : o.level ≤ l.level)
    (hr : o.level < r.level) (ht : σ₂.apply o x y = some t) (hx : Parsed σ l x σ₁)
    (hy : Parsed σ₁ r y σ₂) : Parsed σ (.binary o l r) t σ₂ := by
  obtain ⟨h₂, h₇⟩ := o.level_le
  refine parsed_of_into (e := .binary o l r) h₂ h₇ fun n m T b σ₃ T₃ hn hm hT hloop => ?_
  simp only [CExpr.tokens, List.length_cons, List.length_append] at hn hm
  have hright := hy.readAt (j := o.level + 1) (by omega) (by omega) hr n T (by omega) hT
  have hread := hx.into o.level h₂ h₇ hl n (m + 1) _ b σ₃ T₃ (by omega) (by omega) (stops_op o)
    (hloop.op ht hright)
  simpa only [CExpr.level, CExpr.tokens, List.append_assoc, List.cons_append] using hread

theorem parsed_assign {l r : CExpr} {x y : Expr} (hl : 2 ≤ l.level) (hx : Parsed σ l x σ₁)
    (hy : Parsed σ₁ r y σ₂) : Parsed σ (.assign l r) (.assign x y x.ty) σ₂ := by
  refine parsed_of_assign rfl fun n T hn hT => ?_
  simp only [CExpr.tokens, List.length_cons, List.length_append] at hn
  obtain ⟨n, rfl⟩ : ∃ i, n = i + 1 := ⟨n - 1, by omega⟩
  have hleft := hx.readAt (j := 2) le_rfl (by omega) hl n (.punct "=" :: (r.tokens ++ T))
    (by omega) stops_eq
  have hright := hy.assign n T (by omega) hT
  have hread : Yields (assign (n + 1)) σ (l.tokens ++ .punct "=" :: (r.tokens ++ T))
      (.assign x y x.ty) σ₂ T :=
    hleft.bind (Yields.hit (by simp [Starts]) (Yields.node (Yields.bind hright yields_pure)))
  simpa only [CExpr.tokens, List.append_assoc, List.cons_append] using hread

end Constructors

section Trees

/-- The arguments behind a first one are read up to the closing parenthesis. -/
def ArgsRead (σ : Scope) (args : CArgs) (as : Args) (σ₁ : Scope) : Prop :=
  ∀ n k T, args.tokens.length + 3 ≤ n → args.tokens.length ≤ k → args ≠ .nil →
    Yields (argLoop (assign n) k) σ (args.tokens ++ .punct ")" :: T) as σ₁ (.punct ")" :: T)

theorem argsRead_one (h : Parsed σ e t σ₁) :
    ArgsRead σ (.cons e .nil) (.cons t .nil) σ₁ := by
  intro n k T hn hk _
  obtain ⟨x, r, hx, -⟩ := e.tokens_start
  simp only [CArgs.tokens, CArgs.tailTokens, List.append_nil] at hn hk ⊢
  obtain ⟨k, rfl⟩ : ∃ i, k = i + 1 := ⟨k - 1, by rw [hx, List.length_cons] at hk; omega⟩
  refine (h.assign n (.punct ")" :: T) hn (stops_closer (by simp) 1)).bind ?_
  exact Yields.miss (by simp [Starts]) yields_pure

theorem argsRead_cons {e' : CExpr} {args : CArgs} {as : Args} (h : Parsed σ e t σ₁)
    (hargs : ArgsRead σ₁ (.cons e' args) as σ₂) :
    ArgsRead σ (.cons e (.cons e' args)) (.cons t as) σ₂ := by
  intro n k T hn hk _
  simp only [CArgs.tokens, CArgs.tailTokens, List.length_append, List.length_cons] at hn hk
  obtain ⟨k, rfl⟩ : ∃ i, k = i + 1 := ⟨k - 1, by omega⟩
  have hnext := hargs n k T (by simp only [CArgs.tokens, List.length_append]; omega)
    (by simp only [CArgs.tokens, List.length_append]; omega) CArgs.noConfusion
  have hread : Yields (argLoop (assign n) (k + 1)) σ (e.tokens ++ .punct "," ::
      ((CArgs.cons e' args).tokens ++ .punct ")" :: T)) (.cons t as) σ₂ (.punct ")" :: T) :=
    (h.assign n _ (by omega) (stops_closer (by simp) 1)).bind
      (Yields.hit (by simp [Starts]) (Yields.bind hnext yields_pure))
  simpa only [CArgs.tokens, CArgs.tailTokens, List.append_assoc, List.cons_append] using hread

theorem yields_callRest_nil (name : String) :
    Yields (callRest (assign n) k name) σ (.punct ")" :: T) (.funcall name .nil) σ T :=
  Yields.node (Yields.at (by simp) (Yields.expect (by simp [Starts]) yields_pure))

theorem yields_callRest_cons {args : CArgs} {as : Args} {name : String}
    (h : ArgsRead σ (.cons e args) as σ₁) (hn : (CArgs.cons e args).tokens.length + 3 ≤ n)
    (hk : (CArgs.cons e args).tokens.length ≤ k) :
    Yields (callRest (assign n) k name) σ ((CArgs.cons e args).tokens ++ .punct ")" :: T)
      (.funcall name as) σ₁ T := by
  refine Yields.node (Yields.notAt ?_ ((h n k T hn hk CArgs.noConfusion).bind ?_))
  · obtain ⟨x, r, hx, hclose⟩ := e.tokens_start
    rw [CArgs.tokens, hx]
    exact hclose _
  · exact Yields.expect (by simp [Starts]) yields_pure

mutual

/-- Every tree of the grammar that has a meaning is read as its meaning. -/
theorem CExpr.parsed : ∀ (e : CExpr) {σ σ₁ : Scope} {t : Expr}, e.fits σ = true →
    e.meaning σ = some (t, σ₁) → Parsed σ e t σ₁
  | .num v, σ, σ₁, t, _, h => by
      simp only [CExpr.meaning, Option.some.injEq, Prod.mk.injEq] at h
      obtain ⟨rfl, rfl⟩ := h
      exact parsed_num v
  | .str a, σ, σ₁, t, _, h => by
      simp only [CExpr.meaning, Option.some.injEq, Prod.mk.injEq] at h
      obtain ⟨rfl, rfl⟩ := h
      exact parsed_str a
  | .ident name, σ, σ₁, t, _, h => by
      simp only [CExpr.meaning, Option.map_eq_some_iff, Prod.mk.injEq] at h
      obtain ⟨v, hv, rfl, rfl⟩ := h
      exact parsed_ident hv
  | .call name args, σ, σ₁, t, hf, h => by
      simp only [CExpr.meaning, Option.map_eq_some_iff, Prod.mk.injEq] at h
      obtain ⟨⟨as, σ'⟩, ha, rfl, rfl⟩ := h
      refine parsed_call hf fun n k T hn hk => ?_
      cases args with
      | nil =>
        simp only [CArgs.meaning, Option.some.injEq, Prod.mk.injEq] at ha
        obtain ⟨rfl, rfl⟩ := ha
        exact yields_callRest_nil name
      | cons e args => exact yields_callRest_cons (CArgs.parsed (.cons e args) hf ha) hn hk
  | .paren e, σ, σ₁, t, hf, h => parsed_paren hf (e.parsed hf h)
  | .index e i, σ, σ₁, t, hf, h => by
      have hf' := hf
      simp only [CExpr.fits, Bool.and_eq_true, decide_eq_true_eq] at hf'
      simp only [CExpr.meaning, Option.bind_eq_some_iff, Option.map_eq_some_iff, Prod.mk.injEq] at h
      obtain ⟨⟨l, σl⟩, hl, ⟨r, σr⟩, hr, u, hu, rfl, rfl⟩ := h
      exact parsed_index hf hf'.2 hu (e.parsed hf'.1.1 hl) (i.parsed (i.fits_grows (e.grows hl) ▸ hf'.1.2) hr)
  | .dot e name, σ, σ₁, t, hf, h => by
      have hf' := hf
      simp only [CExpr.fits, Bool.and_eq_true, decide_eq_true_eq] at hf'
      simp only [CExpr.meaning, Option.bind_eq_some_iff, Option.map_eq_some_iff, Prod.mk.injEq] at h
      obtain ⟨⟨l, σl⟩, hl, mem, hm, rfl, rfl⟩ := h
      exact parsed_dot hf hf'.2 hm (e.parsed hf'.1 hl)
  | .arrow e name, σ, σ₁, t, hf, h => by
      have hf' := hf
      simp only [CExpr.fits, Bool.and_eq_true, decide_eq_true_eq] at hf'
      simp only [CExpr.meaning, Option.bind_eq_some_iff, Option.map_eq_some_iff, Prod.mk.injEq] at h
      obtain ⟨⟨l, σl⟩, hl, st, hst, mem, hm, rfl, rfl⟩ := h
      exact parsed_arrow hf hf'.2 hst hm (e.parsed hf'.1 hl)
  | .sizeofType ty, σ, σ₁, t, _, h => by
      simp only [CExpr.meaning, Option.map_eq_some_iff, Prod.mk.injEq] at h
      obtain ⟨⟨u, σ'⟩, hu, rfl, rfl⟩ := h
      exact parsed_sizeofType hu
  | .sizeofExpr e, σ, σ₁, t, hf, h => by
      simp only [CExpr.fits, Bool.and_eq_true, decide_eq_true_eq, Bool.not_eq_true'] at hf
      simp only [CExpr.meaning, Option.map_eq_some_iff, Prod.mk.injEq] at h
      obtain ⟨⟨u, σ'⟩, hu, rfl, rfl⟩ := h
      exact parsed_sizeofExpr hf.1.2 hf.2 (e.parsed hf.1.1 hu)
  | .plus e, σ, σ₁, t, hf, h => by
      simp only [CExpr.fits, Bool.and_eq_true, decide_eq_true_eq] at hf
      exact parsed_plus hf.2 (e.parsed hf.1 h)
  | .neg e, σ, σ₁, t, hf, h => by
      simp only [CExpr.fits, Bool.and_eq_true, decide_eq_true_eq] at hf
      simp only [CExpr.meaning, Option.map_eq_some_iff, Prod.mk.injEq] at h
      obtain ⟨⟨u, σ'⟩, hu, rfl, rfl⟩ := h
      exact parsed_neg hf.2 (e.parsed hf.1 hu)
  | .not e, σ, σ₁, t, hf, h => by
      simp only [CExpr.fits, Bool.and_eq_true, decide_eq_true_eq] at hf
      simp only [CExpr.meaning, Option.map_eq_some_iff, Prod.mk.injEq] at h
      obtain ⟨⟨u, σ'⟩, hu, rfl, rfl⟩ := h
      exact parsed_not hf.2 (e.parsed hf.1 hu)
  | .star e, σ, σ₁, t, hf, h => by
      simp only [CExpr.fits, Bool.and_eq_true, decide_eq_true_eq] at hf
      simp only [CExpr.meaning, Option.bind_eq_some_iff, Option.map_eq_some_iff, Prod.mk.injEq] at h
      obtain ⟨⟨u, σ'⟩, hu, b, hb, rfl, rfl⟩ := h
      exact parsed_star hf.2 hb (e.parsed hf.1 hu)
  | .amp e, σ, σ₁, t, hf, h => by
      simp only [CExpr.fits, Bool.and_eq_true, decide_eq_true_eq] at hf
      simp only [CExpr.meaning, Option.map_eq_some_iff, Prod.mk.injEq] at h
      obtain ⟨⟨u, σ'⟩, hu, rfl, rfl⟩ := h
      exact parsed_amp hf.2 (e.parsed hf.1 hu)
  | .binary o l r, σ, σ₁, t, hf, h => by
      simp only [CExpr.fits, Bool.and_eq_true, decide_eq_true_eq] at hf
      simp only [CExpr.meaning, Option.bind_eq_some_iff, Option.map_eq_some_iff, Prod.mk.injEq] at h
      obtain ⟨⟨x, σx⟩, hx, ⟨y, σy⟩, hy, u, hu, rfl, rfl⟩ := h
      exact parsed_binary hf.1.2 hf.2 hu (l.parsed hf.1.1.1 hx)
        (r.parsed (r.fits_grows (l.grows hx) ▸ hf.1.1.2) hy)
  | .assign l r, σ, σ₁, t, hf, h => by
      simp only [CExpr.fits, Bool.and_eq_true, decide_eq_true_eq] at hf
      simp only [CExpr.meaning, Option.bind_eq_some_iff, Option.map_eq_some_iff, Prod.mk.injEq] at h
      obtain ⟨⟨x, σx⟩, hx, ⟨y, σy⟩, hy, rfl, rfl⟩ := h
      exact parsed_assign hf.2 (l.parsed hf.1.1 hx) (r.parsed (r.fits_grows (l.grows hx) ▸ hf.1.2) hy)

theorem CArgs.parsed : ∀ (args : CArgs) {σ σ₁ : Scope} {as : Args}, args.fits σ = true →
    args.meaning σ = some (as, σ₁) → ArgsRead σ args as σ₁
  | .nil, _, _, _, _, _ => fun _ _ _ _ _ h => absurd rfl h
  | .cons e .nil, σ, σ₁, as, hf, h => by
      simp only [CArgs.fits, Bool.and_eq_true] at hf
      simp only [CArgs.meaning, Option.bind_eq_some_iff, Option.map_some, Option.some.injEq,
        Prod.mk.injEq] at h
      obtain ⟨⟨x, σx⟩, hx, rfl, rfl⟩ := h
      exact argsRead_one (e.parsed hf.1 hx)
  | .cons e (.cons e' args), σ, σ₁, as, hf, h => by
      rw [CArgs.fits, Bool.and_eq_true] at hf
      rw [CArgs.meaning] at h
      simp only [Option.bind_eq_some_iff, Option.map_eq_some_iff, Prod.mk.injEq] at h
      obtain ⟨⟨x, σx⟩, hx, ⟨as', σ'⟩, ha, rfl, rfl⟩ := h
      have hargs := (CArgs.cons e' args).fits_grows (e.grows hx) ▸ hf.2
      exact argsRead_cons (e.parsed hf.1 hx) (CArgs.parsed (.cons e' args) hargs ha)

end

end Trees

end XinuRpi4.Compiler
