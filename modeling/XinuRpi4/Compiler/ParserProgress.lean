import XinuRpi4.Compiler.Parser

/-!
# What the functions of the parser consume

A function of the parser either answers, with the cursor further down the list, or its
fuel is used up, or a loop has been reached at a token where it cannot go on. As many
units of fuel as there are tokens, and a few more, are enough.
-/

namespace XinuRpi4.Compiler

variable {α β : Type}

/-- A list of tokens as the lexer makes it. -/
def Ends (tk : List Token) : Prop := ∃ pre e, tk = pre ++ [e] ∧ e.kind = .eof

/-- Some call consumes the token, as punctuator or keyword (`cs`) or as punctuator (`ps`). -/
def Eats (cs ps : List String) (t : Token) : Prop :=
  t.kind = .num ∨ t.kind = .str ∨ t.kind = .ident ∨
    (t.kind = .punct ∨ t.kind = .kw) ∧ t.text ∈ cs ∨ t.kind = .punct ∧ t.text ∈ ps

instance (cs ps : List String) (t : Token) : Decidable (Eats cs ps t) :=
  inferInstanceAs (Decidable (_ ∨ _))

/-- What `consume` and `expect` find at the start of a statement. -/
def startTexts : List String :=
  ["(", "sizeof", "+", "-", "!", "*", "&", "*", "/", "%", "+", "-", "<", "<=", ">", ">=", "==",
    "!=", "&&", "||", "=", ";"]

def stmtTexts : List String :=
  ["return", "if", "while", "for", "switch", "case", "default", "break", "continue"]

/-- The loop condition can be read, and the body consumes a token or is not entered. -/
def HeadFine : LoopKind × List Token → Prop
  | (_, []) => False
  | (.members, _ :: _) => True
  | (.block, t :: _) => t.kind = .eof ∨ t.kind = .punct ∧ t.text = "\x7d" ∨
      t.kind = .kw ∧ t.text ∈ ["int", "char", "struct"] ∨
      Eats (stmtTexts ++ startTexts) ["[", ".", "->", "\x7b"] t

instance : DecidablePred HeadFine
  | (.block, []) => isFalse id
  | (.members, []) => isFalse id
  | (.members, _ :: _) => isTrue trivial
  | (.block, _ :: _) => inferInstanceAs (Decidable (_ ∨ _ ∨ _ ∨ _))

/-- Some loop has been reached where it cannot go on. -/
def Bad (s : PState) : Prop := ∃ h ∈ s.heads, ¬ HeadFine h

/-- What is known of the outcome of a call; `E` says that there was enough fuel. -/
def Sound (E : Prop) (s : PState) (Q : α → PState → Prop) : Outcome α → Prop
  | .done a s' => Q a s' ∧ s.heads <:+ s'.heads ∧ (Bad s' → Bad s)
  | .stop why s' => s.heads <:+ s'.heads ∧ (why = .arena ∨ Bad s' ∨ why = .fuel ∧ ¬ E)

theorem bad_of_suffix {s s' : PState} (h : s.heads <:+ s'.heads) (hb : Bad s) : Bad s' := by
  obtain ⟨x, hx, hn⟩ := hb
  exact ⟨x, h.subset hx, hn⟩

section Rules

variable {E : Prop} {s : PState} {p : P α} {f : α → P β} {Q : α → PState → Prop}
  {R : β → PState → Prop}

theorem bind_eq (p : P α) (f : α → P β) (s : PState) : (p >>= f) s =
    match p s with
    | .done a s => f a s
    | .stop why s => .stop why s := rfl

theorem Sound.bind (hp : Sound E s Q (p s)) (hf : ∀ a s', Q a s' → Sound E s' R (f a s')) :
    Sound E s R ((p >>= f) s) := by
  rw [bind_eq]
  cases hps : p s with
  | done a s₁ =>
    rw [hps] at hp
    obtain ⟨hQ, hheads, hbad⟩ := hp
    have hrest := hf a s₁ hQ
    dsimp only
    cases hfa : f a s₁ with
    | done b s₂ =>
      rw [hfa] at hrest
      exact ⟨hrest.1, hheads.trans hrest.2.1, fun h => hbad (hrest.2.2 h)⟩
    | stop why s₂ =>
      rw [hfa] at hrest
      exact ⟨hheads.trans hrest.1, hrest.2⟩
  | stop why s₁ =>
    rw [hps] at hp
    exact hp

theorem Sound.mono {o : Outcome α} {Q' : α → PState → Prop} (h : Sound E s Q o)
    (hQ : ∀ a s', Q a s' → Q' a s') : Sound E s Q' o := by
  cases o with
  | done a s' => exact ⟨hQ a s' h.1, h.2⟩
  | stop why s' => exact h

theorem Sound.ret {a : α} (h : Q a s) : Sound E s Q ((Pure.pure a : P α) s) :=
  ⟨h, List.suffix_rfl, id⟩

theorem Sound.outOfFuel (h : ¬ E) : Sound E s Q ((P.stop .fuel : P α) s) :=
  ⟨List.suffix_rfl, Or.inr (Or.inr ⟨rfl, h⟩)⟩

end Rules

section Silent

/-- A state with the cursor and the ghosts of another. -/
structure SameCursor (s s' : PState) : Prop where
  tk : s'.tk = s.tk
  heads : s'.heads = s.heads
  lengths : s'.lengths = s.lengths

theorem SameCursor.refl (s : PState) : SameCursor s s := ⟨rfl, rfl, rfl⟩

theorem SameCursor.trans {s s₁ s₂ : PState} (h : SameCursor s s₁) (h' : SameCursor s₁ s₂) :
    SameCursor s s₂ :=
  ⟨h'.tk.trans h.tk, h'.heads.trans h.heads, h'.lengths.trans h.lengths⟩

/-- A call that leaves the cursor where it is and tests no loop condition. -/
def Silent (p : P α) : Prop := ∀ s,
  match p s with
  | .done _ s' => SameCursor s s'
  | .stop why s' => why = .arena ∧ SameCursor s s'

theorem bad_congr {s s' : PState} (h : s'.heads = s.heads) : Bad s' ↔ Bad s := by
  simp only [Bad, h]

theorem Silent.sound {p : P α} (hp : Silent p) (E : Prop) (s : PState) :
    Sound E s (fun _ s' => s'.tk = s.tk) (p s) := by
  have h := hp s
  cases hps : p s with
  | done a s' =>
    rw [hps] at h
    exact ⟨h.tk, h.heads ▸ List.suffix_rfl, (bad_congr h.heads).mp⟩
  | stop why s' =>
    rw [hps] at h
    exact ⟨h.2.heads ▸ List.suffix_rfl, Or.inl h.1⟩

theorem Silent.bind {p : P α} {f : α → P β} (hp : Silent p) (hf : ∀ a, Silent (f a)) :
    Silent (p >>= f) := by
  intro s
  have h := hp s
  rw [bind_eq]
  cases hps : p s with
  | done a s₁ =>
    rw [hps] at h
    have h₂ := hf a s₁
    dsimp only
    cases hfa : f a s₁ with
    | done b s₂ =>
      rw [hfa] at h₂
      exact h.trans h₂
    | stop why s₂ =>
      rw [hfa] at h₂
      exact ⟨h₂.1, h.trans h₂.2⟩
  | stop why s₁ =>
    rw [hps] at h
    exact h

theorem silent_pure (a : α) : Silent (Pure.pure a : P α) := SameCursor.refl

theorem silent_get : Silent P.get := SameCursor.refl

theorem silent_modify {f : PState → PState} (h : ∀ s, SameCursor s (f s)) :
    Silent (P.modify f) := h

theorem silent_ccAlloc (n : ℕ) : Silent (ccAlloc n) := by
  intro s
  unfold ccAlloc
  dsimp only
  split_ifs
  · exact ⟨rfl, rfl, rfl⟩
  · exact ⟨rfl, rfl, rfl, rfl⟩

theorem silent_newNode : Silent newNode := silent_ccAlloc nodeSize

theorem silent_ccError (msg : String) : Silent (ccError msg) := fun _ => ⟨rfl, rfl, rfl⟩

theorem silent_check (c : Bool) (msg : String) : Silent (check c msg) := by
  unfold check
  split_ifs
  · exact silent_pure _
  · exact silent_ccError msg

theorem silent_newNum (v : Word) : Silent (newNum v) := silent_newNode.bind fun _ => silent_pure _

theorem silent_tyPtrTo (t : Ty) : Silent (tyPtrTo t) :=
  (silent_ccAlloc typeSize).bind fun _ => silent_pure _

theorem silent_tyArrayOf (t : Ty) (len : ℤ) : Silent (tyArrayOf t len) :=
  (silent_ccAlloc typeSize).bind fun _ => silent_get.bind fun _ => silent_pure _

theorem silent_newLocal (name : String) (ty : Ty) : Silent (newLocal name ty) := by
  refine (silent_ccAlloc varSize).bind fun p => ?_
  dsimp only
  refine Silent.bind (silent_modify ?_) fun _ => silent_pure _
  exact fun _ => ⟨rfl, rfl, rfl⟩

theorem silent_newGlobal (name : String) (ty : Ty) : Silent (newGlobal name ty) := by
  refine (silent_ccAlloc varSize).bind fun _ => silent_get.bind fun s => ?_
  refine (silent_ccAlloc _).bind fun p => ?_
  dsimp only
  refine Silent.bind (silent_modify ?_) fun _ => silent_pure _
  exact fun _ => ⟨rfl, rfl, rfl⟩

theorem silent_newBinary (k : BinKind) (l r : Expr) : Silent (newBinary k l r) :=
  silent_newNode.bind fun _ => silent_pure _

theorem silent_scale (l : Expr) : Silent (scale l) := silent_get.bind fun _ => silent_pure _

theorem silent_newScaled (k : BinKind) (l r : Expr) : Silent (newScaled k l r) :=
  (silent_scale l).bind fun _ => (silent_newNum _).bind fun _ =>
    (silent_newBinary .mul r _).bind fun _ => silent_newNode.bind fun _ =>
      (silent_tyPtrTo _).bind fun _ => silent_pure _

theorem silent_newAdd (l r : Expr) : Silent (newAdd l r) := by
  unfold newAdd
  split
  · exact silent_newBinary .add l r
  · exact (silent_ccError _).bind fun _ => silent_pure _
  · exact silent_newScaled .add l r
  · exact silent_newScaled .add r l

theorem silent_newSub (l r : Expr) : Silent (newSub l r) := by
  unfold newSub
  split
  · exact silent_newBinary .sub l r
  · exact silent_newScaled .sub l r
  · exact (silent_scale l).bind fun _ => (silent_newBinary .sub l r).bind fun _ =>
      (silent_newNum _).bind fun _ => silent_newBinary .div _ _
  · exact (silent_ccError _).bind fun _ => silent_pure _

theorem silent_mulOps : ∀ o ∈ mulOps, ∀ l e, Silent (o.2 l e) := by
  simp only [mulOps, List.forall_mem_cons]
  exact ⟨silent_newBinary _, silent_newBinary _, silent_newBinary _, by simp⟩

theorem silent_addOps : ∀ o ∈ addOps, ∀ l e, Silent (o.2 l e) := by
  simp only [addOps, List.forall_mem_cons]
  exact ⟨silent_newAdd, silent_newSub, by simp⟩

theorem silent_relOps : ∀ o ∈ relOps, ∀ l e, Silent (o.2 l e) := by
  simp only [relOps, List.forall_mem_cons]
  exact ⟨silent_newBinary _, silent_newBinary _, fun l e => silent_newBinary _ e l,
    fun l e => silent_newBinary _ e l, by simp⟩

theorem silent_eqOps : ∀ o ∈ eqOps, ∀ l e, Silent (o.2 l e) := by
  simp only [eqOps, List.forall_mem_cons]
  exact ⟨silent_newBinary _, silent_newBinary _, by simp⟩

theorem silent_andOps : ∀ o ∈ andOps, ∀ l e, Silent (o.2 l e) := by
  simp only [andOps, List.forall_mem_cons]
  exact ⟨silent_newBinary _, by simp⟩

theorem silent_orOps : ∀ o ∈ orOps, ∀ l e, Silent (o.2 l e) := by
  simp only [orOps, List.forall_mem_cons]
  exact ⟨silent_newBinary _, by simp⟩

theorem silent_newIndex (e idx : Expr) : Silent (newIndex e idx) :=
  (silent_newAdd e idx).bind fun _ => silent_newNode.bind fun _ => silent_pure _

theorem silent_memberOf (st : Option Ty) (name : String) : Silent (memberOf st name) :=
  silent_get.bind fun _ => silent_pure _

theorem silent_newDeref (e : Expr) : Silent (newDeref e) := by
  unfold newDeref
  split_ifs
  · exact silent_pure _
  · exact (silent_ccError _).bind fun _ => silent_pure _

theorem silent_varRef (name : String) : Silent (varRef name) := by
  refine silent_get.bind fun s => ?_
  cases s.findVar name with
  | none => exact (silent_ccError _).bind fun _ => silent_newNum 0
  | some v => exact silent_newNode.bind fun _ => silent_pure _

theorem silent_structRef (tag : Option String) : Silent (structRef tag) := by
  cases tag with
  | none => exact (silent_ccError _).bind fun _ => silent_pure _
  | some tag =>
    refine silent_get.bind fun s => ?_
    cases s.findStruct tag with
    | none => exact (silent_ccError _).bind fun _ => silent_pure _
    | some id => exact silent_pure _

theorem silent_registerTag (tag : Option String) (id : ℕ) : Silent (registerTag tag id) := by
  cases tag with
  | none => exact silent_pure _
  | some tag => exact (silent_ccAlloc _).bind fun _ => silent_modify fun _ => ⟨rfl, rfl, rfl⟩

theorem silent_registerTypedef (name : String) (ty : Ty) : Silent (registerTypedef name ty) :=
  (silent_ccAlloc _).bind fun _ => silent_modify fun _ => ⟨rfl, rfl, rfl⟩

theorem silent_newCase (val : Word) (isDefault : Bool) : Silent (newCase val isDefault) := by
  refine silent_newNode.bind fun p => ?_
  dsimp only
  refine Silent.bind (silent_modify ?_) fun _ => silent_pure _
  exact fun _ => ⟨rfl, rfl, rfl⟩

theorem silent_insideSwitch (msg : String) : Silent (insideSwitch msg) := by
  refine silent_get.bind fun s => ?_
  exact silent_check _ msg

end Silent

section Cursor

/-- The cursor later on, behind the tokens of `T` that a call consumes. -/
structure After (cs ps : List String) (T T' : List Token) : Prop where
  ends : Ends T'
  suffix : T' <:+ T
  eats : ∀ t r, T = t :: r → Eats cs ps t → T'.length < T.length
  stays : ∀ t r, T = t :: r → ¬ Eats cs ps t → T' = T

/-- The cursor later on. -/
structure Beyond (T T' : List Token) : Prop where
  ends : Ends T'
  suffix : T' <:+ T

theorem After.beyond {cs ps : List String} {T T' : List Token} (h : After cs ps T T') :
    Beyond T T' := ⟨h.ends, h.suffix⟩

theorem Beyond.length {T T' : List Token} (h : Beyond T T') : T'.length ≤ T.length :=
  h.suffix.length_le

theorem Beyond.refl {T : List Token} (h : Ends T) : Beyond T T := ⟨h, List.suffix_rfl⟩

theorem Beyond.trans {T T₁ T₂ : List Token} (h₁ : Beyond T T₁) (h₂ : Beyond T₁ T₂) :
    Beyond T T₂ := ⟨h₂.ends, h₂.suffix.trans h₁.suffix⟩

theorem Ends.ne_nil {tk : List Token} (h : Ends tk) : tk ≠ [] := by
  obtain ⟨pre, e, rfl, -⟩ := h
  simp

theorem Ends.tail {t : Token} {r : List Token} (h : Ends (t :: r)) (ht : t.kind ≠ .eof) :
    Ends r := by
  obtain ⟨pre, e, heq, he⟩ := h
  cases pre with
  | nil =>
    rw [List.nil_append, List.cons.injEq] at heq
    rw [heq.1] at ht
    exact absurd he ht
  | cons x pre =>
    rw [List.cons_append, List.cons.injEq] at heq
    exact ⟨pre, e, heq.2, he⟩

theorem Ends.length_pos {tk : List Token} (h : Ends tk) : 0 < tk.length :=
  List.length_pos_of_ne_nil h.ne_nil

theorem Ends.cons {tk : List Token} (h : Ends tk) : ∃ t r, tk = t :: r :=
  List.exists_cons_of_ne_nil h.ne_nil

/-- What `consume` and `expect` look for. -/
def Takes (x : String) (t : Token) : Prop := (t.kind = .punct ∨ t.kind = .kw) ∧ t.text = x

instance (x : String) (t : Token) : Decidable (Takes x t) := inferInstanceAs (Decidable (_ ∧ _))

theorem Takes.ne_eof {x : String} {t : Token} (h : Takes x t) : t.kind ≠ .eof := by
  rcases h.1 with h | h <;> rw [h] <;> decide

theorem takes_iff (x : String) (t : Token) (r : List Token) :
    (isPunct (t :: r) x || isKw (t :: r) x) = true ↔ Takes x t := by
  simp only [isPunct, isKw, Bool.or_eq_true, decide_eq_true_eq, Takes]
  tauto

variable {E : Prop} {s : PState} {t : Token} {r : List Token} {x : String} {R : β → PState → Prop}

theorem Sound.congr {s₁ : PState} {o : Outcome β} (h : s₁.heads = s.heads) (ho : Sound E s₁ R o) :
    Sound E s R o := by
  cases o with
  | done b s' => exact ⟨ho.1, h ▸ ho.2.1, fun hb => (bad_congr h).mp (ho.2.2 hb)⟩
  | stop why s' => exact ⟨h ▸ ho.1, ho.2⟩

theorem sound_consume {f : Bool → P β} (htk : s.tk = t :: r)
    (hyes : Takes x t → Sound E { s with tk := r } R (f true { s with tk := r }))
    (hno : ¬ Takes x t → Sound E s R (f false s)) : Sound E s R ((consume x >>= f) s) := by
  rw [bind_eq, consume, htk]
  by_cases ht : Takes x t
  · rw [if_pos ((takes_iff x t r).mpr ht)]
    exact Sound.congr rfl (hyes ht)
  · rw [if_neg (fun h => ht ((takes_iff x t r).mp h))]
    exact hno ht

theorem sound_atPunct {f : Bool → P β} (htk : s.tk = t :: r)
    (hyes : t.kind = .punct ∧ t.text = x → Sound E s R (f true s))
    (hno : ¬ (t.kind = .punct ∧ t.text = x) → Sound E s R (f false s)) :
    Sound E s R ((atPunct x >>= f) s) := by
  rw [bind_eq, atPunct, htk]
  by_cases ht : t.kind = .punct ∧ t.text = x
  · rw [isPunct, decide_eq_true ht]
    exact hyes ht
  · rw [isPunct, decide_eq_false ht]
    exact hno ht

theorem sound_cur {f : Token → P β} (htk : s.tk = t :: r) (h : Sound E s R (f t s)) :
    Sound E s R ((cur >>= f) s) := by
  rw [bind_eq, cur, htk]
  exact h

theorem sound_advance {f : Unit → P β} (htk : s.tk = t :: r)
    (h : Sound E { s with tk := r } R (f () { s with tk := r })) :
    Sound E s R ((advance >>= f) s) := by
  rw [bind_eq, advance, htk]
  exact Sound.congr rfl h

theorem sound_expect {f : Unit → P β} (hs : Ends s.tk)
    (h : ∀ s', Beyond s.tk s'.tk → Sound E s' R (f () s')) :
    Sound E s R ((expect x >>= f) s) := by
  obtain ⟨t, r, htk⟩ := hs.cons
  rw [bind_eq, expect, htk]
  by_cases ht : Takes x t
  · rw [if_pos ((takes_iff x t r).mpr ht), advance, htk]
    have hr : Ends r := (htk ▸ hs).tail ht.ne_eof
    exact Sound.congr rfl (h { s with tk := r } ⟨hr, htk ▸ List.suffix_cons t r⟩)
  · rw [if_neg (fun h => ht ((takes_iff x t r).mp h))]
    exact Sound.congr rfl (h _ ⟨hs, List.suffix_rfl⟩)

theorem sound_logLength {f : Unit → P β}
    (h : Sound E { s with lengths := s.tk :: s.lengths } R
      (f () { s with lengths := s.tk :: s.lengths })) :
    Sound E s R ((logLength >>= f) s) := Sound.congr rfl h

theorem sound_silent {p : P α} {f : α → P β} (hp : Silent p)
    (h : ∀ a s', s'.tk = s.tk → Sound E s' R (f a s')) : Sound E s R ((p >>= f) s) :=
  (hp.sound E s).bind h

end Cursor

/-- What a function does with the tokens at the cursor, if there are at most `b` of them. -/
def Spec (b : ℕ) (cs ps : List String) (p : P α) : Prop :=
  ∀ (E : Prop) (s : PState), Ends s.tk → (E → s.tk.length ≤ b) →
    Sound E s (fun _ s' => After cs ps s.tk s'.tk) (p s)

theorem Beyond.step {T r T' : List Token} {t : Token} (hT : T = t :: r) (h : Beyond r T') :
    Beyond T T' := ⟨h.ends, hT ▸ h.suffix.trans (List.suffix_cons t r)⟩

theorem After.of_lt {cs ps : List String} {T r T' : List Token} {t : Token} (hT : T = t :: r)
    (h : Beyond r T') (ht : Eats cs ps t) : After cs ps T T' where
  ends := h.ends
  suffix := (h.step hT).suffix
  eats _ _ _ _ := by
    have := h.length
    rw [hT, List.length_cons]
    omega
  stays t' r' hT' hn := by
    rw [hT, List.cons.injEq] at hT'
    exact absurd (hT'.1 ▸ ht) hn

theorem After.of_same {cs ps : List String} {T r T' : List Token} {t : Token} (hT : T = t :: r)
    (hends : Ends T) (h : T' = T) (ht : ¬ Eats cs ps t) : After cs ps T T' where
  ends := h ▸ hends
  suffix := h ▸ List.suffix_rfl
  eats t' r' hT' he := by
    rw [hT, List.cons.injEq] at hT'
    exact absurd (hT'.1 ▸ he) ht
  stays _ _ _ _ := h

theorem Takes.eats {x : String} {t : Token} (h : Takes x t) {cs : List String} (hx : x ∈ cs)
    (ps : List String) : Eats cs ps t := by
  obtain ⟨hk, rfl⟩ := h
  exact Or.inr (Or.inr (Or.inr (Or.inl ⟨hk, hx⟩)))

section Null

variable {E : Prop} {s : PState} {t : Token} {r : List Token} {x : String} {R : β → PState → Prop}

/-- The cursor later on, or null. -/
def Maybe (T T' : List Token) : Prop := Beyond T T' ∨ T' = []

theorem Ends.tail_or {t : Token} {r : List Token} (h : Ends (t :: r)) : Ends r ∨ r = [] := by
  obtain ⟨pre, e, heq, he⟩ := h
  cases pre with
  | nil =>
    rw [List.nil_append, List.cons.injEq] at heq
    exact Or.inr heq.2
  | cons x pre =>
    rw [List.cons_append, List.cons.injEq] at heq
    exact Or.inl ⟨pre, e, heq.2, he⟩

theorem sound_expect_maybe {T : List Token} {f : Unit → P β} (hs : Maybe T s.tk)
    (h : ∀ s', Maybe T s'.tk → Sound E s' R (f () s')) : Sound E s R ((expect x >>= f) s) := by
  rcases hs with hs | hs
  · exact sound_expect hs.ends fun s' h' => h s' (Or.inl (hs.trans h'))
  · rw [bind_eq, expect, hs]
    exact Sound.congr rfl (h _ (Or.inr hs))

/-- A loop condition that can be read. -/
theorem sound_logHead {k : LoopKind} {f : Unit → P β} (hfine : HeadFine (k, s.tk))
    (h : Sound E { s with heads := (k, s.tk) :: s.heads } R
      (f () { s with heads := (k, s.tk) :: s.heads })) :
    Sound E s R ((logHead k >>= f) s) := by
  have heq : (logHead k >>= f) s = f () { s with heads := (k, s.tk) :: s.heads } := rfl
  rw [heq]
  have hsuf : s.heads <:+ (k, s.tk) :: s.heads := List.suffix_cons _ _
  cases ho : f () { s with heads := (k, s.tk) :: s.heads } with
  | done b s' =>
    rw [ho] at h
    refine ⟨h.1, hsuf.trans h.2.1, fun hb => ?_⟩
    obtain ⟨y, hy, hn⟩ := h.2.2 hb
    rcases List.mem_cons.mp hy with rfl | hy
    · exact absurd hfine hn
    · exact ⟨y, hy, hn⟩
  | stop why s' =>
    rw [ho] at h
    exact ⟨hsuf.trans h.1, h.2⟩

/-- A loop that does not end behind a condition where it cannot go on. -/
theorem sound_logHead_bad {k : LoopKind} {f : Unit → P β} (hbad : ¬ HeadFine (k, s.tk))
    (h : Sound False { s with heads := (k, s.tk) :: s.heads } (fun _ _ => False)
      (f () { s with heads := (k, s.tk) :: s.heads })) :
    Sound E s R ((logHead k >>= f) s) := by
  have heq : (logHead k >>= f) s = f () { s with heads := (k, s.tk) :: s.heads } := rfl
  rw [heq]
  cases ho : f () { s with heads := (k, s.tk) :: s.heads } with
  | done b s' =>
    rw [ho] at h
    exact h.1.elim
  | stop why s' =>
    rw [ho] at h
    have hin : (k, s.tk) ∈ s'.heads := h.1.subset (List.mem_cons_self ..)
    exact ⟨(List.suffix_cons _ _).trans h.1, Or.inr (Or.inl ⟨_, hin, hbad⟩)⟩

/-- A loop condition that is read through the null pointer. -/
theorem sound_null_head {k : LoopKind} {f : Bool → P β} {x : String} (hs : s.tk = [])
    (hf : ∀ s', s'.tk = [] → f false s' = .stop .null s') :
    Sound E s R ((logHead k >>= fun _ => atPunct x >>= f) s) := by
  have heq : (logHead k >>= fun _ => atPunct x >>= f) s =
      .stop .null { s with heads := (k, s.tk) :: s.heads } := by
    have hstop := hf { s with heads := (k, s.tk) :: s.heads } hs
    rw [← hstop, bind_eq]
    simp only [logHead, P.modify]
    rw [bind_eq]
    simp only [atPunct, hs, isPunct]
  rw [heq]
  refine ⟨List.suffix_cons _ _, Or.inr (Or.inl ⟨_, List.mem_cons_self .., ?_⟩)⟩
  rw [hs]
  exact id

end Null

section Types

variable {E : Prop} {s : PState} {b n : ℕ}

theorem starLoop_sound {ty : Ty} (hs : Ends s.tk) (hE : E → s.tk.length + 1 ≤ n) :
    Sound E s (fun _ s' => Beyond s.tk s'.tk) (starLoop n ty s) := by
  induction n generalizing s ty with
  | zero => exact Sound.outOfFuel fun h => by have := hE h; omega
  | succ n ih =>
    obtain ⟨t, r, htk⟩ := hs.cons
    rw [starLoop]
    refine sound_atPunct htk (fun ht => ?_) fun _ => Sound.ret (Beyond.refl hs)
    have hr : Ends r := (htk ▸ hs).tail (by rw [ht.1]; decide)
    refine sound_advance htk (sound_silent (silent_tyPtrTo ty) fun ty' s₁ h₁ => ?_)
    dsimp only at h₁
    refine (ih (h₁ ▸ hr) fun h => ?_).mono fun _ s' h' => (h₁ ▸ h').step htk
    have := hE h
    rw [htk, List.length_cons] at this
    rw [h₁]
    omega

theorem arraySuffix_sound (hs : Ends s.tk) (ty : Ty) :
    Sound E s (fun _ s' => Maybe s.tk s'.tk) (arraySuffix ty s) := by
  obtain ⟨t, r, htk⟩ := hs.cons
  refine sound_consume htk (fun ht => ?_) fun _ => Sound.ret (Or.inl (Beyond.refl hs))
  have hr : Ends r := (htk ▸ hs).tail ht.ne_eof
  obtain ⟨u, r', hr'⟩ := hr.cons
  refine sound_logLength ?_
  refine sound_cur (s := { s with tk := r, lengths := r :: s.lengths }) hr' ?_
  have hmaybe : Maybe s.tk r' := by
    rcases (hr' ▸ hr).tail_or with h | h
    · exact Or.inl ((Beyond.step hr' (Beyond.refl h)).step htk)
    · exact Or.inr h
  refine sound_silent (silent_check _ _) fun _ s₁ h₁ => ?_
  refine sound_advance (h₁.trans hr') ?_
  refine sound_expect_maybe (T := s.tk) hmaybe fun s₂ h₂ => ?_
  refine ((silent_tyArrayOf ty _).sound E s₂).mono fun _ s' h' => ?_
  rcases h₂ with h₂ | h₂
  · exact Or.inl ⟨h' ▸ h₂.ends, h' ▸ h₂.suffix⟩
  · exact Or.inr (h'.trans h₂)

/-- What a function that reads a type does, if there are at most `b` tokens. -/
def TypeSpec (b : ℕ) (p : P Ty) : Prop :=
  ∀ (E : Prop) (s : PState), Ends s.tk → (E → s.tk.length ≤ b) →
    Sound E s (fun _ s' => Beyond s.tk s'.tk ∧
      (s.looksLikeType s.tk = true → s'.tk.length < s.tk.length)) (p s)

theorem memberLoop_sound {declspec : P Ty} (hd : TypeSpec b declspec) {off : ℤ} {ms : List Member}
    (hs : Ends s.tk ∨ s.tk = []) (hE : E → s.tk.length ≤ b ∧ s.tk.length + 1 ≤ n) :
    Sound E s (fun _ s' => Beyond s.tk s'.tk) (memberLoop declspec n off ms s) := by
  induction n generalizing s off ms with
  | zero => exact Sound.outOfFuel fun h => by have := hE h; omega
  | succ n ih =>
    rw [memberLoop]
    rcases hs with hs | hs
    · obtain ⟨t, r, htk⟩ := hs.cons
      refine sound_logHead (by rw [htk]; trivial) ?_
      refine sound_atPunct (s := { s with heads := (.members, s.tk) :: s.heads }) htk
        (fun _ => Sound.ret (Beyond.refl hs)) fun _ => ?_
      refine sound_cur (s := { s with heads := (.members, s.tk) :: s.heads }) htk ?_
      split_ifs
      · exact Sound.ret (Beyond.refl hs)
      refine (hd E { s with heads := (.members, s.tk) :: s.heads } hs fun h => (hE h).1).bind
        fun mty s₁ h₁ => ?_
      obtain ⟨u, r₁, htk₁⟩ := h₁.1.ends.cons
      have hlen := h₁.1.length
      rw [htk₁, List.length_cons] at hlen
      refine sound_cur htk₁ ?_
      split_ifs with hu
      · exact sound_silent (silent_ccError _) fun _ s₂ h₂ => Sound.ret (h₂ ▸ h₁.1)
      -- the member name is consumed, so there is progress
      have hr₁ : Ends r₁ := (htk₁ ▸ h₁.1.ends).tail (by rw [not_not.mp hu]; decide)
      have hb₁ : Beyond s.tk r₁ := h₁.1.trans ((Beyond.refl hr₁).step htk₁)
      refine sound_advance htk₁ ?_
      refine (arraySuffix_sound (s := { s₁ with tk := r₁ }) hr₁ mty).bind fun mty' s₂ h₂ => ?_
      refine sound_expect_maybe h₂ fun s₃ h₃ => sound_silent silent_get fun s₄ s₅ h₅ => ?_
      refine sound_silent (silent_ccAlloc _) fun _ s₆ h₆ => ?_
      rw [← h₅, ← h₆] at h₃
      have hlen₆ : s₆.tk.length ≤ r₁.length := by
        rcases h₃ with h | h
        · exact h.length
        · rw [h]
          exact Nat.zero_le _
      refine (ih (s := s₆) (h₃.imp_left fun h => h.ends) fun h => ?_).mono fun _ s' h' => ?_
      · have := hE h
        dsimp only at hlen
        omega
      · rcases h₃ with h | h
        · exact hb₁.trans (h.trans h')
        · have hnil := h'.suffix
          rw [h, List.suffix_nil] at hnil
          exact absurd hnil h'.ends.ne_nil
    · refine sound_null_head hs fun s' hs' => ?_
      rw [if_neg Bool.false_ne_true, bind_eq, cur, hs']

theorem structBody_sound {declspec : P Ty} (hd : TypeSpec b declspec) (tag : Option String)
    (hs : Ends s.tk) (hE : E → s.tk.length ≤ b ∧ s.tk.length + 1 ≤ n) :
    Sound E s (fun _ s' => Beyond s.tk s'.tk) (structBody declspec n tag s) := by
  refine sound_silent (silent_ccAlloc _) fun _ s₁ h₁ => ?_
  refine sound_silent silent_get fun s₂ s₃ h₃ => ?_
  dsimp only
  refine sound_silent (silent_modify ?_) fun _ s₄ h₄ => ?_
  · exact fun _ => ⟨rfl, rfl, rfl⟩
  refine sound_silent (silent_registerTag _ _) fun _ s₅ h₅ => ?_
  have h := h₅.trans (h₄.trans (h₃.trans h₁))
  rw [← h] at hs hE ⊢
  refine (memberLoop_sound hd (Or.inl hs) hE).bind fun res s₆ h₆ => ?_
  refine sound_expect h₆.ends fun s₇ h₇ => ?_
  refine sound_silent (silent_modify ?_) fun _ s' h' => Sound.ret ?_
  · exact fun _ => ⟨rfl, rfl, rfl⟩
  · rw [h']
    exact h₆.trans h₇

theorem structTag_sound (hs : Ends s.tk) :
    Sound E s (fun _ s' => Beyond s.tk s'.tk) (structTag s) := by
  obtain ⟨t, r, htk⟩ := hs.cons
  refine sound_cur htk ?_
  split_ifs with ht
  · have hr : Ends r := (htk ▸ hs).tail (by rw [ht]; decide)
    exact sound_advance htk (Sound.ret ((Beyond.refl hr).step htk))
  · exact Sound.ret (Beyond.refl hs)

theorem structDecl_step (hd : TypeSpec b (declspecWith (structDecl n) n)) (hs : Ends s.tk)
    (hE : E → s.tk.length ≤ b + 1 ∧ s.tk.length ≤ n) :
    Sound E s (fun _ s' => Beyond s.tk s'.tk) (structDecl (n + 1) s) := by
  rw [structDecl]
  refine (structTag_sound hs).bind fun tag s₁ h₁ => ?_
  obtain ⟨t, r, htk⟩ := h₁.ends.cons
  have hlen := h₁.length
  rw [htk, List.length_cons] at hlen
  refine sound_atPunct htk (fun ht => ?_) fun _ => ?_
  · have hr : Ends r := (htk ▸ h₁.ends).tail (by rw [ht.1]; decide)
    refine sound_advance htk ?_
    refine (structBody_sound (s := { s₁ with tk := r }) hd tag hr fun h => ?_).mono fun _ s' h' => ?_
    · have := hE h
      dsimp only
      omega
    · exact h₁.trans (h'.step htk)
  · refine ((silent_structRef tag).sound E s₁).mono fun _ s' h' => ?_
    rw [h']
    exact h₁

theorem baseType_sound {structDecl : P Ty}
    (hd : ∀ s : PState, Ends s.tk → (E → s.tk.length ≤ b) →
      Sound E s (fun _ s' => Beyond s.tk s'.tk) (structDecl s))
    (hs : Ends s.tk) (hE : E → s.tk.length ≤ b + 1) :
    Sound E s (fun o s' => Beyond s.tk s'.tk ∧ (o.isSome → s'.tk.length < s.tk.length) ∧
      (s.looksLikeType s.tk = true → o.isSome)) (baseType structDecl s) := by
  obtain ⟨t, r, htk⟩ := hs.cons
  have hlen : s.tk.length = r.length + 1 := by rw [htk, List.length_cons]
  have hret : ∀ (ty : Ty) (s' : PState), Beyond r s'.tk → Beyond s.tk s'.tk ∧
      ((some ty).isSome → s'.tk.length < s.tk.length) ∧
        (s.looksLikeType s.tk = true → (some ty).isSome) := by
    intro ty s' h
    have := h.length
    exact ⟨h.step htk, fun _ => by omega, fun _ => rfl⟩
  have hr : ∀ {x}, Takes x t → Ends r := fun ht => (htk ▸ hs).tail ht.ne_eof
  refine sound_consume htk (fun ht => Sound.ret (hret _ _ (Beyond.refl (hr ht)))) fun hint => ?_
  refine sound_consume htk (fun ht => Sound.ret (hret _ _ (Beyond.refl (hr ht)))) fun hchar => ?_
  refine sound_consume htk (fun ht => ?_) fun hstruct => ?_
  · refine (hd { s with tk := r } (hr ht) fun h => ?_).bind fun ty s' h' => Sound.ret (hret _ _ h')
    have := hE h
    dsimp only
    omega
  refine sound_cur htk ?_
  have hget : (P.get s) = .done s s := rfl
  rw [bind_eq, hget]
  dsimp only
  have hfail (hno : ¬ (t.kind = .ident ∧ (s.findTypedef t.text).isSome)) :
      Sound E s (fun o s' => Beyond s.tk s'.tk ∧ (o.isSome → s'.tk.length < s.tk.length) ∧
        (s.looksLikeType s.tk = true → o.isSome))
        ((do ccError "expected type"; return none : P (Option Ty)) s) := by
    refine sound_silent (silent_ccError _) fun _ s' h' => Sound.ret ?_
    rw [h']
    refine ⟨Beyond.refl hs, fun h => absurd h Bool.false_ne_true, fun hl => ?_⟩
    rw [htk] at hl
    simp only [PState.looksLikeType, isKw, Bool.or_eq_true, Bool.and_eq_true,
      decide_eq_true_eq] at hl
    simp only [Takes] at hint hchar hstruct
    tauto
  cases hk : t.kind with
  | ident =>
    cases htd : s.findTypedef t.text with
    | none => exact hfail fun h => by rw [htd] at h; exact absurd h.2 Bool.false_ne_true
    | some ty =>
      have hr' : Ends r := (htk ▸ hs).tail (by rw [hk]; decide)
      exact sound_advance htk (Sound.ret (hret _ _ (Beyond.refl hr')))
  | num | str | punct | kw | eof => exact hfail fun h => by rw [hk] at h; exact absurd h.1 (by decide)

theorem declspecWith_sound {structDecl : P Ty}
    (hd : ∀ s : PState, Ends s.tk → (E → s.tk.length ≤ b) →
      Sound E s (fun _ s' => Beyond s.tk s'.tk) (structDecl s))
    (hs : Ends s.tk) (hE : E → s.tk.length ≤ b + 1 ∧ s.tk.length + 1 ≤ n) :
    Sound E s (fun _ s' => Beyond s.tk s'.tk ∧
      (s.looksLikeType s.tk = true → s'.tk.length < s.tk.length))
      (declspecWith structDecl n s) := by
  refine (baseType_sound hd hs fun h => (hE h).1).bind fun o s₁ h₁ => ?_
  obtain ⟨hb, hlt, hsome⟩ := h₁
  cases o with
  | none => exact Sound.ret ⟨hb, fun h => absurd (hsome h) Bool.false_ne_true⟩
  | some ty =>
    have hlen := hlt rfl
    refine (starLoop_sound hb.ends fun h => ?_).mono fun _ s' h' => ⟨hb.trans h', fun _ => ?_⟩
    · have := hE h
      omega
    · have := h'.length
      omega

/-- Reading a type takes one unit of fuel more than there are tokens. -/
theorem declspec_sound (n : ℕ) : TypeSpec (n - 1) (declspec n) := by
  induction n with
  | zero =>
    intro E s hs hE
    have hpos : s.tk.length ≠ 0 := fun h => hs.ne_nil (List.length_eq_zero_iff.mp h)
    have hno : ¬ E := fun h => by have := hE h; omega
    refine declspecWith_sound (b := 0) (n := 0) ?_ hs fun h => absurd h hno
    intro s' _ _
    exact Sound.outOfFuel hno
  | succ n ih =>
    intro E s hs hE
    refine declspecWith_sound (b := n) (n := n + 1) ?_ hs fun h => ?_
    · intro s' hs' hE'
      have hpos : s'.tk.length ≠ 0 := fun h => hs'.ne_nil (List.length_eq_zero_iff.mp h)
      refine structDecl_step ih hs' fun h => ?_
      have := hE' h
      omega
    · have := hE h
      omega

end Types

end XinuRpi4.Compiler
