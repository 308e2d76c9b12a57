import XinuRpi4.Compiler.ParserProgress

/-!
# What the expression parser consumes

The levels of `cc/parse.c` from `primary` to `assign`. Each consumes a token where one of
the tokens it looks for stands at the cursor, and leaves the cursor alone otherwise.
-/

namespace XinuRpi4.Compiler

section Expressions

variable {E : Prop} {s : PState} {b n : ℕ} {cs ps : List String} {assign : P Expr}

theorem argLoop_sound (ha : Spec b cs ps assign) (hs : Ends s.tk)
    (hE : E → s.tk.length ≤ b ∧ s.tk.length + 1 ≤ n) :
    Sound E s (fun _ s' => Beyond s.tk s'.tk) (argLoop assign n s) := by
  induction n generalizing s with
  | zero => exact Sound.outOfFuel fun h => by have := hE h; omega
  | succ n ih =>
    rw [argLoop]
    refine (ha E s hs fun h => (hE h).1).bind fun a s₁ h₁ => ?_
    obtain ⟨t, r, htk⟩ := h₁.ends.cons
    have hlen := h₁.beyond.length
    refine sound_consume htk (fun ht => ?_) fun _ => Sound.ret h₁.beyond
    have hr : Ends r := (htk ▸ h₁.ends).tail ht.ne_eof
    rw [htk, List.length_cons] at hlen
    refine (ih (s := { s₁ with tk := r }) hr fun h => ?_).bind fun args s' h' => Sound.ret ?_
    · have := hE h
      dsimp only
      omega
    · exact h₁.beyond.trans (h'.step htk)

theorem callRest_sound (ha : Spec b cs ps assign) (hs : Ends s.tk)
    (hE : E → s.tk.length ≤ b ∧ s.tk.length + 1 ≤ n) (name : String) :
    Sound E s (fun _ s' => Beyond s.tk s'.tk) (callRest assign n name s) := by
  refine sound_silent silent_newNode fun _ s₁ h₁ => ?_
  rw [← h₁] at hs hE ⊢
  obtain ⟨t, r, htk⟩ := hs.cons
  refine sound_atPunct htk (fun _ => ?_) fun _ => ?_
  · exact sound_expect hs fun s' h' => Sound.ret h'
  · refine (argLoop_sound ha hs hE).bind fun args s₂ h₂ => ?_
    exact sound_expect h₂.ends fun s' h' => Sound.ret (h₂.trans h')

theorem primary_sound (ha : Spec b cs ps assign) :
    Spec (min (b + 1) (n - 1)) ["("] [] (primary assign n) := by
  intro E s hs hE
  obtain ⟨t, r, htk⟩ := hs.cons
  have hlen : s.tk.length = r.length + 1 := by rw [htk, List.length_cons]
  refine sound_consume htk (fun ht => ?_) fun ht => ?_
  · have hr : Ends r := (htk ▸ hs).tail ht.ne_eof
    refine (ha E { s with tk := r } hr fun h => ?_).bind fun e s₁ h₁ => ?_
    · have := hE h
      dsimp only
      omega
    · refine sound_expect h₁.ends fun s' h' => Sound.ret ?_
      exact After.of_lt htk (h₁.beyond.trans h') (ht.eats (List.mem_singleton_self _) _)
  · refine sound_cur htk ?_
    cases hk : t.kind with
    | num =>
      have hr : Ends r := (htk ▸ hs).tail (by rw [hk]; decide)
      refine sound_silent (silent_newNum _) fun e s₁ h₁ => ?_
      refine sound_advance (h₁.trans htk) (Sound.ret ?_)
      exact After.of_lt htk ⟨hr, List.suffix_rfl⟩ (Or.inl hk)
    | str =>
      have hr : Ends r := (htk ▸ hs).tail (by rw [hk]; decide)
      refine sound_silent silent_newNode fun _ s₁ h₁ => ?_
      refine sound_silent (silent_tyPtrTo _) fun _ s₂ h₂ => ?_
      refine sound_advance ((h₂.trans h₁).trans htk) (Sound.ret ?_)
      exact After.of_lt htk ⟨hr, List.suffix_rfl⟩ (Or.inr (Or.inl hk))
    | ident =>
      have hr : Ends r := (htk ▸ hs).tail (by rw [hk]; decide)
      have he : Eats ["("] [] t := Or.inr (Or.inr (Or.inl hk))
      refine sound_advance htk ?_
      obtain ⟨t', r', hr'⟩ := hr.cons
      have hlen' : r.length = r'.length + 1 := by rw [hr', List.length_cons]
      refine sound_consume (s := { s with tk := r }) hr' (fun ht' => ?_) fun ht' => ?_
      · have hends : Ends r' := (hr' ▸ hr).tail ht'.ne_eof
        refine (callRest_sound (s := { s with tk := r' }) ha hends (fun h => ?_) _).mono
          fun _ s' h' => ?_
        · have := hE h
          dsimp only
          omega
        · exact After.of_lt htk (Beyond.step hr' h') he
      · refine ((silent_varRef t.text).sound E { s with tk := r }).mono fun _ s' h' => ?_
        exact After.of_lt htk ⟨h' ▸ hr, h' ▸ List.suffix_rfl⟩ he
    | punct | kw | eof =>
      have hno : ¬ Eats ["("] [] t := by
        simp only [Takes, hk] at ht
        simp only [Eats, hk, List.mem_singleton, List.not_mem_nil]
        tauto
      refine sound_silent (silent_ccError _) fun _ s₁ h₁ => ?_
      refine ((silent_newNum 0).sound E s₁).mono fun _ s' h' => ?_
      exact After.of_same htk hs (h'.trans h₁) hno

theorem eats_mono {cs cs' ps ps' : List String} {t : Token} (hcs : cs ⊆ cs') (hps : ps ⊆ ps')
    (h : Eats cs ps t) : Eats cs' ps' t := by
  unfold Eats at *
  rcases h with h | h | h | ⟨hk, ht⟩ | ⟨hk, ht⟩
  · exact Or.inl h
  · exact Or.inr (Or.inl h)
  · exact Or.inr (Or.inr (Or.inl h))
  · exact Or.inr (Or.inr (Or.inr (Or.inl ⟨hk, hcs ht⟩)))
  · exact Or.inr (Or.inr (Or.inr (Or.inr ⟨hk, hps ht⟩)))

theorem eats_of_not_takes {cs xs ps : List String} {t : Token} (hx : ∀ x ∈ xs, ¬ Takes x t)
    (h : Eats (cs ++ xs) ps t) : Eats cs ps t := by
  unfold Eats at *
  rcases h with h | h | h | ⟨hk, ht⟩ | h
  · exact Or.inl h
  · exact Or.inr (Or.inl h)
  · exact Or.inr (Or.inr (Or.inl h))
  · rcases List.mem_append.mp ht with ht | ht
    · exact Or.inr (Or.inr (Or.inr (Or.inl ⟨hk, ht⟩)))
    · exact absurd ⟨hk, rfl⟩ (hx _ ht)
  · exact Or.inr (Or.inr (Or.inr (Or.inr h)))

/-- A loop behind a first operand: it consumes a token where one of `ops` stands. -/
theorem After.extend {cs ps cs' ps' : List String} {T T₁ T₂ : List Token} (h₁ : After cs ps T T₁)
    (h₂ : Beyond T₁ T₂) (hcs : cs ⊆ cs') (hps : ps ⊆ ps')
    (heats : ∀ t r, T₁ = t :: r → Eats cs' ps' t → ¬ Eats cs ps t → T₂.length < T₁.length)
    (hstays : ∀ t r, T₁ = t :: r → ¬ Eats cs' ps' t → T₂ = T₁) : After cs' ps' T T₂ where
  ends := h₂.ends
  suffix := h₂.suffix.trans h₁.suffix
  eats t r hT he := by
    have hlen := h₂.length
    by_cases hsub : Eats cs ps t
    · have := h₁.eats t r hT hsub
      omega
    · have hsame := h₁.stays t r hT hsub
      have := heats t r (hsame.trans hT) he hsub
      rw [hsame] at this
      exact this
  stays t r hT he := by
    have hsame := h₁.stays t r hT fun h => he (eats_mono hcs hps h)
    exact (hstays t r (hsame.trans hT) he).trans hsame

def postfixOps : List String := ["[", ".", "->"]

/-- What the loop of `postfix` does at the cursor. -/
def PostfixQ (T T' : List Token) : Prop :=
  Beyond T T' ∧ ∀ t r, T = t :: r →
    if t.kind = .punct ∧ t.text ∈ postfixOps then T'.length < T.length else T' = T

theorem postfixLoop_sound (ha : Spec b cs ps assign) {e : Expr} (hs : Ends s.tk)
    (hE : E → s.tk.length ≤ b + 1 ∧ s.tk.length + 1 ≤ n) :
    Sound E s (fun _ s' => PostfixQ s.tk s'.tk) (postfixLoop assign n e s) := by
  induction n generalizing s e with
  | zero => exact Sound.outOfFuel fun h => by have := hE h; omega
  | succ n ih =>
    obtain ⟨t, r, htk⟩ := hs.cons
    have hlen : s.tk.length = r.length + 1 := by rw [htk, List.length_cons]
    have hgo {x : String} (hx : x ∈ postfixOps) (ht : t.kind = .punct ∧ t.text = x)
        {T' : List Token} (h : Beyond r T') : PostfixQ s.tk T' := by
      refine ⟨h.step htk, fun t' r' hT => ?_⟩
      rw [htk, List.cons.injEq] at hT
      rw [← hT.1, if_pos ⟨ht.1, ht.2 ▸ hx⟩, hlen]
      have := h.length
      omega
    have hr {x : String} (ht : t.kind = .punct ∧ t.text = x) : Ends r :=
      (htk ▸ hs).tail (by rw [ht.1]; decide)
    rw [postfixLoop]
    refine sound_atPunct htk (fun ht => ?_) fun hno₁ => ?_
    · refine sound_advance htk ?_
      refine (ha E { s with tk := r } (hr ht) fun h => ?_).bind fun idx s₁ h₁ => ?_
      · have := hE h
        dsimp only
        omega
      refine sound_expect h₁.ends fun s₂ h₂ => ?_
      refine sound_silent (silent_newIndex e idx) fun e' s₃ h₃ => ?_
      have hb : Beyond r s₃.tk := h₃ ▸ h₁.beyond.trans h₂
      have hlen₃ := hb.length
      refine (ih hb.ends fun h => ?_).mono fun _ s' h' => hgo (by decide) ht (hb.trans h'.1)
      have := hE h
      omega
    refine sound_atPunct htk (fun ht => ?_) fun hno₂ => ?_
    · have hr₁ := hr ht
      obtain ⟨u, r₁, hu⟩ := hr₁.cons
      refine sound_advance htk (sound_cur (s := { s with tk := r }) hu ?_)
      split_ifs with hk
      · refine sound_silent (silent_ccError _) fun _ s₁ h₁ => Sound.ret ?_
        exact hgo (by decide) ht (h₁ ▸ Beyond.refl hr₁)
      have hends : Ends r₁ := (hu ▸ hr₁).tail (by rw [not_not.mp hk]; decide)
      have hb : Beyond r r₁ := (Beyond.refl hends).step hu
      refine sound_silent (silent_memberOf _ _) fun m s₁ h₁ => ?_
      refine sound_advance (h₁.trans hu) ?_
      cases m with
      | none =>
        refine sound_silent (silent_ccError _) fun _ s₂ h₂ => Sound.ret ?_
        exact hgo (by decide) ht (h₂ ▸ hb)
      | some m =>
        refine sound_silent silent_newNode fun _ s₂ h₂ => ?_
        dsimp only at h₂
        have hlen₂ := hb.length
        refine (ih (h₂ ▸ hends) fun h => ?_).mono fun _ s' h' => ?_
        · have := hE h
          rw [h₂]
          omega
        · rw [h₂] at h'
          exact hgo (by decide) ht (hb.trans h'.1)
    refine sound_atPunct htk (fun ht => ?_) fun hno₃ => ?_
    · have hr₁ := hr ht
      obtain ⟨u, r₁, hu⟩ := hr₁.cons
      refine sound_advance htk (sound_cur (s := { s with tk := r }) hu ?_)
      split_ifs with hk
      · refine sound_silent (silent_ccError _) fun _ s₁ h₁ => Sound.ret ?_
        exact hgo (by decide) ht (h₁ ▸ Beyond.refl hr₁)
      have hends : Ends r₁ := (hu ▸ hr₁).tail (by rw [not_not.mp hk]; decide)
      have hb : Beyond r r₁ := (Beyond.refl hends).step hu
      dsimp only
      refine sound_silent (silent_memberOf _ _) fun m s₁ h₁ => ?_
      refine sound_advance (h₁.trans hu) ?_
      cases m with
      | none =>
        refine sound_silent (silent_ccError _) fun _ s₂ h₂ => Sound.ret ?_
        exact hgo (by decide) ht (h₂ ▸ hb)
      | some m =>
        refine sound_silent silent_newNode fun _ s₂ h₂ => ?_
        refine sound_silent silent_newNode fun _ s₃ h₃ => ?_
        have h₃' := h₃.trans h₂
        dsimp only at h₃'
        have hlen₂ := hb.length
        refine (ih (h₃' ▸ hends) fun h => ?_).mono fun _ s' h' => ?_
        · have := hE h
          rw [h₃']
          omega
        · rw [h₃'] at h'
          exact hgo (by decide) ht (hb.trans h'.1)
    refine Sound.ret ⟨Beyond.refl hs, fun t' r' hT => ?_⟩
    rw [htk, List.cons.injEq] at hT
    rw [← hT.1, if_neg]
    rintro ⟨hk, hx⟩
    simp only [postfixOps, List.mem_cons, List.not_mem_nil, or_false] at hx
    tauto

theorem postfix_sound (ha : Spec b cs ps assign) :
    Spec (min (b + 1) (n - 1)) ["("] postfixOps (postfix_ assign n) := by
  intro E s hs hE
  have hpos := hs.length_pos
  refine (primary_sound ha E s hs hE).bind fun e s₁ h₁ => ?_
  have hlen := h₁.beyond.length
  refine (postfixLoop_sound ha h₁.ends fun h => ?_).mono fun _ s' h' => ?_
  · have := hE h
    omega
  refine h₁.extend h'.1 (List.Subset.refl _) (List.nil_subset _) (fun t r hT he hno => ?_)
    fun t r hT he => ?_
  · have hq := h'.2 t r hT
    have hin : t.kind = .punct ∧ t.text ∈ postfixOps := by
      simp only [Eats] at he hno
      tauto
    rwa [if_pos hin] at hq
  · have hq := h'.2 t r hT
    have hin : ¬ (t.kind = .punct ∧ t.text ∈ postfixOps) := by
      simp only [Eats] at he
      tauto
    rwa [if_neg hin] at hq

def unaryTexts : List String := ["("] ++ ["sizeof", "+", "-", "!", "*", "&"]

theorem sizeofRest_sound {u : P Expr} (hs : Ends s.tk)
    (hu : Sound E s (fun _ s' => Beyond s.tk s'.tk) (u s))
    (hE : E → s.tk.length ≤ n) : Sound E s (fun _ s' => Beyond s.tk s'.tk) (sizeofRest n u s) := by
  obtain ⟨t, r, htk⟩ := hs.cons
  have hlen : s.tk.length = r.length + 1 := by rw [htk, List.length_cons]
  have heq : sizeofRest n u s = (if isPunct s.tk "(" && s.looksLikeType s.tk.tail then do
        advance
        let t ← declspec n
        expect ")"
        let s ← P.get
        newNum (BitVec.ofInt 64 (t.size s.types))
      else do
        let e ← u
        let s ← P.get
        newNum (BitVec.ofInt 64 (e.ty.size s.types))) s := rfl
  rw [heq]
  split_ifs with hty
  · have hk : t.kind = .punct := by
      rw [Bool.and_eq_true, htk, isPunct, decide_eq_true_eq] at hty
      exact hty.1.1
    have hr : Ends r := (htk ▸ hs).tail (by rw [hk]; decide)
    refine sound_advance htk ?_
    refine (declspec_sound n E { s with tk := r } hr fun h => ?_).bind fun ty s₁ h₁ => ?_
    · have := hE h
      dsimp only
      omega
    refine sound_expect h₁.1.ends fun s₂ h₂ => sound_silent silent_get fun _ s₃ h₃ => ?_
    refine ((silent_newNum _).sound E s₃).mono fun _ s' h' => ?_
    rw [h', h₃]
    exact (h₁.1.trans h₂).step htk
  · refine hu.bind fun e s₁ h₁ => sound_silent silent_get fun _ s₂ h₂ => ?_
    refine ((silent_newNum _).sound E s₂).mono fun _ s' h' => ?_
    rw [h', h₂]
    exact h₁

/-- A call behind a consumed operator. -/
theorem After.of_takes {cs ps : List String} {x : String} {T r T' : List Token} {t : Token}
    (hT : T = t :: r) (ht : Takes x t) (hx : x ∈ cs) (h : Beyond r T') : After cs ps T T' :=
  After.of_lt hT h (ht.eats hx ps)

theorem unary_sound (ha : Spec b cs ps assign) (n : ℕ) :
    Spec (min (b + 1) (n - 2)) unaryTexts postfixOps (unary assign n) := by
  induction n with
  | zero =>
    intro E s hs hE
    have hpos := hs.length_pos
    exact Sound.outOfFuel fun h => by have := hE h; omega
  | succ n ih =>
    intro E s hs hE
    obtain ⟨t, r, htk⟩ := hs.cons
    have hlen : s.tk.length = r.length + 1 := by rw [htk, List.length_cons]
    -- the operand of a prefix operator
    have hsub {x : String} (ht : Takes x t) : Ends r := (htk ▸ hs).tail ht.ne_eof
    have hfuel : E → r.length ≤ min (b + 1) (n - 2) := fun h => by have := hE h; omega
    have hrun {s₁ : PState} (hr : Ends r) (h₁ : s₁.tk = r) :
        Sound E s₁ (fun _ s' => Beyond r s'.tk) (unary assign n s₁) := by
      rw [← h₁] at hr hfuel ⊢
      exact (ih E s₁ hr hfuel).mono fun _ _ h => h.beyond
    rw [unary]
    refine sound_consume htk (fun ht => ?_) fun h₁ => ?_
    · refine (sizeofRest_sound (s := { s with tk := r }) (hsub ht) (hrun (hsub ht) rfl) fun h => ?_).mono
        fun _ _ h' => After.of_takes htk ht (by decide) h'
      have := hE h
      dsimp only
      omega
    refine sound_consume htk (fun ht => ?_) fun h₂ => ?_
    · have hrest : Sound E { s with tk := r } (fun _ s' => Beyond r s'.tk)
          (unary assign n { s with tk := r }) := hrun (hsub ht) rfl
      refine hrest.mono fun _ _ h' => ?_
      exact After.of_takes htk ht (by decide) h'
    refine sound_consume htk (fun ht => ?_) fun h₃ => ?_
    · refine sound_silent silent_newNode fun _ s₁ hs₁ => ?_
      refine (hrun (hsub ht) hs₁).bind fun e s' h' => Sound.ret ?_
      exact After.of_takes htk ht (by decide) h'
    refine sound_consume htk (fun ht => ?_) fun h₄ => ?_
    · refine sound_silent silent_newNode fun _ s₁ hs₁ => ?_
      refine (hrun (hsub ht) hs₁).bind fun e s' h' => Sound.ret ?_
      exact After.of_takes htk ht (by decide) h'
    refine sound_consume htk (fun ht => ?_) fun h₅ => ?_
    · refine sound_silent silent_newNode fun _ s₁ hs₁ => ?_
      refine (hrun (hsub ht) hs₁).bind fun e s₂ h₂ => ?_
      refine ((silent_newDeref e).sound E s₂).mono fun _ s' h' => ?_
      exact After.of_takes htk ht (by decide) (h' ▸ h₂)
    refine sound_consume htk (fun ht => ?_) fun h₆ => ?_
    · refine sound_silent silent_newNode fun _ s₁ hs₁ => ?_
      refine (hrun (hsub ht) hs₁).bind fun e s₂ h₂ => ?_
      refine sound_silent (silent_tyPtrTo _) fun _ s' h' => Sound.ret ?_
      exact After.of_takes htk ht (by decide) (h' ▸ h₂)
    refine (postfix_sound ha E s hs fun h => ?_).mono fun _ s' h' => ?_
    · have := hE h
      omega
    -- no prefix operator stands here, so `postfix` decides
    have hno : ∀ x ∈ ["sizeof", "+", "-", "!", "*", "&"], ¬ Takes x t := by
      simp only [List.forall_mem_cons]
      exact ⟨h₁, h₂, h₃, h₄, h₅, h₆, fun _ h => absurd h List.not_mem_nil⟩
    refine ⟨h'.ends, h'.suffix, fun u v hT he => ?_, fun u v hT he => ?_⟩
    · rw [htk, List.cons.injEq] at hT
      exact h'.eats u v (by rw [htk, hT.1, hT.2]) (eats_of_not_takes (hT.1 ▸ hno) he)
    · rw [htk, List.cons.injEq] at hT
      refine h'.stays u v (by rw [htk, hT.1, hT.2]) fun h => he ?_
      exact eats_mono (List.subset_append_left ..) (List.Subset.refl _) h

section Levels

variable {ops : List (String × (Expr → Expr → P Expr))} {t : Token} {r : List Token}

/-- The texts of the operators of a level. -/
def opTexts {β : Type} (ops : List (String × β)) : List String := ops.map fun o => o.1

theorem consumeOp_sound {β : Type} (ops : List (String × β)) (htk : s.tk = t :: r) :
    Sound E s (fun o s' => match o with
      | none => s'.tk = s.tk ∧ ∀ x ∈ opTexts ops, ¬ Takes x t
      | some mk => s'.tk = r ∧ ∃ x, (x, mk) ∈ ops ∧ Takes x t) (consumeOp ops s) := by
  induction ops with
  | nil => exact Sound.ret ⟨rfl, by simp [opTexts]⟩
  | cons o ops ih =>
    obtain ⟨x, mk⟩ := o
    rw [consumeOp]
    refine sound_consume htk (fun ht => Sound.ret ⟨rfl, x, List.mem_cons_self .., ht⟩) fun ht => ?_
    refine ih.mono fun o s' h' => ?_
    cases o with
    | none =>
      refine ⟨h'.1, fun y hy => ?_⟩
      rcases List.mem_cons.mp hy with rfl | hy
      · exact ht
      · exact h'.2 y hy
    | some mk' =>
      obtain ⟨h, y, hy, hty⟩ := h'
      exact ⟨h, y, List.mem_cons_of_mem _ hy, hty⟩

/-- What the loop of a level does at the cursor. -/
def LevelQ (xs : List String) (T T' : List Token) : Prop :=
  Beyond T T' ∧ ∀ t r, T = t :: r →
    if (t.kind = .punct ∨ t.kind = .kw) ∧ t.text ∈ xs then T'.length < T.length else T' = T

theorem leftLoop_sound {sub : P Expr} (hsub : Spec b cs ps sub)
    (hops : ∀ o ∈ ops, ∀ l e, Silent (o.2 l e)) {l : Expr} (hs : Ends s.tk)
    (hE : E → s.tk.length ≤ b ∧ s.tk.length + 1 ≤ n) :
    Sound E s (fun _ s' => LevelQ (opTexts ops) s.tk s'.tk) (leftLoop ops sub n l s) := by
  induction n generalizing s l with
  | zero => exact Sound.outOfFuel fun h => by have := hE h; omega
  | succ n ih =>
    obtain ⟨t, r, htk⟩ := hs.cons
    have hlen : s.tk.length = r.length + 1 := by rw [htk, List.length_cons]
    rw [leftLoop]
    refine (consumeOp_sound ops htk).bind fun o s₁ h₁ => ?_
    cases o with
    | none =>
      refine Sound.ret ⟨?_, fun u v hT => ?_⟩
      · rw [h₁.1]
        exact Beyond.refl hs
      rw [htk, List.cons.injEq] at hT
      rw [← hT.1, if_neg]
      · exact h₁.1
      · exact fun ⟨hk, hx⟩ => h₁.2 t.text hx ⟨hk, rfl⟩
    | some mk =>
      obtain ⟨hr₁, x, hx, ht⟩ := h₁
      have hends : Ends r := (htk ▸ hs).tail ht.ne_eof
      rw [← hr₁] at hends hlen
      refine (hsub E s₁ hends fun h => ?_).bind fun e s₂ h₂ => ?_
      · have := hE h
        omega
      refine sound_silent (hops _ hx l e) fun l' s₃ h₃ => ?_
      have hb : Beyond s₁.tk s₃.tk := h₃ ▸ h₂.beyond
      have hlen₃ := hb.length
      refine (ih hb.ends fun h => ?_).mono fun _ s' h' => ⟨?_, fun u v hT => ?_⟩
      · have := hE h
        omega
      · rw [hr₁] at hb
        exact (hb.trans h'.1).step htk
      · rw [htk, List.cons.injEq] at hT
        have hin : t.text ∈ opTexts ops := by
          rw [ht.2]
          exact List.mem_map_of_mem (f := fun o => o.1) hx
        rw [← hT.1, if_pos ⟨ht.1, hin⟩]
        have := h'.1.length
        omega

theorem leftLevel_sound {sub : P Expr} (hsub : Spec b cs ps sub)
    (hops : ∀ o ∈ ops, ∀ l e, Silent (o.2 l e)) :
    Spec (min b (n - 1)) (cs ++ opTexts ops) ps (leftLevel ops sub n) := by
  intro E s hs hE
  have hpos := hs.length_pos
  refine (hsub E s hs fun h => by have := hE h; omega).bind fun l s₁ h₁ => ?_
  have hlen := h₁.beyond.length
  refine (leftLoop_sound hsub hops h₁.ends fun h => ?_).mono fun _ s' h' => ?_
  · have := hE h
    omega
  refine h₁.extend h'.1 (List.subset_append_left ..) (List.Subset.refl _)
    (fun t r hT he hno => ?_) fun t r hT he => ?_
  · have hq := h'.2 t r hT
    have hin : (t.kind = .punct ∨ t.kind = .kw) ∧ t.text ∈ opTexts ops := by
      simp only [Eats, List.mem_append] at he hno
      tauto
    rwa [if_pos hin] at hq
  · have hq := h'.2 t r hT
    have hin : ¬ ((t.kind = .punct ∨ t.kind = .kw) ∧ t.text ∈ opTexts ops) := by
      simp only [Eats, List.mem_append] at he
      tauto
    rwa [if_neg hin] at hq

theorem Spec.of_le {b b' : ℕ} {p : P Expr} (hp : Spec b cs ps p) (h : b' ≤ b) : Spec b' cs ps p :=
  fun E s hs hE => hp E s hs fun he => (hE he).trans h

/-- The operators that the levels below `assign` look for, each level behind the next. -/
def levelTexts : List String :=
  ((((((unaryTexts ++ ["*", "/", "%"]) ++ ["+", "-"]) ++ ["<", "<=", ">", ">="]) ++ ["==", "!="]) ++
    ["&&"]) ++ ["||"])

theorem logor_sound (ha : Spec b cs ps assign) (n : ℕ) :
    Spec (min (b + 1) (n - 2)) levelTexts postfixOps (logor assign n) := by
  have hle : min (b + 1) (n - 2) ≤ min (min (b + 1) (n - 2)) (n - 1) := by omega
  have hmul : Spec _ _ _ (mul assign n) :=
    (leftLevel_sound (n := n) (unary_sound ha n) silent_mulOps).of_le hle
  have hadd : Spec _ _ _ (addExpr assign n) :=
    (leftLevel_sound (n := n) hmul silent_addOps).of_le hle
  have hrel : Spec _ _ _ (relational assign n) :=
    (leftLevel_sound (n := n) hadd silent_relOps).of_le hle
  have heq : Spec _ _ _ (equality assign n) :=
    (leftLevel_sound (n := n) hrel silent_eqOps).of_le hle
  have hand : Spec _ _ _ (logand assign n) :=
    (leftLevel_sound (n := n) heq silent_andOps).of_le hle
  exact (leftLevel_sound (n := n) hand silent_orOps).of_le hle

end Levels

end Expressions

def exprTexts : List String := levelTexts ++ ["="]

/-- An expression takes three units of fuel more than there are tokens. -/
theorem assign_sound (n : ℕ) : Spec (n - 3) exprTexts postfixOps (assign n) := by
  induction n with
  | zero =>
    intro E s hs hE
    have hpos := hs.length_pos
    exact Sound.outOfFuel fun h => by have := hE h; omega
  | succ n ih =>
    intro E s hs hE
    have hpos := hs.length_pos
    rw [assign]
    refine (logor_sound ih n E s hs fun h => by have := hE h; omega).bind fun l s₁ h₁ => ?_
    obtain ⟨t, r, htk⟩ := h₁.ends.cons
    have hlen := h₁.beyond.length
    rw [htk, List.length_cons] at hlen
    have hsub : levelTexts ⊆ exprTexts := List.subset_append_left ..
    refine sound_consume htk (fun ht => ?_) fun ht => ?_
    · have hr : Ends r := (htk ▸ h₁.ends).tail ht.ne_eof
      refine sound_silent silent_newNode fun _ s₂ h₂ => ?_
      dsimp only at h₂
      refine (ih E s₂ (h₂ ▸ hr) fun h => ?_).bind fun e s' h' => Sound.ret ?_
      · have := hE h
        rw [h₂]
        omega
      have hb : Beyond r s'.tk := h₂ ▸ h'.beyond
      refine h₁.extend (hb.step htk) hsub (List.Subset.refl _) (fun _ _ _ _ _ => ?_)
        fun u v hT he => ?_
      · have := hb.length
        rw [htk, List.length_cons]
        omega
      · rw [htk, List.cons.injEq] at hT
        exact absurd ((hT.1 ▸ ht).eats (by decide) _) he
    · refine Sound.ret (h₁.extend (Beyond.refl h₁.ends) hsub (List.Subset.refl _)
        (fun u v hT he hno => ?_) fun _ _ _ _ => rfl)
      rw [htk, List.cons.injEq] at hT
      have hx : ∀ x ∈ ["="], ¬ Takes x u := by
        intro x hx
        rw [List.mem_singleton] at hx
        rw [hx, ← hT.1]
        exact ht
      exact absurd (eats_of_not_takes hx he) hno

end XinuRpi4.Compiler
