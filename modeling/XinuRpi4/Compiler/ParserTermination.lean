import XinuRpi4.Compiler.ExpressionProgress
import XinuRpi4.Compiler.ParserFuel

/-!
# Where the parser terminates

A statement consumes a token exactly where it can begin, so the loop of a block goes on
forever at a token that is none of these, and every other loop ends.
-/

namespace XinuRpi4.Compiler

section Statements

variable {E : Prop} {s : PState} {b n : ℕ}

/-- The texts that a statement can begin with, as in the test of a block's loop. -/
abbrev itemTexts : List String := stmtTexts ++ startTexts

abbrev itemPuncts : List String := ["[", ".", "->", "\x7b"]

theorem sound_expect_cases {β : Type} {x : String} {f : Unit → P β} {R : β → PState → Prop}
    {t : Token} {r : List Token} (htk : s.tk = t :: r)
    (hyes : Takes x t → Sound E { s with tk := r } R (f () { s with tk := r }))
    (hno : ¬ Takes x t → ∀ s', s'.tk = s.tk → Sound E s' R (f () s')) :
    Sound E s R ((expect x >>= f) s) := by
  rw [bind_eq, expect, htk]
  by_cases ht : Takes x t
  · rw [if_pos ((takes_iff x t r).mpr ht), advance, htk]
    exact Sound.congr rfl (hyes ht)
  · rw [if_neg (fun h => ht ((takes_iff x t r).mp h))]
    exact Sound.congr rfl (hno ht _ rfl)

theorem exprStmt_sound (n : ℕ) (hs : Ends s.tk) (hE : E → s.tk.length ≤ n - 3) :
    Sound E s (fun _ s' => After (exprTexts ++ [";"]) postfixOps s.tk s'.tk) (exprStmt n s) := by
  refine sound_silent silent_newNode fun _ s₁ h₁ => ?_
  rw [← h₁] at hs hE ⊢
  refine (assign_sound n E s₁ hs hE).bind fun e s₂ h₂ => ?_
  obtain ⟨t, r, htk⟩ := h₂.ends.cons
  have hsub : exprTexts ⊆ exprTexts ++ [";"] := List.subset_append_left ..
  refine sound_expect_cases htk (fun ht => Sound.ret ?_) fun ht s₃ h₃ => Sound.ret ?_
  · have hr : Ends r := (htk ▸ h₂.ends).tail ht.ne_eof
    refine h₂.extend ((Beyond.refl hr).step htk) hsub (List.Subset.refl _) (fun _ _ _ _ _ => ?_)
      fun u v hT he => ?_
    · rw [htk]
      exact Nat.lt_succ_self _
    · rw [htk, List.cons.injEq] at hT
      exact absurd ((hT.1 ▸ ht).eats (by decide) _) he
  · rw [h₃]
    refine h₂.extend (Beyond.refl h₂.ends) hsub (List.Subset.refl _) (fun u v hT he hno => ?_)
      fun _ _ _ _ => rfl
    rw [htk, List.cons.injEq] at hT
    have hx : ∀ x ∈ [";"], ¬ Takes x u := by
      intro x hx
      rw [List.mem_singleton] at hx
      rw [hx, ← hT.1]
      exact ht
    exact absurd (eats_of_not_takes hx he) hno

theorem initializer_sound (n : ℕ) (v : Var) {T : List Token} (hs : Maybe T s.tk)
    (hE : E → s.tk.length ≤ n - 2) :
    Sound E s (fun _ s' => Maybe T s'.tk) (initializer n v s) := by
  rcases hs with hs | hs
  · obtain ⟨t, r, htk⟩ := hs.ends.cons
    refine sound_consume htk (fun ht => ?_) fun _ => Sound.ret (Or.inl hs)
    have hr : Ends r := (htk ▸ hs.ends).tail ht.ne_eof
    refine sound_silent silent_newNode fun _ s₁ h₁ => ?_
    refine sound_silent silent_newNode fun _ s₂ h₂ => ?_
    have h := h₂.trans h₁
    dsimp only at h
    refine (assign_sound n E s₂ (h ▸ hr) fun he => ?_).bind fun e s₃ h₃ => ?_
    · have := hE he
      rw [htk, List.length_cons] at this
      rw [h]
      omega
    refine sound_silent silent_newNode fun _ s' h' => Sound.ret (Or.inl ?_)
    rw [h']
    exact hs.trans ((h ▸ h₃.beyond : Beyond r s₃.tk).step htk)
  · rw [initializer, bind_eq, consume, hs]
    exact Sound.ret (Or.inr hs)

theorem declaration_sound (n : ℕ) (hs : Ends s.tk) (hE : E → s.tk.length ≤ n - 1) :
    Sound E s (fun _ s' => Maybe s.tk s'.tk ∧
      (s.looksLikeType s.tk = true → s'.tk.length < s.tk.length)) (declaration n s) := by
  have hpos := hs.length_pos
  refine (declspec_sound n E s hs hE).bind fun base s₁ h₁ => ?_
  obtain ⟨hb, hlt⟩ := h₁
  obtain ⟨t, r, htk⟩ := hb.ends.cons
  have hlen := hb.length
  refine sound_cur htk ?_
  split_ifs with ht
  · refine sound_silent (silent_ccError _) fun _ s₂ h₂ => ?_
    refine sound_silent silent_newNode fun _ s' h' => Sound.ret ?_
    rw [h'.trans h₂]
    exact ⟨Or.inl hb, hlt⟩
  have hr : Ends r := (htk ▸ hb.ends).tail (by rw [not_not.mp ht]; decide)
  rw [htk, List.length_cons] at hlen
  have hbr : Beyond s.tk r := hb.trans ((Beyond.refl hr).step htk)
  -- from here on the identifier is consumed, and the cursor may be null
  have hlater {T' : List Token} (h : Maybe r T') : Maybe s.tk T' ∧ T'.length < s.tk.length := by
    rcases h with h | h
    · have := h.length
      exact ⟨Or.inl (hbr.trans h), by omega⟩
    · rw [h]
      exact ⟨Or.inr rfl, hpos⟩
  refine sound_advance htk ?_
  refine (arraySuffix_sound (s := { s₁ with tk := r }) hr base).bind fun ty s₂ h₂ => ?_
  refine sound_silent (silent_newLocal _ ty) fun v s₃ h₃ => ?_
  refine sound_silent silent_newNode fun _ s₄ h₄ => ?_
  rw [← h₃, ← h₄] at h₂
  have hlen₄ := (hlater h₂).2
  refine (initializer_sound n v h₂ fun h => ?_).bind fun body s₅ h₅ => ?_
  · have := hE h
    omega
  refine sound_expect_maybe h₅ fun s' h' => Sound.ret ?_
  exact ⟨(hlater h').1, fun _ => (hlater h').2⟩

theorem condition_sound (n : ℕ) (hs : Ends s.tk) (hE : E → s.tk.length ≤ n - 3) :
    Sound E s (fun _ s' => Beyond s.tk s'.tk) (condition n s) := by
  refine sound_expect hs fun s₁ h₁ => ?_
  have hlen := h₁.length
  refine (assign_sound n E s₁ h₁.ends fun h => (hlen.trans (hE h))).bind fun e s₂ h₂ => ?_
  exact sound_expect h₂.ends fun s' h' => Sound.ret (h₁.trans (h₂.beyond.trans h'))

theorem forInit_sound (n : ℕ) (hs : Ends s.tk) (hE : E → s.tk.length ≤ n - 3) :
    Sound E s (fun _ s' => Beyond s.tk s'.tk) (forInit n s) := by
  obtain ⟨t, r, htk⟩ := hs.cons
  refine sound_consume htk (fun ht => ?_) fun _ => ?_
  · have hr : Ends r := (htk ▸ hs).tail ht.ne_eof
    exact Sound.ret ((Beyond.refl hr).step htk)
  refine sound_silent silent_newNode fun _ s₁ h₁ => ?_
  rw [← h₁] at hs hE ⊢
  refine (assign_sound n E s₁ hs hE).bind fun e s₂ h₂ => ?_
  exact sound_expect h₂.ends fun s' h' => Sound.ret (h₂.beyond.trans h')

theorem forExpr_sound (n : ℕ) (close : String) (hs : Ends s.tk) (hE : E → s.tk.length ≤ n - 3) :
    Sound E s (fun _ s' => Beyond s.tk s'.tk) (forExpr n close s) := by
  obtain ⟨t, r, htk⟩ := hs.cons
  refine sound_atPunct htk (fun ht => ?_) fun _ => ?_
  · exact sound_expect hs fun s' h' => Sound.ret h'
  refine (assign_sound n E s hs hE).bind fun e s₁ h₁ => ?_
  exact sound_expect h₁.ends fun s' h' => Sound.ret (h₁.beyond.trans h')

theorem signedConst_sound (msg : String) (hs : Ends s.tk) :
    Sound E s (fun _ s' => Beyond s.tk s'.tk) (signedConst msg s) := by
  have hsign : Sound E s (fun _ s' => Beyond s.tk s'.tk) (minusSign s) := by
    obtain ⟨t, r, htk⟩ := hs.cons
    refine sound_atPunct htk (fun ht => ?_) fun _ => Sound.ret (Beyond.refl hs)
    have hr : Ends r := (htk ▸ hs).tail (by rw [ht.1]; decide)
    exact sound_advance htk (Sound.ret ((Beyond.refl hr).step htk))
  refine hsign.bind fun neg s₁ h₁ => ?_
  obtain ⟨t, r, htk⟩ := h₁.ends.cons
  refine sound_cur htk ?_
  by_cases ht : t.kind = .num
  · have hr : Ends r := (htk ▸ h₁.ends).tail (by rw [ht]; decide)
    rw [if_pos ht]
    refine sound_advance htk ?_
    split_ifs <;> exact Sound.ret (h₁.trans ((Beyond.refl hr).step htk))
  · rw [if_neg ht]
    refine sound_silent (silent_ccError _) fun _ s' h' => Sound.ret ?_
    rw [h']
    exact h₁

theorem switchBody_sound {p : P Stmt} {Q : PState → Prop}
    (hQ : ∀ s' s'' : PState, s''.tk = s'.tk → Q s' → Q s'')
    (hp : ∀ s', s'.tk = s.tk → Sound E s' (fun _ s'' => Q s'') (p s')) :
    Sound E s (fun _ s' => Q s') (switchBody p s) := by
  refine sound_silent silent_get fun s₀ s₁ h₁ => ?_
  refine sound_silent (silent_modify ?_) fun _ s₂ h₂ => ?_
  · exact fun _ => ⟨rfl, rfl, rfl⟩
  refine (hp s₂ (h₂.trans h₁)).bind fun body s₃ h₃ => ?_
  refine sound_silent silent_get fun s₄ s₅ h₅ => ?_
  refine sound_silent (silent_modify ?_) fun _ s' h' => Sound.ret ?_
  · exact fun _ => ⟨rfl, rfl, rfl⟩
  · exact hQ s₃ s' (h'.trans h₅) h₃

/-- The tokens that an item of a block consumes. -/
def ItemEats (t : Token) : Prop :=
  t.kind = .kw ∧ t.text ∈ ["int", "char", "struct"] ∨ Eats itemTexts itemPuncts t

/-- What an item of a block does, if there are at most `b` tokens. -/
def ItemSpec (b : ℕ) (item : P Stmt) : Prop :=
  ∀ (E : Prop) (s : PState), Ends s.tk → (E → s.tk.length ≤ b) →
    Sound E s (fun _ s' => Maybe s.tk s'.tk ∧ ∀ t r, s.tk = t :: r →
      (ItemEats t → s'.tk.length < s.tk.length) ∧ (¬ ItemEats t → s'.tk = s.tk)) (item s)

/-- A block does not end at a token that no item consumes. -/
theorem blockLoop_stuck {item : P Stmt} (hi : ItemSpec b item) (hs : Ends s.tk)
    (hbad : ¬ HeadFine (.block, s.tk)) (hE : E → 0 < n) {R : Stmts → PState → Prop} :
    Sound E s R (blockLoop item n s) := by
  induction n generalizing s E R with
  | zero => exact Sound.outOfFuel fun h => absurd (hE h) (lt_irrefl 0)
  | succ n ih =>
    obtain ⟨t, r, htk⟩ := hs.cons
    have hstuck : ¬ (t.kind = .eof ∨ t.kind = .punct ∧ t.text = "\x7d" ∨ ItemEats t) := by
      rw [htk] at hbad
      exact hbad
    rw [blockLoop]
    refine sound_logHead_bad hbad ?_
    refine sound_atPunct (s := { s with heads := (.block, s.tk) :: s.heads }) htk
      (fun ht => absurd (Or.inr (Or.inl ht)) hstuck) fun _ => ?_
    refine sound_cur (s := { s with heads := (.block, s.tk) :: s.heads }) htk ?_
    rw [if_neg fun h => hstuck (Or.inl h)]
    refine (hi False { s with heads := (.block, s.tk) :: s.heads } hs False.elim).bind
      fun st s₁ h₁ => ?_
    have hsame : s₁.tk = s.tk := (h₁.2 t r htk).2 fun h => hstuck (Or.inr (Or.inr h))
    rw [← hsame] at hs hbad
    have hloop : Sound False s₁ (fun _ _ => False) (blockLoop item n s₁) := ih hs hbad False.elim
    exact hloop.bind fun _ _ h => h.elim

theorem blockLoop_sound {item : P Stmt} (hi : ItemSpec b item) (hs : Ends s.tk ∨ s.tk = [])
    (hE : E → s.tk.length ≤ b ∧ s.tk.length + 1 ≤ n) :
    Sound E s (fun _ s' => Beyond s.tk s'.tk) (blockLoop item n s) := by
  induction n generalizing s with
  | zero => exact Sound.outOfFuel fun h => by have := hE h; omega
  | succ n ih =>
    rcases hs with hs | hs
    · by_cases hfine : HeadFine (.block, s.tk)
      · obtain ⟨t, r, htk⟩ := hs.cons
        rw [blockLoop]
        refine sound_logHead hfine ?_
        refine sound_atPunct (s := { s with heads := (.block, s.tk) :: s.heads }) htk
          (fun _ => Sound.ret (Beyond.refl hs)) fun hclose => ?_
        refine sound_cur (s := { s with heads := (.block, s.tk) :: s.heads }) htk ?_
        split_ifs with heof
        · exact Sound.ret (Beyond.refl hs)
        have heats : ItemEats t := by
          rw [htk] at hfine
          rcases hfine with h | h | h
          · exact absurd h heof
          · exact absurd h hclose
          · exact h
        refine (hi E { s with heads := (.block, s.tk) :: s.heads } hs fun h => (hE h).1).bind
          fun st s₁ h₁ => ?_
        have hlt := (h₁.2 t r htk).1 heats
        dsimp only at hlt
        refine (ih (h₁.1.imp_left fun h => h.ends) fun h => ?_).bind fun rest s' h' => Sound.ret ?_
        · have := hE h
          omega
        · rcases h₁.1 with h | h
          · exact h.trans h'
          · have hnil := h'.suffix
            rw [h, List.suffix_nil] at hnil
            exact absurd hnil h'.ends.ne_nil
      · exact blockLoop_stuck hi hs hfine fun _ => Nat.succ_pos n
    · rw [blockLoop]
      refine sound_null_head hs fun s' hs' => ?_
      rw [if_neg Bool.false_ne_true, bind_eq, cur, hs']

theorem looksLikeType_of_kw {t : Token} (r : List Token)
    (h : t.kind = .kw ∧ t.text ∈ ["int", "char", "struct"]) :
    s.looksLikeType (t :: r) = true := by
  obtain ⟨hk, ht⟩ := h
  simp only [List.mem_cons, List.not_mem_nil, or_false] at ht
  simp only [PState.looksLikeType, isKw, hk, true_and, Bool.or_eq_true, decide_eq_true_eq]
  tauto

theorem itemEats_of_looksLikeType {t : Token} {r : List Token}
    (h : s.looksLikeType (t :: r) = true) : ItemEats t := by
  simp only [PState.looksLikeType, isKw, Bool.or_eq_true, Bool.and_eq_true,
    decide_eq_true_eq] at h
  rcases h with ((h | h) | h) | h
  · exact Or.inl ⟨h.1, by rw [h.2]; decide⟩
  · exact Or.inl ⟨h.1, by rw [h.2]; decide⟩
  · exact Or.inl ⟨h.1, by rw [h.2]; decide⟩
  · exact Or.inr (Or.inr (Or.inr (Or.inl h.1)))

theorem blockItem_sound {p : P Stmt} (hp : ∀ (E : Prop) (s : PState), Ends s.tk →
      (E → s.tk.length ≤ b) → Sound E s (fun _ s' => After itemTexts itemPuncts s.tk s'.tk) (p s))
    (hb : b ≤ n - 1) : ItemSpec b (blockItem n p) := by
  intro E s hs hE
  have heq : blockItem n p s = if s.looksLikeType s.tk then declaration n s else p s := by
    have h : blockItem n p s = (if s.looksLikeType s.tk then declaration n else p) s := rfl
    rw [h]
    split_ifs <;> rfl
  rw [heq]
  split_ifs with hty
  · refine (declaration_sound n hs fun h => (hE h).trans hb).mono fun _ s' h' => ⟨h'.1, ?_⟩
    intro t r htk
    rw [htk] at hty
    exact ⟨fun _ => h'.2 (htk ▸ hty), fun h => absurd (itemEats_of_looksLikeType hty) h⟩
  · refine (hp E s hs hE).mono fun _ s' h' => ⟨Or.inl h'.beyond, fun t r htk => ?_⟩
    refine ⟨fun h => ?_, fun h => h'.stays t r htk fun he => h (Or.inr he)⟩
    rcases h with h | h
    · rw [htk] at hty
      exact absurd (looksLikeType_of_kw r h) hty
    · exact h'.eats t r htk h

/-- A statement takes four units of fuel more than there are tokens. -/
theorem stmt_sound (n : ℕ) (E : Prop) (s : PState) (hs : Ends s.tk)
    (hE : E → s.tk.length ≤ n - 4) :
    Sound E s (fun _ s' => After itemTexts itemPuncts s.tk s'.tk) (stmt n s) := by
  induction n generalizing E s with
  | zero =>
    have hpos := hs.length_pos
    exact Sound.outOfFuel fun h => by have := hE h; omega
  | succ n ih =>
    obtain ⟨t, r, htk⟩ := hs.cons
    have hlen : s.tk.length = r.length + 1 := by rw [htk, List.length_cons]
    -- behind a keyword there are enough units of fuel for expressions and statements
    have hfuel : E → r.length ≤ n - 4 := fun h => by have := hE h; omega
    have hends {x : String} (ht : Takes x t) : Ends r := (htk ▸ hs).tail ht.ne_eof
    have hexpr {T : List Token} {s₁ : PState} (hb : Beyond r s₁.tk) : E → s₁.tk.length ≤ n - 3 :=
      fun h => by have := hb.length; have := hfuel h; omega
    have hstmt {s₁ : PState} (hb : Beyond r s₁.tk) :
        Sound E s₁ (fun _ s' => Beyond r s'.tk) (stmt n s₁) :=
      (ih E s₁ hb.ends fun h => hb.length.trans (hfuel h)).mono fun _ _ h' => hb.trans h'.beyond
    have hcond {s₁ : PState} (hb : Beyond r s₁.tk) :
        Sound E s₁ (fun _ s' => Beyond r s'.tk) (condition n s₁) :=
      (condition_sound n hb.ends (hexpr (T := r) hb)).mono fun _ _ h' => hb.trans h'
    have hdone {x : String} (ht : Takes x t) (hx : x ∈ itemTexts) {T' : List Token}
        (h : Beyond r T') : After itemTexts itemPuncts s.tk T' := After.of_takes htk ht hx h
    rw [stmt]
    refine sound_consume htk (fun ht => ?_) fun h₁ => ?_
    · refine sound_silent silent_newNode fun _ s₁ hs₁ => ?_
      have hb : Beyond r s₁.tk := hs₁ ▸ Beyond.refl (hends ht)
      refine (assign_sound n E s₁ hb.ends (hexpr (T := r) hb)).bind fun e s₂ h₂ => ?_
      refine sound_expect h₂.ends fun s' h' => Sound.ret ?_
      exact hdone ht (by decide) (hb.trans (h₂.beyond.trans h'))
    refine sound_consume htk (fun ht => ?_) fun h₂ => ?_
    · refine sound_silent silent_newNode fun _ s₁ hs₁ => ?_
      refine (hcond (hs₁ ▸ Beyond.refl (hends ht))).bind fun c s₂ hb₂ => ?_
      refine (hstmt hb₂).bind fun st s₃ hb₃ => ?_
      obtain ⟨u, v, hu⟩ := hb₃.ends.cons
      refine sound_consume hu (fun hu' => ?_) fun _ => Sound.ret (hdone ht (by decide) hb₃)
      have hv : Beyond r v := hb₃.trans ((Beyond.refl ((hu ▸ hb₃.ends).tail hu'.ne_eof)).step hu)
      have hrest : Sound E { s₃ with tk := v } (fun _ s' => Beyond r s'.tk)
          (stmt n { s₃ with tk := v }) := hstmt hv
      exact hrest.bind fun _ s' h' => Sound.ret (hdone ht (by decide) h')
    refine sound_consume htk (fun ht => ?_) fun h₃ => ?_
    · refine sound_silent silent_newNode fun _ s₁ hs₁ => ?_
      refine (hcond (hs₁ ▸ Beyond.refl (hends ht))).bind fun c s₂ hb₂ => ?_
      exact (hstmt hb₂).bind fun _ s' h' => Sound.ret (hdone ht (by decide) h')
    refine sound_consume htk (fun ht => ?_) fun h₄ => ?_
    · refine sound_silent silent_newNode fun _ s₁ hs₁ => ?_
      have hb : Beyond r s₁.tk := hs₁ ▸ Beyond.refl (hends ht)
      refine sound_expect hb.ends fun s₂ h₂ => ?_
      have hb₂ := hb.trans h₂
      refine (forInit_sound n hb₂.ends (hexpr (T := r) hb₂)).bind fun _ s₃ h₃ => ?_
      have hb₃ := hb₂.trans h₃
      refine (forExpr_sound n _ hb₃.ends (hexpr (T := r) hb₃)).bind fun _ s₄ h₄ => ?_
      have hb₄ := hb₃.trans h₄
      refine (forExpr_sound n _ hb₄.ends (hexpr (T := r) hb₄)).bind fun _ s₅ h₅ => ?_
      exact (hstmt (hb₄.trans h₅)).bind fun _ s' h' => Sound.ret (hdone ht (by decide) h')
    refine sound_consume htk (fun ht => ?_) fun h₅ => ?_
    · refine sound_silent silent_newNode fun _ s₁ hs₁ => ?_
      refine (hcond (hs₁ ▸ Beyond.refl (hends ht))).bind fun c s₂ hb₂ => ?_
      refine Sound.bind (switchBody_sound (Q := fun s' => Beyond r s'.tk) (fun _ _ h hq => h ▸ hq)
        fun s' h' => hstmt (h' ▸ hb₂)) fun res s' h' => Sound.ret (hdone ht (by decide) h')
    refine sound_consume htk (fun ht => ?_) fun h₆ => ?_
    · refine sound_silent (silent_insideSwitch _) fun _ s₁ hs₁ => ?_
      have hb : Beyond r s₁.tk := hs₁ ▸ Beyond.refl (hends ht)
      refine (signedConst_sound _ hb.ends).bind fun v s₂ h₂ => ?_
      refine sound_expect h₂.ends fun s₃ h₃ => ?_
      refine sound_silent (silent_newCase _ _) fun c s₄ h₄ => ?_
      have hb₄ : Beyond r s₄.tk := h₄ ▸ hb.trans (h₂.trans h₃)
      exact (hstmt hb₄).bind fun _ s' h' => Sound.ret (hdone ht (by decide) h')
    refine sound_consume htk (fun ht => ?_) fun h₇ => ?_
    · refine sound_silent (silent_insideSwitch _) fun _ s₁ hs₁ => ?_
      have hb : Beyond r s₁.tk := hs₁ ▸ Beyond.refl (hends ht)
      refine sound_expect hb.ends fun s₃ h₃ => ?_
      refine sound_silent (silent_newCase _ _) fun c s₄ h₄ => ?_
      have hb₄ : Beyond r s₄.tk := h₄ ▸ hb.trans h₃
      exact (hstmt hb₄).bind fun _ s' h' => Sound.ret (hdone ht (by decide) h')
    refine sound_consume htk (fun ht => ?_) fun h₈ => ?_
    · refine sound_expect (s := { s with tk := r }) (hends ht) fun s₁ hb => ?_
      exact sound_silent silent_newNode fun _ s' h' => Sound.ret (hdone ht (by decide) (h' ▸ hb))
    refine sound_consume htk (fun ht => ?_) fun h₉ => ?_
    · refine sound_expect (s := { s with tk := r }) (hends ht) fun s₁ hb => ?_
      exact sound_silent silent_newNode fun _ s' h' => Sound.ret (hdone ht (by decide) (h' ▸ hb))
    refine sound_atPunct htk (fun ht => ?_) fun h₁₀ => ?_
    · have hr : Ends r := (htk ▸ hs).tail (by rw [ht.1]; decide)
      have heats : Eats itemTexts itemPuncts t :=
        Or.inr (Or.inr (Or.inr (Or.inr ⟨ht.1, by rw [ht.2]; decide⟩)))
      refine sound_advance htk (sound_silent silent_newNode fun _ s₁ hs₁ => ?_)
      have hb : Beyond r s₁.tk := by
        rw [hs₁]
        exact Beyond.refl hr
      have hitem : ItemSpec (n - 4) (blockItem n (stmt n)) :=
        blockItem_sound (fun E s hs hE => ih E s hs hE) (by omega)
      refine (blockLoop_sound hitem (Or.inl hb.ends) fun h => ?_).bind fun body s₂ h₂ => ?_
      · have := hb.length
        have := hfuel h
        have := hr.length_pos
        omega
      refine sound_expect h₂.ends fun s' h' => Sound.ret ?_
      exact After.of_lt htk (hb.trans (h₂.trans h')) heats
    -- no keyword stands here, so the expression decides
    refine (exprStmt_sound n hs fun h => by have := hE h; omega).mono fun _ s' h' => ?_
    have hno : ∀ x ∈ stmtTexts, ¬ Takes x t := by
      simp only [stmtTexts, List.forall_mem_cons]
      exact ⟨h₁, h₂, h₃, h₄, h₅, h₆, h₇, h₈, h₉, fun _ h => absurd h List.not_mem_nil⟩
    have hsub₁ : exprTexts ++ [";"] ⊆ itemTexts := by decide
    have hsub₂ : itemTexts ⊆ (exprTexts ++ [";"]) ++ stmtTexts := by decide
    have hsub₃ : postfixOps ⊆ itemPuncts := by decide
    refine ⟨h'.ends, h'.suffix, fun u v hT he => ?_, fun u v hT he => ?_⟩
    · rw [htk, List.cons.injEq] at hT
      refine h'.eats u v (by rw [htk, hT.1, hT.2]) ?_
      have he' : Eats ((exprTexts ++ [";"]) ++ stmtTexts) postfixOps u := by
        rcases he with h | h | h | ⟨hk, h⟩ | ⟨hk, h⟩
        · exact Or.inl h
        · exact Or.inr (Or.inl h)
        · exact Or.inr (Or.inr (Or.inl h))
        · exact Or.inr (Or.inr (Or.inr (Or.inl ⟨hk, hsub₂ h⟩)))
        · refine Or.inr (Or.inr (Or.inr (Or.inr ⟨hk, ?_⟩)))
          rw [← hT.1] at hk h ⊢
          simp only [itemPuncts, List.mem_cons, List.not_mem_nil, or_false] at h
          simp only [postfixOps, List.mem_cons, List.not_mem_nil, or_false]
          tauto
      exact eats_of_not_takes (hT.1 ▸ hno) he'
    · rw [htk, List.cons.injEq] at hT
      exact h'.stays u v (by rw [htk, hT.1, hT.2]) fun h => he (eats_mono hsub₁ hsub₃ h)

end Statements

section Declarations

variable {E : Prop} {s : PState} {n k : ℕ}

theorem paramLoop_sound (n : ℕ) (hs : Ends s.tk) {ps : List Var}
    (hE : E → s.tk.length ≤ n - 1 ∧ s.tk.length + 1 ≤ k) :
    Sound E s (fun _ s' => Beyond s.tk s'.tk) (paramLoop n k ps s) := by
  induction k generalizing s ps with
  | zero => exact Sound.outOfFuel fun h => by have := hE h; omega
  | succ k ih =>
    rw [paramLoop]
    refine (declspec_sound n E s hs fun h => (hE h).1).bind fun pty s₁ h₁ => ?_
    obtain ⟨t, r, htk⟩ := h₁.1.ends.cons
    have hlen := h₁.1.length
    rw [htk, List.length_cons] at hlen
    refine sound_cur htk ?_
    split_ifs with ht
    · exact sound_silent (silent_ccError _) fun _ s' h' => Sound.ret (h' ▸ h₁.1)
    have hr : Ends r := (htk ▸ h₁.1.ends).tail (by rw [not_not.mp ht]; decide)
    refine sound_advance htk (sound_silent (silent_newLocal _ _) fun v s₂ h₂ => ?_)
    have hb₂ : Beyond r s₂.tk := by
      rw [h₂]
      exact Beyond.refl hr
    have hlen₂ := hb₂.length
    obtain ⟨u, r', hu⟩ := hb₂.ends.cons
    have hall {T' : List Token} (h : Beyond s₂.tk T') : Beyond s.tk T' :=
      h₁.1.trans ((hb₂.trans h).step htk)
    refine sound_consume hu (fun hu' => ?_) fun _ => Sound.ret (hall (Beyond.refl hb₂.ends))
    have hr' : Ends r' := (hu ▸ hb₂.ends).tail hu'.ne_eof
    rw [hu, List.length_cons] at hlen₂
    refine (ih (s := { s₂ with tk := r' }) hr' fun h => ?_).mono fun _ s' h' => ?_
    · have := hE h
      dsimp only
      omega
    · exact hall (h'.step hu)

theorem paramList_sound (n : ℕ) (hs : Ends s.tk) (hE : E → s.tk.length ≤ n - 1) :
    Sound E s (fun _ s' => Beyond s.tk s'.tk) (paramList n s) := by
  refine sound_expect hs fun s₁ h₁ => ?_
  have hlen := h₁.length
  have hpos := h₁.ends.length_pos
  obtain ⟨t, r, htk⟩ := h₁.ends.cons
  refine sound_atPunct htk (fun _ => ?_) fun _ => ?_
  · exact sound_expect h₁.ends fun s' h' => Sound.ret (h₁.trans h')
  refine (paramLoop_sound n h₁.ends fun h => ?_).bind fun ps s₂ h₂ => ?_
  · have := hE h
    omega
  · exact sound_expect h₂.ends fun s' h' => Sound.ret (h₁.trans (h₂.trans h'))

theorem functionRest_sound (n : ℕ) (ret : Ty) (name : String) (hs : Ends s.tk)
    (hE : E → s.tk.length ≤ n - 4) :
    Sound E s (fun _ s' => Beyond s.tk s'.tk) (functionRest n ret name s) := by
  refine sound_silent (silent_ccAlloc _) fun _ s₁ h₁ => ?_
  refine sound_silent (silent_modify ?_) fun _ s₂ h₂ => ?_
  · exact fun _ => ⟨rfl, rfl, rfl⟩
  rw [← h₁, ← h₂] at hs hE ⊢
  refine (paramList_sound n hs fun h => by have := hE h; omega).bind fun ps s₃ h₃ => ?_
  refine sound_silent (silent_check _ _) fun _ s₄ h₄ => ?_
  rw [← h₄] at h₃
  have hlen := h₃.length
  obtain ⟨t, r, htk⟩ := h₃.ends.cons
  refine sound_atPunct htk (fun _ => ?_) fun _ => ?_
  · refine (stmt_sound n E s₄ h₃.ends fun h => by have := hE h; omega).bind fun body s₅ h₅ => ?_
    exact sound_silent silent_get fun _ s' h' => Sound.ret (h' ▸ h₃.trans h₅.beyond)
  · exact sound_silent (silent_ccError _) fun _ s' h' => Sound.ret (h' ▸ h₃)

theorem silent_storeInit (ty : Ty) (v : Var) (val : Word) : Silent (storeInit ty v val) := by
  unfold storeInit
  cases v.place with
  | frame _ => exact silent_pure _
  | global p => exact silent_modify fun _ => ⟨rfl, rfl, rfl⟩

theorem globalInit_sound (ty : Ty) (v : Var) {T : List Token} (hs : Maybe T s.tk) :
    Sound E s (fun _ s' => Maybe T s'.tk) (globalInit ty v s) := by
  rcases hs with hs | hs
  · obtain ⟨t, r, htk⟩ := hs.ends.cons
    refine sound_consume htk (fun ht => ?_) fun _ => Sound.ret (Or.inl hs)
    have hr : Ends r := (htk ▸ hs.ends).tail ht.ne_eof
    refine (signedConst_sound (s := { s with tk := r }) _ hr).bind fun val s₁ h₁ => ?_
    refine ((silent_storeInit ty v val).sound E s₁).mono fun _ s' h' => Or.inl ?_
    rw [h']
    exact hs.trans (h₁.step htk)
  · rw [globalInit, bind_eq, consume, hs]
    exact Sound.ret (Or.inr hs)

theorem globalDecl_sound (base : Ty) (name : String) (hs : Ends s.tk) :
    Sound E s (fun _ s' => Maybe s.tk s'.tk) (globalDecl base name s) := by
  refine (arraySuffix_sound hs base).bind fun ty s₁ h₁ => ?_
  refine sound_silent (silent_newGlobal name ty) fun v s₂ h₂ => ?_
  rw [← h₂] at h₁
  refine (globalInit_sound ty v h₁).bind fun _ s₃ h₃ => ?_
  rcases h₃ with h₃ | h₃
  · obtain ⟨t, r, htk⟩ := h₃.ends.cons
    have hret : Sound E s₃ (fun _ s' => Maybe s.tk s'.tk)
        ((expect ";" >>= fun _ => (Pure.pure () : P Unit)) s₃) :=
      sound_expect h₃.ends fun s' h' => Sound.ret (Or.inl (h₃.trans h'))
    have heq : (expect ";" >>= fun _ => (Pure.pure () : P Unit)) s₃ = expect ";" s₃ := by
      rw [bind_eq]
      cases expect ";" s₃ <;> rfl
    rwa [heq] at hret
  · rw [expect, h₃]
    exact ⟨Or.inr h₃, List.suffix_rfl, id⟩

theorem typedefRest_sound (n : ℕ) (hs : Ends s.tk) (hE : E → s.tk.length ≤ n - 1) :
    Sound E s (fun _ s' => Beyond s.tk s'.tk) (typedefRest n s) := by
  refine (declspec_sound n E s hs hE).bind fun ty s₁ h₁ => ?_
  obtain ⟨t, r, htk⟩ := h₁.1.ends.cons
  refine sound_cur htk ?_
  split_ifs with ht
  · exact sound_silent (silent_ccError _) fun _ s' h' => Sound.ret (h' ▸ h₁.1)
  have hr : Ends r := (htk ▸ h₁.1.ends).tail (by rw [not_not.mp ht]; decide)
  refine sound_silent (silent_registerTypedef _ _) fun _ s₂ h₂ => ?_
  refine sound_advance (h₂.trans htk) (sound_expect (s := { s₂ with tk := r }) hr fun s' h' => ?_)
  exact Sound.ret (h₁.1.trans (h'.step htk))

/-- A top-level declaration consumes its name, and only a failed one leaves the list. -/
theorem topRest_sound (n : ℕ) (base : Ty) (hs : Ends s.tk) (hE : E → s.tk.length ≤ n - 3) :
    Sound E s (fun o s' => o.isSome → Maybe s.tk s'.tk ∧ s'.tk.length < s.tk.length)
      (topRest n base s) := by
  have hpos := hs.length_pos
  obtain ⟨t, r, htk⟩ := hs.cons
  have hlen : s.tk.length = r.length + 1 := by rw [htk, List.length_cons]
  refine sound_cur htk ?_
  split_ifs with ht
  · exact sound_silent (silent_ccError _) fun _ s' h' =>
      Sound.ret fun h => absurd h Bool.false_ne_true
  have hr : Ends r := (htk ▸ hs).tail (by rw [not_not.mp ht]; decide)
  have hlater {T' : List Token} (h : Maybe r T') : Maybe s.tk T' ∧ T'.length < s.tk.length := by
    rcases h with h | h
    · have := h.length
      exact ⟨Or.inl (h.step htk), by omega⟩
    · rw [h]
      exact ⟨Or.inr rfl, hpos⟩
  have hfailed {s' : PState} {x : Option (List Func)} (h : Maybe r s'.tk) :
      Sound E s' (fun o s' => o.isSome → Maybe s.tk s'.tk ∧ s'.tk.length < s.tk.length)
        ((do return if ← ccFailed then none else x : P (Option (List Func))) s') := by
    have heq : (do return if ← ccFailed then none else x : P (Option (List Func))) s' =
        .done (if s'.err.isSome then none else x) s' := rfl
    rw [heq]
    exact ⟨fun _ => hlater h, List.suffix_rfl, id⟩
  obtain ⟨u, v, hu⟩ := hr.cons
  refine sound_advance htk (sound_atPunct (s := { s with tk := r }) hu (fun _ => ?_) fun _ => ?_)
  · refine (functionRest_sound (s := { s with tk := r }) n base _ hr fun h => ?_).bind
      fun fn s₁ h₁ => hfailed (Or.inl h₁)
    have := hE h
    dsimp only
    omega
  · exact (globalDecl_sound (s := { s with tk := r }) base _ hr).bind fun _ s₁ h₁ => hfailed h₁

theorem get_bind {α : Type} (f : PState → P α) (s : PState) : (P.get >>= f) s = f s s := rfl

theorem topLoop_sound (hs : Ends s.tk ∨ s.tk = []) (fns : List Func)
    (hE : E → s.tk.length + 4 ≤ n) :
    Sound E s (fun _ _ => True) (topLoop n fns s) := by
  induction n generalizing s fns with
  | zero => exact Sound.outOfFuel fun h => by have := hE h; omega
  | succ n ih =>
    rw [topLoop, get_bind]
    rcases hs with hs | hs
    · obtain ⟨t, r, htk⟩ := hs.cons
      have hlen : s.tk.length = r.length + 1 := by rw [htk, List.length_cons]
      rw [htk]
      dsimp only
      split_ifs with heof
      · exact Sound.ret trivial
      refine sound_consume htk (fun ht => ?_) fun _ => ?_
      · have hr : Ends r := (htk ▸ hs).tail ht.ne_eof
        refine (typedefRest_sound (s := { s with tk := r }) n hr fun h => ?_).bind fun c s₁ h₁ => ?_
        · have := hE h
          dsimp only
          omega
        cases c with
        | false => exact Sound.ret trivial
        | true =>
          have := h₁.length
          exact ih (Or.inl h₁.ends) fns fun h => by have := hE h; dsimp only at *; omega
      refine (declspec_sound n E s hs fun h => by have := hE h; omega).bind fun base s₁ h₁ => ?_
      have hlen₁ := h₁.1.length
      obtain ⟨u, v, hu⟩ := h₁.1.ends.cons
      refine sound_consume hu (fun hu' => ?_) fun _ => ?_
      · have hv : Ends v := (hu ▸ h₁.1.ends).tail hu'.ne_eof
        rw [hu, List.length_cons] at hlen₁
        exact ih (s := { s₁ with tk := v }) (Or.inl hv) fns fun h => by
          have := hE h
          dsimp only
          omega
      refine (topRest_sound n base h₁.1.ends fun h => by have := hE h; omega).bind fun o s₂ h₂ => ?_
      cases o with
      | none => exact Sound.ret trivial
      | some new =>
        obtain ⟨hm, hlt⟩ := h₂ rfl
        exact ih (hm.imp_left fun h => h.ends) _ fun h => by have := hE h; omega
    · rw [hs]
      exact Sound.ret trivial

end Declarations

/-- `cc_parse` answers after finitely many steps, with every block from the arena. -/
def Returns (toks : List Token) (arena : Arena) : Prop :=
  ∃ n fns s, ccParse n toks arena = .done fns s

/-- No loop condition is tested where the loop cannot go on. -/
def NeverStuck (toks : List Token) (arena : Arena) : Prop :=
  ∀ n, ∀ h ∈ (ccParse n toks arena).state.heads, HeadFine h

/-- Every block that `cc_parse` asks for fits into the arena. -/
def ArenaLasts (toks : List Token) (arena : Arena) : Prop :=
  ∀ n s, ccParse n toks arena ≠ .stop .arena s

section Runs

variable {toks : List Token} {arena : Arena} {n m : ℕ}

theorem not_bad_of_done (hends : Ends toks) {fns : Option (List Func)} {s : PState}
    (h : ccParse n toks arena = .done fns s) : ¬ Bad s := by
  have hsound := topLoop_sound (E := False) (n := n) (s := .start toks arena) (Or.inl hends)
    [] False.elim
  have heq : topLoop n [] (.start toks arena) = .done fns s := h
  rw [heq] at hsound
  intro hb
  obtain ⟨x, hx, -⟩ := hsound.2.2 hb
  exact absurd hx List.not_mem_nil

/-- A longer run agrees with a run that has stopped at a bad loop condition. -/
theorem not_returns_of_bad (hends : Ends toks) (hb : Bad (ccParse n toks arena).state) :
    ¬ Returns toks arena := by
  rintro ⟨m, fns, s, hm⟩
  have hgood := not_bad_of_done hends hm
  rcases le_total n m with h | h
  · rcases ccParse_below h toks arena with heq | ⟨s', hs', hsuf⟩
    · rw [heq, hm] at hb
      exact hgood hb
    · rw [hs'] at hb
      rw [hm] at hsuf
      exact hgood (bad_of_suffix hsuf hb)
  · rcases ccParse_below h toks arena with heq | ⟨s', hs', -⟩
    · rw [← heq, hm] at hb
      exact hgood hb
    · rw [hm] at hs'
      cases hs'

theorem arenaLasts_of_done {fns : Option (List Func)} {s : PState}
    (h : ccParse n toks arena = .done fns s) : ArenaLasts toks arena := by
  intro m s' hm
  rcases le_total n m with hle | hle
  · rcases ccParse_below hle toks arena with heq | ⟨s₁, hs₁, -⟩
    · rw [h, hm] at heq
      cases heq
    · rw [h] at hs₁
      cases hs₁
  · rcases ccParse_below hle toks arena with heq | ⟨s₁, hs₁, -⟩
    · rw [h, hm] at heq
      cases heq
    · rw [hm] at hs₁
      cases hs₁

end Runs

/-- As long as the arena lasts, the parser answers if no loop gets stuck. Where one does it never
answers, whatever the arena. -/
theorem parser_returns (toks : List Token) (arena : Arena) (hends : Ends toks) :
    (ArenaLasts toks arena ∧ NeverStuck toks arena → Returns toks arena) ∧
      (¬ NeverStuck toks arena → ¬ Returns toks arena) := by
  constructor
  · rintro ⟨harena, hfine⟩
    have hsound := topLoop_sound (E := True) (n := toks.length + 4) (s := .start toks arena)
      (Or.inl hends) [] fun _ => le_rfl
    cases hrun : topLoop (toks.length + 4) [] (.start toks arena) with
    | done fns s => exact ⟨_, fns, s, hrun⟩
    | stop why s =>
      rw [hrun] at hsound
      rcases hsound.2 with rfl | ⟨h, hh, hbad⟩ | ⟨-, hno⟩
      · exact absurd hrun (harena _ s)
      · have hstate : (ccParse (toks.length + 4) toks arena).state = s := by
          rw [ccParse, hrun]
          rfl
        exact absurd (hfine _ h (hstate ▸ hh)) hbad
      · exact absurd trivial hno
  · intro hstuck hret
    refine hstuck fun n h hh => ?_
    by_contra hbad
    exact not_returns_of_bad hends ⟨h, hh, hbad⟩ hret

/-- The arena of a compilation. -/
def freshArena : Arena := { base := 4096, cap := 2097152, pos := 0, sink := 64, served := [] }

/-- The tokens of a function with the given body. -/
def mainTokens (body : List Token) : List Token :=
  [Token.kw "int", .ident "main", .punct "(", .punct ")", .punct "\x7b"] ++ body ++
    [Token.punct "\x7d", .eof]

theorem ends_mainTokens (body : List Token) : Ends (mainTokens body) :=
  ⟨[Token.kw "int", .ident "main", .punct "(", .punct ")", .punct "\x7b"] ++ body ++
      [Token.punct "\x7d"],
    .eof, by simp [mainTokens], rfl⟩

/-- `int main() { return 1 + 2; }` -/
theorem parser_returns_sum :
    ∃ toks, Ends toks ∧ ArenaLasts toks freshArena ∧ NeverStuck toks freshArena ∧
      Returns toks freshArena := by
  let toks := mainTokens [.kw "return", .num 1, .punct "+", .num 2, .punct ";"]
  have hdone : (match ccParse 20 toks freshArena with
      | .done _ _ => true
      | .stop _ _ => false) = true := by decide +kernel
  cases hrun : ccParse 20 toks freshArena with
  | stop why s =>
    rw [hrun] at hdone
    exact absurd hdone Bool.false_ne_true
  | done fns s =>
    have hends := ends_mainTokens [.kw "return", .num 1, .punct "+", .num 2, .punct ";"]
    have harena := arenaLasts_of_done hrun
    obtain ⟨hreturns, hstuck⟩ := parser_returns toks freshArena hends
    have hfine : NeverStuck toks freshArena := not_not.mp fun hno => hstuck hno ⟨20, fns, s, hrun⟩
    exact ⟨toks, hends, harena, hfine, hreturns ⟨harena, hfine⟩⟩

/-- `int main() { ) }` -/
theorem stray_parenthesis_never_closed :
    ¬ ∀ (toks : List Token) (arena : Arena), Ends toks → Returns toks arena := by
  intro hall
  have hends := ends_mainTokens [.punct ")"]
  refine not_returns_of_bad (n := 20) hends ?_ (hall _ freshArena hends)
  refine ⟨(.block, [.punct ")", .punct "\x7d", .eof]), ?_, by decide +kernel⟩
  have hmem : ((ccParse 20 (mainTokens [.punct ")"]) freshArena).state.heads.contains
      (.block, [.punct ")", .punct "\x7d", .eof])) = true := by decide +kernel
  exact List.contains_iff_mem.mp hmem

end XinuRpi4.Compiler
