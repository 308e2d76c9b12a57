import XinuRpi4.Compiler.ParserSteps

/-!
# The parser reads types as the grammar has them
-/

namespace XinuRpi4.Compiler

variable {σ σ₁ σ₂ : Scope} {T T₁ T₂ : List Token}

/-- A token that a type begins with. -/
def TypeStart (t : Token) : Prop :=
  (∃ name, t = .ident name) ∨ ∃ x ∈ ["int", "char", "struct"], t = .kw x

theorem CType.tokens_start : ∀ t : CType, ∃ x r, t.tokens = x :: r ∧ TypeStart x
  | .int => ⟨_, _, rfl, Or.inr ⟨"int", by simp, rfl⟩⟩
  | .char => ⟨_, _, rfl, Or.inr ⟨"char", by simp, rfl⟩⟩
  | .named name => ⟨_, _, rfl, Or.inl ⟨name, rfl⟩⟩
  | .structRef _ => ⟨_, _, rfl, Or.inr ⟨"struct", by simp, rfl⟩⟩
  | .structDef _ _ => ⟨_, _, rfl, Or.inr ⟨"struct", by simp, rfl⟩⟩
  | .star t => by
      obtain ⟨x, r, h, hx⟩ := t.tokens_start
      exact ⟨x, r ++ [Token.punct "*"], by rw [CType.tokens, h]; rfl, hx⟩

theorem TypeStart.not_isPunct {x : Token} (h : TypeStart x) (t : String) :
    isPunct (x :: T) t = false := by
  obtain ⟨name, rfl⟩ | ⟨u, -, rfl⟩ := h
  · simp
  · simp

theorem TypeStart.ne_eof {x : Token} (h : TypeStart x) : x.kind ≠ .eof := by
  obtain ⟨name, rfl⟩ | ⟨u, -, rfl⟩ := h
  · simp [Token.ident]
  · simp [Token.kw]

/-- `("[" num "]")?` behind a declared name. -/
theorem yields_arraySuffix (ty : Ty) (len : Option Word) (hT : Starts T "[" = false) :
    Yields (arraySuffix ty) σ (lenTokens len ++ T) (withLen σ ty len) σ T := by
  cases len with
  | none => exact Yields.miss hT yields_pure
  | some len =>
    refine Yields.hit (by simp [Starts]) (yields_logLength.bind (Yields.cur ?_))
    refine yields_pure.bind (Yields.advance (Yields.expect (by simp [Starts]) ?_))
    exact yields_tyArrayOf ty (toInt32 len.toInt)

/-- The stars behind the base of a type go on from a type that has been read. -/
def StarsFrom (m : ℕ) (ty : Ty) (σ : Scope) (T : List Token) (b : Ty) (σ₂ : Scope)
    (T₂ : List Token) : Prop :=
  ∀ k, m ≤ k → Yields (starLoop k ty) σ T b σ₂ T₂

theorem starsFrom_end {ty : Ty} (hT : isPunct T "*" = false) : StarsFrom 1 ty σ T ty σ T := by
  intro k hk
  cases k with
  | zero => omega
  | succ k => exact Yields.notAt hT yields_pure

theorem StarsFrom.star {m : ℕ} {ty b : Ty} (h : StarsFrom m (.ptr ty) σ T b σ₂ T₂) :
    StarsFrom (m + 1) ty σ (.punct "*" :: T) b σ₂ T₂ := by
  intro k hk
  cases k with
  | zero => omega
  | succ k =>
    refine Yields.at (by simp) (Yields.advance ((yields_tyPtrTo ty).bind (h k (by omega))))

/-- The base of a type is read first. -/
theorem yields_declspec {n m : ℕ} {ty b : Ty} (hm : m ≤ n)
    (hbase : Yields (baseType (structDecl n)) σ T (some ty) σ₁ T₁)
    (hstars : StarsFrom m ty σ₁ T₁ b σ₂ T₂) : Yields (declspec n) σ T b σ₂ T₂ :=
  hbase.bind (hstars n hm)

theorem yields_structRefTag (tag : String) :
    Yields structTag σ (.ident tag :: T) (some tag) σ T := by
  refine Yields.cur ?_
  rw [if_pos (show (Token.ident tag).kind = .ident from rfl)]
  exact Yields.advance yields_pure

theorem yields_structTag (tag : Option String) :
    Yields structTag σ (tagTokens tag ++ .punct "\x7b" :: T) tag σ (.punct "\x7b" :: T) := by
  cases tag with
  | none =>
    refine Yields.cur ?_
    rw [if_neg (by simp [Token.punct])]
    exact yields_pure
  | some tag => exact yields_structRefTag tag

/-- A struct type is added. -/
theorem yields_newStruct :
    Yields (P.modify (fun s => { s with
      types := Function.update s.types σ.ntypes { members := [], size := 0 }
      ntypes := σ.ntypes + 1 })) σ T () (σ.openStruct none) T := by
  refine yields_modify (fun _ => rfl) (fun s hs => ?_) fun _ => ⟨rfl, rfl⟩
  rw [← hs]
  rfl

/-- A struct type is opened, and its tag is known at once. -/
theorem yields_openStruct (tag : Option String) :
    Yields (P.modify (fun s => { s with
      types := Function.update s.types σ.ntypes { members := [], size := 0 }
      ntypes := σ.ntypes + 1 }) >>= fun _ => registerTag tag σ.ntypes) σ T ()
      (σ.openStruct tag) T := by
  cases tag with
  | none => exact yields_newStruct.bind yields_pure
  | some tag =>
    refine yields_newStruct.bind (Yields.alloc ?_)
    refine yields_modify (fun _ => rfl) (fun s hs => ?_) fun _ => ⟨rfl, rfl⟩
    have htags : s.tags = σ.tags := congrArg Scope.tags hs
    calc
      ({ s with tags := (tag, σ.ntypes) :: s.tags } : PState).scope
          = { s.scope with tags := (tag, σ.ntypes) :: s.tags } := rfl
      _ = σ.openStruct (some tag) := by rw [hs, htags]; rfl

/-- The struct type is closed with the members that were read. -/
theorem yields_closeStruct (id : ℕ) (off : ℤ) (ms : List Member) :
    Yields (P.modify fun s => { s with
      types := Function.update s.types id { members := ms, size := pAlignUp off 8 } }) σ T ()
      (σ.closeStruct id { members := ms, size := alignTo off 8 }) T := by
  refine yields_modify (fun _ => rfl) (fun s hs => ?_) fun _ => ⟨rfl, rfl⟩
  rw [← hs]
  rfl

theorem yields_structBody {n : ℕ} {tag : Option String} {r : ℤ × List Member}
    (hms : Yields (memberLoop (declspec n) n 0 []) (σ.openStruct tag) T r σ₁
      (.punct "\x7d" :: T₁)) :
    Yields (structBody (declspec n) n tag) σ T (.struct σ.ntypes)
      (σ₁.closeStruct σ.ntypes { members := r.2, size := alignTo r.1 8 }) T₁ := by
  refine Yields.alloc (Yields.get (q := ?_) (fun s _ hσ => ?_) ?_)
  · exact do
      let _ ← (P.modify (fun s => { s with
        types := Function.update s.types σ.ntypes { members := [], size := 0 }
        ntypes := σ.ntypes + 1 }) >>= fun _ => registerTag tag σ.ntypes)
      let body ← memberLoop (declspec n) n 0 []
      expect "\x7d"
      P.modify fun s => { s with
        types := Function.update s.types σ.ntypes
          { members := body.2, size := pAlignUp body.1 8 } }
      return .struct σ.ntypes
  · have hid : s.ntypes = σ.ntypes := congrArg Scope.ntypes hσ
    rw [hid]
    rfl
  · refine (yields_openStruct tag).bind (hms.bind ?_)
    exact Yields.expect (by simp [Starts]) ((yields_closeStruct _ _ _).bind yields_pure)

/-- A struct, behind the keyword. -/
theorem yields_structDecl {n : ℕ} {tag : Option String} {r : ℤ × List Member}
    (hms : Yields (memberLoop (declspec n) n 0 []) (σ.openStruct tag) T r σ₁
      (.punct "\x7d" :: T₁)) :
    Yields (structDecl (n + 1)) σ (tagTokens tag ++ .punct "\x7b" :: T) (.struct σ.ntypes)
      (σ₁.closeStruct σ.ntypes { members := r.2, size := alignTo r.1 8 }) T₁ :=
  (yields_structTag tag).bind (Yields.at (by simp) (Yields.advance (yields_structBody hms)))

theorem yields_structRef {n : ℕ} {tag : String} {id : ℕ} (h : σ.findStruct tag = some id)
    (hT : isPunct T "\x7b" = false) :
    Yields (structDecl (n + 1)) σ (.ident tag :: T) (.struct id) σ T := by
  refine (yields_structRefTag tag).bind (Yields.notAt hT ?_)
  refine Yields.get (q := Pure.pure _) (fun s _ hσ => ?_) yields_pure
  have hfind : s.findStruct tag = some id := by rw [← h, ← hσ]; rfl
  rw [hfind]

theorem yields_struct {n : ℕ} {ty : Ty} (h : Yields (structDecl n) σ T ty σ₁ T₁) :
    Yields (baseType (structDecl n)) σ (.kw "struct" :: T) (some ty) σ₁ T₁ := by
  refine Yields.miss (by simp [Starts]) (Yields.miss (by simp [Starts]) ?_)
  exact Yields.hit (by simp [Starts]) (h.bind yields_pure)

theorem yields_named {n : ℕ} {name : String} {ty : Ty} (h : σ.findTypedef name = some ty) :
    Yields (baseType (structDecl n)) σ (.ident name :: T) (some ty) σ T := by
  refine Yields.miss (by simp [Starts]) (Yields.miss (by simp [Starts]) ?_)
  refine Yields.miss (by simp [Starts]) (Yields.cur ?_)
  refine Yields.get (q := do advance; return some ty) (fun s _ hσ => ?_)
    (Yields.advance yields_pure)
  have hfind : s.findTypedef (Token.ident name).text = some ty := by rw [← h, ← hσ]; rfl
  rw [hfind]
  rfl

mutual

theorem CType.parsed : ∀ (t : CType) {σ σ₁ σ₂ : Scope} {T T₂ : List Token} {ty b : Ty} {n m : ℕ},
    t.meaning σ = some (ty, σ₁) → t.tokens.length + m ≤ n → isPunct T "\x7b" = false →
    StarsFrom m ty σ₁ T b σ₂ T₂ → Yields (declspec n) σ (t.tokens ++ T) b σ₂ T₂
  | .int, σ, σ₁, σ₂, T, T₂, ty, b, n, m, ht, hn, _, hs => by
      simp only [CType.meaning, Option.some.injEq, Prod.mk.injEq] at ht
      obtain ⟨rfl, rfl⟩ := ht
      exact yields_declspec (by omega) (Yields.hit (by simp [Starts]) yields_pure) hs
  | .char, σ, σ₁, σ₂, T, T₂, ty, b, n, m, ht, hn, _, hs => by
      simp only [CType.meaning, Option.some.injEq, Prod.mk.injEq] at ht
      obtain ⟨rfl, rfl⟩ := ht
      refine yields_declspec (by omega) (Yields.miss (by simp [Starts, CType.tokens]) ?_) hs
      exact Yields.hit (by simp [Starts]) yields_pure
  | .named name, σ, σ₁, σ₂, T, T₂, ty, b, n, m, ht, hn, _, hs => by
      simp only [CType.meaning, Option.map_eq_some_iff, Prod.mk.injEq] at ht
      obtain ⟨_, hfind, rfl, rfl⟩ := ht
      exact yields_declspec (by omega) (yields_named hfind) hs
  | .structRef tag, σ, σ₁, σ₂, T, T₂, ty, b, n, m, ht, hn, hT, hs => by
      simp only [CType.meaning, Option.map_eq_some_iff, Prod.mk.injEq] at ht
      obtain ⟨id, hfind, rfl, rfl⟩ := ht
      simp only [CType.tokens, List.length_cons, List.length_nil] at hn
      obtain ⟨n, rfl⟩ : ∃ k, n = k + 1 := ⟨n - 1, by omega⟩
      exact yields_declspec (by omega) (yields_struct (yields_structRef hfind hT)) hs
  | .structDef tag ms, σ, σ₁, σ₂, T, T₂, ty, b, n, m, ht, hn, _, hs => by
      simp only [CType.meaning, Option.map_eq_some_iff, Prod.mk.injEq] at ht
      obtain ⟨r, hms, rfl, rfl⟩ := ht
      simp only [CType.tokens, List.length_cons, List.length_append, List.length_nil] at hn
      obtain ⟨n, rfl⟩ : ∃ k, n = k + 1 := ⟨n - 1, by omega⟩
      have hbody := ms.parsed (T := T) hms (n := n) (k := n) (by omega) (by omega)
      have hdecl := yields_declspec (by omega) (yields_struct (yields_structDecl hbody)) hs
      simpa only [CType.tokens, List.append_assoc, List.cons_append, List.nil_append] using hdecl
  | .star t, σ, σ₁, σ₂, T, T₂, ty, b, n, m, ht, hn, _, hs => by
      simp only [CType.meaning, Option.map_eq_some_iff, Prod.mk.injEq] at ht
      obtain ⟨r, ht, rfl, rfl⟩ := ht
      simp only [CType.tokens, List.length_cons, List.length_append, List.length_nil] at hn
      have hbase := t.parsed (T := .punct "*" :: T) (n := n) (m := m + 1) ht (by omega) (by simp)
        hs.star
      simpa only [CType.tokens, List.append_assoc, List.cons_append, List.nil_append] using hbase

theorem CMembers.parsed : ∀ (ms : CMembers) {σ σ₁ : Scope} {off : ℤ} {before : List Member}
    {r : ℤ × List Member} {T : List Token} {n k : ℕ}, ms.meaning σ off before = some (r, σ₁) →
    ms.tokens.length + 1 ≤ n → ms.tokens.length + 1 ≤ k →
    Yields (memberLoop (declspec n) k off before) σ (ms.tokens ++ .punct "\x7d" :: T) r σ₁
      (.punct "\x7d" :: T)
  | .nil, σ, σ₁, off, before, r, T, n, k, hr, hn, hk => by
      simp only [CMembers.meaning, Option.some.injEq, Prod.mk.injEq] at hr
      obtain ⟨rfl, rfl⟩ := hr
      obtain ⟨k, rfl⟩ : ∃ j, k = j + 1 := ⟨k - 1, by omega⟩
      exact (yields_logHead .members).bind (Yields.at (by simp [CMembers.tokens]) yields_pure)
  | .cons t name len ms, σ, σ₁, off, before, r, T, n, k, hr, hn, hk => by
      simp only [CMembers.meaning, Option.bind_eq_some_iff] at hr
      obtain ⟨⟨ty, σ'⟩, ht, hr⟩ := hr
      simp only [CMembers.tokens, List.length_append, List.length_cons] at hn hk
      obtain ⟨k, rfl⟩ : ∃ j, k = j + 1 := ⟨k - 1, by omega⟩
      obtain ⟨x, rest, hx, hstart⟩ := t.tokens_start
      have hlen := congrArg List.length hx
      rw [List.length_cons] at hlen
      have hrest := ms.parsed (T := T) (n := n) (k := k) hr (by omega) (by omega)
      have hty := t.parsed (T := .ident name :: (lenTokens len ++ .punct ";" ::
          (ms.tokens ++ .punct "\x7d" :: T))) (n := n) (m := 1) ht (by omega) (by simp)
        (starsFrom_end (by simp))
      have htokens : (CMembers.cons t name len ms).tokens ++ .punct "\x7d" :: T = t.tokens ++
          .ident name :: (lenTokens len ++ .punct ";" :: (ms.tokens ++ .punct "\x7d" :: T)) := by
        simp only [CMembers.tokens, List.append_assoc, List.cons_append]
      rw [htokens]
      refine (yields_logHead .members).bind (Yields.notAt ?_ ?_)
      · rw [hx]
        exact hstart.not_isPunct _
      · rw [hx] at hty ⊢
        refine Yields.cur ?_
        rw [if_neg hstart.ne_eof]
        refine hty.bind (Yields.cur ?_)
        rw [if_neg (show ¬ (Token.ident name).kind ≠ .ident from fun h => h rfl)]
        refine Yields.advance ((yields_arraySuffix ty len (by simp [Starts])).bind ?_)
        refine Yields.expect (by simp [Starts]) (Yields.get (q := ?_) (fun s _ hσ => ?_) ?_)
        · exact do
            let _ ← ccAlloc memberSize
            let off := memberOffset off ((withLen σ' ty len).size σ'.types)
            memberLoop (declspec n) k (toInt32 (off + (withLen σ' ty len).size σ'.types))
              (before ++ [{ name := name, ty := withLen σ' ty len, offset := off }])
        · rw [← hσ]
          rfl
        · exact Yields.alloc hrest

end

end XinuRpi4.Compiler
