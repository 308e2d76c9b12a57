import XinuRpi4.Compiler.ExpressionGrammar

/-!
# Printed trees are read back

The abstract syntax of an expression is well typed in the scope behind it: the types of
its nodes follow from those of its operands, and distances in bytes are what was counted
in elements times the size of an element. A tree of this kind can be printed with all
operands in parentheses, and what is printed has the tree as its meaning.

In every scope that declarations build, an expression of the grammar is read as the
abstract syntax that C gives it, and the tree that was read is read again from its print.
-/

namespace XinuRpi4.Compiler

section Known

/-- All structs in the type are among the first `n`. -/
def Ty.Known (n : ℕ) : Ty → Prop
  | .int => True
  | .char => True
  | .ptr b => b.Known n
  | .array b _ _ => b.Known n
  | .struct id => id < n

theorem Ty.Known.mono {n m : ℕ} (hnm : n ≤ m) : ∀ {t : Ty}, t.Known n → t.Known m
  | .int, _ => trivial
  | .char, _ => trivial
  | .ptr b, h => mono (t := b) hnm h
  | .array b _ _, h => mono (t := b) hnm h
  | .struct _, h => lt_of_lt_of_le h hnm

theorem Ty.Known.base {n : ℕ} {t b : Ty} (h : t.Known n) (hb : t.base = some b) : b.Known n := by
  cases t with
  | int => cases hb
  | char => cases hb
  | ptr u =>
    obtain rfl := Option.some.inj hb
    exact h
  | array u len size =>
    obtain rfl := Option.some.inj hb
    exact h
  | struct id => cases hb

/-- Types only mention structs that exist. -/
structure Scope.Closed (σ : Scope) : Prop where
  curLocals : ∀ v ∈ σ.curLocals, v.ty.Known σ.ntypes
  globals : ∀ v ∈ σ.globals, v.ty.Known σ.ntypes
  typedefs : ∀ d ∈ σ.typedefs, d.2.Known σ.ntypes
  tags : ∀ d ∈ σ.tags, d.2 < σ.ntypes
  members : ∀ id < σ.ntypes, ∀ m ∈ (σ.types id).members, m.ty.Known σ.ntypes

variable {σ σ₁ : Scope}

theorem Scope.Grows.size (h : σ.Grows σ₁) : ∀ {t : Ty}, t.Known σ.ntypes →
    t.size σ₁.types = t.size σ.types
  | .int, _ => rfl
  | .char, _ => rfl
  | .ptr _, _ => rfl
  | .array _ _ _, _ => rfl
  | .struct id, ht => congrArg StructBody.size (h.types id ht)

theorem Scope.Grows.findMember (h : σ.Grows σ₁) (name : String) : ∀ {t : Ty}, t.Known σ.ntypes →
    σ₁.findMember t name = σ.findMember t name
  | .int, _ => rfl
  | .char, _ => rfl
  | .ptr _, _ => rfl
  | .array _ _ _, _ => rfl
  | .struct id, ht => by rw [Scope.findMember, Scope.findMember, h.types id ht]

theorem Scope.Closed.findVar (h : σ.Closed) {name : String} {v : Var}
    (hv : σ.findVar name = some v) : v.ty.Known σ.ntypes := by
  rw [Scope.findVar, Option.or_eq_some_iff] at hv
  obtain hv | ⟨-, hv⟩ := hv
  · exact h.curLocals v (List.mem_of_find?_eq_some hv)
  · exact h.globals v (List.mem_of_find?_eq_some hv)

theorem Scope.Closed.findMember (h : σ.Closed) {t : Ty} {name : String} {m : Member}
    (ht : t.Known σ.ntypes) (hm : σ.findMember t name = some m) : m.ty.Known σ.ntypes := by
  cases t with
  | int => cases hm
  | char => cases hm
  | ptr b => cases hm
  | array b len size => cases hm
  | struct id => exact h.members id ht m (List.mem_of_find?_eq_some hm)

/-- A variable is found under its own name. -/
theorem Scope.findVar_name {name : String} {v : Var} (hv : σ.findVar name = some v) :
    v.name = name := by
  rw [Scope.findVar, Option.or_eq_some_iff] at hv
  obtain hv | ⟨-, hv⟩ := hv
  · simpa using List.find?_some hv
  · simpa using List.find?_some hv

theorem Scope.Closed.openStruct (h : σ.Closed) (tag : Option String) :
    (σ.openStruct tag).Closed where
  curLocals v hv := (h.curLocals v hv).mono (Nat.le_succ _)
  globals v hv := (h.globals v hv).mono (Nat.le_succ _)
  typedefs d hd := (h.typedefs d hd).mono (Nat.le_succ _)
  tags d hd := by
    cases tag with
    | none => exact Nat.lt_succ_of_lt (h.tags d hd)
    | some tag =>
      obtain rfl | hd := List.mem_cons.mp hd
      · exact Nat.lt_succ_self _
      · exact Nat.lt_succ_of_lt (h.tags d hd)
  members id hid m hm := by
    have hid' : id < σ.ntypes + 1 := hid
    by_cases heq : id = σ.ntypes
    · simp [Scope.openStruct, heq] at hm
    · have hm' : m ∈ (σ.types id).members := by
        simpa [Scope.openStruct, Function.update_of_ne heq] using hm
      exact (h.members id (by omega) m hm').mono (Nat.le_succ _)

theorem Scope.Closed.closeStruct (h : σ.Closed) (id : ℕ) {b : StructBody}
    (hb : ∀ m ∈ b.members, m.ty.Known σ.ntypes) : (σ.closeStruct id b).Closed where
  curLocals := h.curLocals
  globals := h.globals
  typedefs := h.typedefs
  tags := h.tags
  members id' hid m hm := by
    by_cases heq : id' = id
    · subst heq
      exact hb m (by simpa [Scope.closeStruct] using hm)
    · exact h.members id' hid m (by simpa [Scope.closeStruct, Function.update_of_ne heq] using hm)

theorem known_withLen {t : Ty} (h : t.Known σ.ntypes) (σ' : Scope) (len : Option Word) :
    (withLen σ' t len).Known σ.ntypes := by
  cases len with
  | none => exact h
  | some len => exact h

mutual

/-- A type that is named in a closed scope leaves the scope closed. -/
theorem CType.closed : ∀ (t : CType) {σ σ₁ : Scope} {ty : Ty}, σ.Closed →
    t.meaning σ = some (ty, σ₁) → σ₁.Closed ∧ ty.Known σ₁.ntypes
  | .int, σ, σ₁, ty, hσ, h => by
      simp only [CType.meaning, Option.some.injEq, Prod.mk.injEq] at h
      obtain ⟨rfl, rfl⟩ := h
      exact ⟨hσ, trivial⟩
  | .char, σ, σ₁, ty, hσ, h => by
      simp only [CType.meaning, Option.some.injEq, Prod.mk.injEq] at h
      obtain ⟨rfl, rfl⟩ := h
      exact ⟨hσ, trivial⟩
  | .named name, σ, σ₁, ty, hσ, h => by
      simp only [CType.meaning, Scope.findTypedef, Option.map_eq_some_iff, Prod.mk.injEq] at h
      obtain ⟨_, ⟨d, hd, rfl⟩, rfl, rfl⟩ := h
      exact ⟨hσ, hσ.typedefs d (List.mem_of_find?_eq_some hd)⟩
  | .structRef tag, σ, σ₁, ty, hσ, h => by
      simp only [CType.meaning, Scope.findStruct, Option.map_eq_some_iff, Prod.mk.injEq] at h
      obtain ⟨_, ⟨d, hd, rfl⟩, rfl, rfl⟩ := h
      exact ⟨hσ, hσ.tags d (List.mem_of_find?_eq_some hd)⟩
  | .structDef tag ms, σ, σ₁, ty, hσ, h => by
      simp only [CType.meaning, Option.map_eq_some_iff, Prod.mk.injEq] at h
      obtain ⟨⟨r, σ'⟩, hms, rfl, rfl⟩ := h
      obtain ⟨hσ', hr⟩ := ms.closed (hσ.openStruct tag) (fun _ hm => absurd hm List.not_mem_nil) hms
      exact ⟨hσ'.closeStruct σ.ntypes hr, lt_of_lt_of_le (Nat.lt_succ_self _) (ms.grows hms).ntypes⟩
  | .star t, σ, σ₁, ty, hσ, h => by
      simp only [CType.meaning, Option.map_eq_some_iff, Prod.mk.injEq] at h
      obtain ⟨⟨u, σ'⟩, ht, rfl, rfl⟩ := h
      have hclosed := t.closed hσ ht
      exact ⟨hclosed.1, hclosed.2⟩

theorem CMembers.closed : ∀ (ms : CMembers) {σ σ₁ : Scope} {off : ℤ} {before : List Member}
    {r : ℤ × List Member}, σ.Closed → (∀ m ∈ before, m.ty.Known σ.ntypes) →
    ms.meaning σ off before = some (r, σ₁) → σ₁.Closed ∧ ∀ m ∈ r.2, m.ty.Known σ₁.ntypes
  | .nil, σ, σ₁, off, before, r, hσ, hb, h => by
      simp only [CMembers.meaning, Option.some.injEq, Prod.mk.injEq] at h
      obtain ⟨rfl, rfl⟩ := h
      exact ⟨hσ, hb⟩
  | .cons t name len ms, σ, σ₁, off, before, r, hσ, hb, h => by
      simp only [CMembers.meaning, Option.bind_eq_some_iff] at h
      obtain ⟨⟨ty, σ'⟩, ht, hms⟩ := h
      obtain ⟨hσ', hty⟩ := t.closed hσ ht
      refine ms.closed hσ' (fun m hm => ?_) hms
      obtain hm | hm := List.mem_append.mp hm
      · exact (hb m hm).mono (t.grows ht).ntypes
      · obtain rfl := List.mem_singleton.mp hm
        exact known_withLen hty _ len

end

end Known

section Typed

def Args.toList : Args → List Expr
  | .nil => []
  | .cons e args => e :: args.toList

/-- The types of the nodes follow from the types of their operands. -/
inductive Typed (σ : Scope) : Expr → Prop
  | num (v : Word) : Typed σ (.num v)
  | str (a : Word) : Typed σ (.str a)
  | var {v : Var} (h : σ.findVar v.name = some v) : Typed σ (.var v)
  | op {o : COp} {l r t : Expr} (hl : Typed σ l) (hr : Typed σ r) (ht : σ.apply o l r = some t) :
      Typed σ t
  | not {e : Expr} (he : Typed σ e) : Typed σ (.not e)
  | neg {e : Expr} (he : Typed σ e) : Typed σ (.neg e)
  | assign {l r : Expr} (hl : Typed σ l) (hr : Typed σ r) : Typed σ (.assign l r l.ty)
  | addr {e : Expr} (he : Typed σ e) : Typed σ (.addr e (.ptr e.ty))
  | deref {e : Expr} {b : Ty} (he : Typed σ e) (hb : e.ty.base = some b) : Typed σ (.deref e b)
  /-- `l[r]` of two integers -/
  | element {l r : Expr} (hl : Typed σ l) (hr : Typed σ r) (hl' : l.ty.base = none)
      (hr' : r.ty.base = none) : Typed σ (.deref (.binary .add l r .int) .int)
  | member {e : Expr} {name : String} {m : Member} (he : Typed σ e)
      (hm : σ.findMember e.ty name = some m) : Typed σ (.member e m.offset m.ty)
  | funcall {name : String} {args : Args} (h : ∀ a ∈ args.toList, Typed σ a) :
      Typed σ (.funcall name args)

variable {σ σ₁ : Scope} {t l r : Expr} {o : COp}

theorem Scope.sum_typed (h : σ.sum l r = some t) :
    l.ty.base = none ∧ r.ty.base = none ∧ t = .binary .add l r .int ∨
    (∃ b, l.ty.base = some b ∧ r.ty.base = none ∧ t = .binary .add l (σ.scaled r b) (.ptr b)) ∨
    ∃ b, l.ty.base = none ∧ r.ty.base = some b ∧ t = .binary .add r (σ.scaled l b) (.ptr b) := by
  unfold Scope.sum at h
  cases hl : l.ty.base <;> cases hr : r.ty.base <;> rw [hl, hr] at h <;> simp_all

theorem Scope.difference_typed (h : σ.difference l r = some t) :
    l.ty.base = none ∧ r.ty.base = none ∧ t = .binary .sub l r .int ∨
    (∃ b, l.ty.base = some b ∧ r.ty.base = none ∧ t = .binary .sub l (σ.scaled r b) (.ptr b)) ∨
    ∃ b b', l.ty.base = some b ∧ r.ty.base = some b' ∧
      t = .binary .div (.binary .sub l r .int) (σ.unit b) .int := by
  unfold Scope.difference at h
  cases hl : l.ty.base <;> cases hr : r.ty.base <;> rw [hl, hr] at h <;> simp_all

/-- The type of a result is an integer, or a pointer to what an operand points to. -/
theorem Scope.apply_ty (h : σ.apply o l r = some t) :
    t.ty = .int ∨ ∃ b, t.ty = .ptr b ∧ (l.ty.base = some b ∨ r.ty.base = some b) := by
  cases o with
  | add =>
    obtain ⟨-, -, rfl⟩ | ⟨b, hb, -, rfl⟩ | ⟨b, -, hb, rfl⟩ := Scope.sum_typed h
    · exact Or.inl rfl
    · exact Or.inr ⟨b, rfl, Or.inl hb⟩
    · exact Or.inr ⟨b, rfl, Or.inr hb⟩
  | sub =>
    obtain ⟨-, -, rfl⟩ | ⟨b, hb, -, rfl⟩ | ⟨b, -, -, -, rfl⟩ := Scope.difference_typed h
    · exact Or.inl rfl
    · exact Or.inr ⟨b, rfl, Or.inl hb⟩
    · exact Or.inl rfl
  | or => exact Or.inl (by rw [← Option.some.inj h]; rfl)
  | and => exact Or.inl (by rw [← Option.some.inj h]; rfl)
  | eq => exact Or.inl (by rw [← Option.some.inj h]; rfl)
  | ne => exact Or.inl (by rw [← Option.some.inj h]; rfl)
  | lt => exact Or.inl (by rw [← Option.some.inj h]; rfl)
  | le => exact Or.inl (by rw [← Option.some.inj h]; rfl)
  | gt => exact Or.inl (by rw [← Option.some.inj h]; rfl)
  | ge => exact Or.inl (by rw [← Option.some.inj h]; rfl)
  | mul => exact Or.inl (by rw [← Option.some.inj h]; rfl)
  | div => exact Or.inl (by rw [← Option.some.inj h]; rfl)
  | mod => exact Or.inl (by rw [← Option.some.inj h]; rfl)

theorem Typed.known (hσ : σ.Closed) (h : Typed σ t) : t.ty.Known σ.ntypes := by
  induction h with
  | num v => exact trivial
  | str a => exact trivial
  | var h => exact hσ.findVar h
  | op _ _ ht ihl ihr =>
    obtain hty | ⟨b, hty, hb | hb⟩ := Scope.apply_ty ht
    · rw [hty]
      exact trivial
    · have hknown : b.Known σ.ntypes := ihl.base hb
      rw [hty]
      exact hknown
    · have hknown : b.Known σ.ntypes := ihr.base hb
      rw [hty]
      exact hknown
  | not _ _ => exact trivial
  | neg _ _ => exact trivial
  | assign _ _ ihl _ => exact ihl
  | addr _ ih => exact ih
  | deref _ hb ih => exact ih.base hb
  | element _ _ _ _ _ _ => exact trivial
  | member _ hm ih => exact hσ.findMember ih hm
  | funcall _ _ => exact trivial

theorem Scope.Grows.apply (h : σ.Grows σ₁) (hl : l.ty.Known σ.ntypes) (hr : r.ty.Known σ.ntypes) :
    σ₁.apply o l r = σ.apply o l r := by
  have hunit {b : Ty} (hb : b.Known σ.ntypes) : σ₁.unit b = σ.unit b := by
    rw [Scope.unit, Scope.unit, h.size hb]
  cases o with
  | add =>
    simp only [Scope.apply, Scope.sum, Scope.scaled]
    cases hlb : l.ty.base <;> cases hrb : r.ty.base <;> simp only
    · rw [hunit (hr.base hrb)]
    · rw [hunit (hl.base hlb)]
  | sub =>
    simp only [Scope.apply, Scope.difference, Scope.scaled]
    cases hlb : l.ty.base <;> cases hrb : r.ty.base <;> simp only
    · rw [hunit (hl.base hlb)]
    · rw [hunit (hl.base hlb)]
  | or => rfl
  | and => rfl
  | eq => rfl
  | ne => rfl
  | lt => rfl
  | le => rfl
  | gt => rfl
  | ge => rfl
  | mul => rfl
  | div => rfl
  | mod => rfl

/-- A tree stays well typed in a later scope. -/
theorem Typed.grows (hσ : σ.Closed) (hg : σ.Grows σ₁) (h : Typed σ t) : Typed σ₁ t := by
  induction h with
  | num v => exact .num v
  | str a => exact .str a
  | var h => exact .var ((hg.findVar _).trans h)
  | op hl hr ht ihl ihr =>
    exact .op ihl ihr ((hg.apply (hl.known hσ) (hr.known hσ)).trans ht)
  | not _ ih => exact .not ih
  | neg _ ih => exact .neg ih
  | assign _ _ ihl ihr => exact .assign ihl ihr
  | addr _ ih => exact .addr ih
  | deref _ hb ih => exact .deref ih hb
  | element _ _ hl hr ihl ihr => exact .element ihl ihr hl hr
  | member he hm ih => exact .member ih ((hg.findMember _ (he.known hσ)).trans hm)
  | funcall _ ih => exact .funcall ih

mutual

/-- In a closed scope, the meaning of an expression is a well-typed tree. -/
theorem CExpr.typed : ∀ (e : CExpr) {σ σ₁ : Scope} {t : Expr}, σ.Closed →
    e.meaning σ = some (t, σ₁) → σ₁.Closed ∧ Typed σ₁ t
  | .num v, σ, σ₁, t, hσ, h => by
      simp only [CExpr.meaning, Option.some.injEq, Prod.mk.injEq] at h
      obtain ⟨rfl, rfl⟩ := h
      exact ⟨hσ, .num v⟩
  | .str a, σ, σ₁, t, hσ, h => by
      simp only [CExpr.meaning, Option.some.injEq, Prod.mk.injEq] at h
      obtain ⟨rfl, rfl⟩ := h
      exact ⟨hσ, .str a⟩
  | .ident name, σ, σ₁, t, hσ, h => by
      simp only [CExpr.meaning, Option.map_eq_some_iff, Prod.mk.injEq] at h
      obtain ⟨v, hv, rfl, rfl⟩ := h
      exact ⟨hσ, .var (by rw [Scope.findVar_name hv, hv])⟩
  | .call name args, σ, σ₁, t, hσ, h => by
      simp only [CExpr.meaning, Option.map_eq_some_iff, Prod.mk.injEq] at h
      obtain ⟨⟨as, σ'⟩, ha, rfl, rfl⟩ := h
      exact ⟨(args.typed hσ ha).1, .funcall (args.typed hσ ha).2⟩
  | .paren e, σ, σ₁, t, hσ, h => e.typed hσ h
  | .index e i, σ, σ₁, t, hσ, h => by
      simp only [CExpr.meaning, Option.bind_eq_some_iff, Option.map_eq_some_iff,
        Prod.mk.injEq] at h
      obtain ⟨⟨l, σl⟩, hl, ⟨r, σr⟩, hr, u, hu, rfl, rfl⟩ := h
      obtain ⟨hσl, hlt⟩ := e.typed hσ hl
      obtain ⟨hσr, hrt⟩ := i.typed hσl hr
      have hlt := hlt.grows hσl (i.grows hr)
      refine ⟨hσr, ?_⟩
      obtain ⟨hlb, hrb, rfl⟩ | ⟨b, -, -, rfl⟩ | ⟨b, -, -, rfl⟩ := Scope.sum_typed hu
      · exact .element hlt hrt hlb hrb
      · exact .deref (.op (o := .add) hlt hrt hu) rfl
      · exact .deref (.op (o := .add) hlt hrt hu) rfl
  | .dot e name, σ, σ₁, t, hσ, h => by
      simp only [CExpr.meaning, Option.bind_eq_some_iff, Option.map_eq_some_iff,
        Prod.mk.injEq] at h
      obtain ⟨⟨l, σl⟩, hl, mem, hm, rfl, rfl⟩ := h
      exact ⟨(e.typed hσ hl).1, .member (e.typed hσ hl).2 hm⟩
  | .arrow e name, σ, σ₁, t, hσ, h => by
      simp only [CExpr.meaning, Option.bind_eq_some_iff, Option.map_eq_some_iff,
        Prod.mk.injEq] at h
      obtain ⟨⟨l, σl⟩, hl, st, hst, mem, hm, rfl, rfl⟩ := h
      have hptr : l.ty.base = some st := by
        cases hty : l.ty <;> rw [hty] at hst <;> cases hst
        rfl
      exact ⟨(e.typed hσ hl).1, .member (.deref (e.typed hσ hl).2 hptr) hm⟩
  | .sizeofType ty, σ, σ₁, t, hσ, h => by
      simp only [CExpr.meaning, Option.map_eq_some_iff, Prod.mk.injEq] at h
      obtain ⟨⟨u, σ'⟩, hu, rfl, rfl⟩ := h
      exact ⟨(ty.closed hσ hu).1, .num _⟩
  | .sizeofExpr e, σ, σ₁, t, hσ, h => by
      simp only [CExpr.meaning, Option.map_eq_some_iff, Prod.mk.injEq] at h
      obtain ⟨⟨u, σ'⟩, hu, rfl, rfl⟩ := h
      exact ⟨(e.typed hσ hu).1, .num _⟩
  | .plus e, σ, σ₁, t, hσ, h => e.typed hσ h
  | .neg e, σ, σ₁, t, hσ, h => by
      simp only [CExpr.meaning, Option.map_eq_some_iff, Prod.mk.injEq] at h
      obtain ⟨⟨u, σ'⟩, hu, rfl, rfl⟩ := h
      exact ⟨(e.typed hσ hu).1, .neg (e.typed hσ hu).2⟩
  | .not e, σ, σ₁, t, hσ, h => by
      simp only [CExpr.meaning, Option.map_eq_some_iff, Prod.mk.injEq] at h
      obtain ⟨⟨u, σ'⟩, hu, rfl, rfl⟩ := h
      exact ⟨(e.typed hσ hu).1, .not (e.typed hσ hu).2⟩
  | .star e, σ, σ₁, t, hσ, h => by
      simp only [CExpr.meaning, Option.bind_eq_some_iff, Option.map_eq_some_iff,
        Prod.mk.injEq] at h
      obtain ⟨⟨u, σ'⟩, hu, b, hb, rfl, rfl⟩ := h
      exact ⟨(e.typed hσ hu).1, .deref (e.typed hσ hu).2 hb⟩
  | .amp e, σ, σ₁, t, hσ, h => by
      simp only [CExpr.meaning, Option.map_eq_some_iff, Prod.mk.injEq] at h
      obtain ⟨⟨u, σ'⟩, hu, rfl, rfl⟩ := h
      exact ⟨(e.typed hσ hu).1, .addr (e.typed hσ hu).2⟩
  | .binary o l r, σ, σ₁, t, hσ, h => by
      simp only [CExpr.meaning, Option.bind_eq_some_iff, Option.map_eq_some_iff,
        Prod.mk.injEq] at h
      obtain ⟨⟨x, σx⟩, hx, ⟨y, σy⟩, hy, u, hu, rfl, rfl⟩ := h
      obtain ⟨hσx, hxt⟩ := l.typed hσ hx
      obtain ⟨hσy, hyt⟩ := r.typed hσx hy
      exact ⟨hσy, .op (hxt.grows hσx (r.grows hy)) hyt hu⟩
  | .assign l r, σ, σ₁, t, hσ, h => by
      simp only [CExpr.meaning, Option.bind_eq_some_iff, Option.map_eq_some_iff,
        Prod.mk.injEq] at h
      obtain ⟨⟨x, σx⟩, hx, ⟨y, σy⟩, hy, rfl, rfl⟩ := h
      obtain ⟨hσx, hxt⟩ := l.typed hσ hx
      obtain ⟨hσy, hyt⟩ := r.typed hσx hy
      exact ⟨hσy, .assign (hxt.grows hσx (r.grows hy)) hyt⟩

theorem CArgs.typed : ∀ (args : CArgs) {σ σ₁ : Scope} {as : Args}, σ.Closed →
    args.meaning σ = some (as, σ₁) → σ₁.Closed ∧ ∀ a ∈ as.toList, Typed σ₁ a
  | .nil, σ, σ₁, as, hσ, h => by
      simp only [CArgs.meaning, Option.some.injEq, Prod.mk.injEq] at h
      obtain ⟨rfl, rfl⟩ := h
      exact ⟨hσ, fun _ ha => absurd ha List.not_mem_nil⟩
  | .cons e args, σ, σ₁, as, hσ, h => by
      simp only [CArgs.meaning, Option.bind_eq_some_iff, Option.map_eq_some_iff,
        Prod.mk.injEq] at h
      obtain ⟨⟨x, σx⟩, hx, ⟨as', σ'⟩, ha, rfl, rfl⟩ := h
      obtain ⟨hσx, hxt⟩ := e.typed hσ hx
      obtain ⟨hσ', hat⟩ := args.typed hσx ha
      refine ⟨hσ', List.forall_mem_cons.mpr ⟨hxt.grows hσx (args.grows ha), hat⟩⟩

end

end Typed

section Print

/-- The operand on the left of a printed operator. -/
def CExpr.firstOperand : CExpr → CExpr
  | .binary _ (.paren x) _ => x
  | e => e

/-- The element that a printed sum is the address of. -/
def CExpr.element : CExpr → CExpr
  | .binary _ (.paren x) (.paren y) => .index (.paren x) (.paren y)
  | e => .star (.paren e)

/-- The distance in bytes of two pointers, which only a division by a size is made of. -/
def Expr.isDistance : Expr → Bool
  | .binary .sub l r _ => l.ty.isPtrlike && r.ty.isPtrlike
  | _ => false

/-- A printed operator; what counts elements is printed without the size of an element. -/
def printBinary (k : BinKind) (l : Expr) (ty : Ty) (pl pr : CExpr) : CExpr :=
  let scaled := if ty.isPtrlike then pr.firstOperand else pr
  match k with
  | .add => .binary .add (.paren pl) (.paren scaled)
  | .sub => .binary .sub (.paren pl) (.paren scaled)
  | .mul => .binary .mul (.paren pl) (.paren pr)
  | .div => if l.isDistance then pl else .binary .div (.paren pl) (.paren pr)
  | .mod => .binary .mod (.paren pl) (.paren pr)
  | .eq => .binary .eq (.paren pl) (.paren pr)
  | .ne => .binary .ne (.paren pl) (.paren pr)
  | .lt => .binary .lt (.paren pl) (.paren pr)
  | .le => .binary .le (.paren pl) (.paren pr)
  | .logand => .binary .and (.paren pl) (.paren pr)
  | .logor => .binary .or (.paren pl) (.paren pr)

/-- A name for the member of a struct at some offset. -/
def Scope.memberName (σ : Scope) (t : Ty) (off : ℤ) (ty : Ty) : String :=
  let ms := match t with
    | .struct id => (σ.types id).members
    | _ => []
  let found := ms.find? fun m =>
    (σ.findMember t m.name).any fun m' => decide (m'.offset = off ∧ m'.ty = ty)
  (found.map fun m => m.name).getD ""

mutual

/-- A tree printed with all operands in parentheses. -/
def Expr.print (σ : Scope) : Expr → CExpr
  | .num v => .num v
  | .str a => .str a
  | .var v => .ident v.name
  | .binary k l r ty => printBinary k l ty (l.print σ) (r.print σ)
  | .not e => .not (.paren (e.print σ))
  | .neg e => .neg (.paren (e.print σ))
  | .assign l r _ => .assign (.paren (l.print σ)) (.paren (r.print σ))
  | .addr e _ => .amp (.paren (e.print σ))
  | .deref e _ => if e.ty.isPtrlike then .star (.paren (e.print σ)) else (e.print σ).element
  | .member e off ty => .dot (.paren (e.print σ)) (σ.memberName e.ty off ty)
  | .funcall name args => .call name (args.print σ)

def Args.print (σ : Scope) : Args → CArgs
  | .nil => .nil
  | .cons e args => .cons (e.print σ) (args.print σ)

end

variable {σ σ₁ : Scope} {t l r : Expr} {o : COp}

theorem CExpr.fits_firstOperand {e : CExpr} (h : e.fits σ = true) :
    e.firstOperand.fits σ = true := by
  unfold firstOperand
  split
  · simp only [fits, Bool.and_eq_true] at h
    exact h.1.1.1
  · exact h

theorem CExpr.fits_element {e : CExpr} (h : e.fits σ = true) : e.element.fits σ = true := by
  unfold element
  split
  · simp only [fits, Bool.and_eq_true, decide_eq_true_eq] at h ⊢
    exact ⟨⟨h.1.1.1, h.1.1.2⟩, by simp [level]⟩
  · simpa [fits, level] using h

theorem fits_printBinary {k : BinKind} {ty : Ty} {pl pr : CExpr} (hl : pl.fits σ = true)
    (hr : pr.fits σ = true) : (printBinary k l ty pl pr).fits σ = true := by
  have hscaled : (if ty.isPtrlike then pr.firstOperand else pr).fits σ = true := by
    split_ifs
    · exact CExpr.fits_firstOperand hr
    · exact hr
  have hop (o : COp) {x y : CExpr} (hx : x.fits σ = true) (hy : y.fits σ = true) :
      (CExpr.binary o (.paren x) (.paren y)).fits σ = true := by
    have hlevel := o.level_le
    have hl' : o.level ≤ 10 := by omega
    have hr' : o.level < 10 := by omega
    simp [CExpr.fits, CExpr.level, hx, hy, hl', hr']
  cases k with
  | add => exact hop .add hl hscaled
  | sub => exact hop .sub hl hscaled
  | mul => exact hop .mul hl hr
  | div =>
    simp only [printBinary]
    split_ifs
    · exact hl
    · exact hop .div hl hr
  | mod => exact hop .mod hl hr
  | eq => exact hop .eq hl hr
  | ne => exact hop .ne hl hr
  | lt => exact hop .lt hl hr
  | le => exact hop .le hl hr
  | logand => exact hop .and hl hr
  | logor => exact hop .or hl hr

mutual

theorem Expr.print_fits (σ : Scope) : ∀ t : Expr, (t.print σ).fits σ = true
  | .num _ => rfl
  | .str _ => rfl
  | .var _ => rfl
  | .binary k l r ty => by
      rw [Expr.print]
      exact fits_printBinary (l.print_fits σ) (r.print_fits σ)
  | .not e => by simp [Expr.print, CExpr.fits, CExpr.level, e.print_fits σ]
  | .neg e => by simp [Expr.print, CExpr.fits, CExpr.level, e.print_fits σ]
  | .assign l r _ => by
      simp [Expr.print, CExpr.fits, CExpr.level, l.print_fits σ, r.print_fits σ]
  | .addr e _ => by simp [Expr.print, CExpr.fits, CExpr.level, e.print_fits σ]
  | .deref e _ => by
      rw [Expr.print]
      split_ifs
      · simp [CExpr.fits, CExpr.level, e.print_fits σ]
      · exact CExpr.fits_element (e.print_fits σ)
  | .member e _ _ => by simp [Expr.print, CExpr.fits, CExpr.level, e.print_fits σ]
  | .funcall _ args => by simp [Expr.print, CExpr.fits, args.print_fits σ]

theorem Args.print_fits (σ : Scope) : ∀ args : Args, (args.print σ).fits σ = true
  | .nil => rfl
  | .cons e args => by simp [Args.print, CArgs.fits, e.print_fits σ, args.print_fits σ]

end

/-- A well-typed tree is no bare distance of pointers. -/
theorem Typed.isDistance (h : Typed σ t) : t.isDistance = false := by
  cases h with
  | op hl hr ht =>
    rename_i o l r
    cases o with
    | add => obtain ⟨-, -, rfl⟩ | ⟨b, -, -, rfl⟩ | ⟨b, -, -, rfl⟩ := Scope.sum_typed ht <;> rfl
    | sub =>
      obtain ⟨hlb, -, rfl⟩ | ⟨b, -, -, rfl⟩ | ⟨b, b', -, -, rfl⟩ := Scope.difference_typed ht
      · simp [Expr.isDistance, isPtrlike_iff, hlb]
      · simp [Expr.isDistance, isPtrlike_iff, Scope.scaled, Expr.ty, Ty.base]
      · rfl
    | or => rw [← Option.some.inj ht]; rfl
    | and => rw [← Option.some.inj ht]; rfl
    | eq => rw [← Option.some.inj ht]; rfl
    | ne => rw [← Option.some.inj ht]; rfl
    | lt => rw [← Option.some.inj ht]; rfl
    | le => rw [← Option.some.inj ht]; rfl
    | gt => rw [← Option.some.inj ht]; rfl
    | ge => rw [← Option.some.inj ht]; rfl
    | mul => rw [← Option.some.inj ht]; rfl
    | div => rw [← Option.some.inj ht]; rfl
    | mod => rw [← Option.some.inj ht]; rfl
  | num v => rfl
  | str a => rfl
  | var h => rfl
  | not he => rfl
  | neg he => rfl
  | assign hl hr => rfl
  | addr he => rfl
  | deref he hb => rfl
  | element hl hr hl' hr' => rfl
  | member he hm => rfl
  | funcall h => rfl

/-- A printed operator means what the operator makes of its operands. -/
theorem meaning_binary {x y : CExpr} (hx : x.meaning σ = some (l, σ))
    (hy : y.meaning σ = some (r, σ)) (ht : σ.apply o l r = some t) :
    (CExpr.binary o (.paren x) (.paren y)).meaning σ = some (t, σ) := by
  simp only [CExpr.meaning, hx, hy, ht, Option.bind_some, Option.map_some]

theorem meaning_print_op (hl : Typed σ l) (ht : σ.apply o l r = some t)
    (ihl : (l.print σ).meaning σ = some (l, σ)) (ihr : (r.print σ).meaning σ = some (r, σ)) :
    (t.print σ).meaning σ = some (t, σ) := by
  cases o with
  | add =>
    obtain ⟨-, -, rfl⟩ | ⟨b, hlb, hrb, rfl⟩ | ⟨b, hlb, hrb, rfl⟩ := Scope.sum_typed ht
    · exact meaning_binary (o := .add) ihl ihr ht
    · exact meaning_binary (o := .add) ihl ihr ht
    · refine meaning_binary (o := .add) ihr ihl ?_
      simp only [Scope.apply, Scope.sum, hlb, hrb]
  | sub =>
    obtain ⟨-, -, rfl⟩ | ⟨b, hlb, hrb, rfl⟩ | ⟨b, b', hlb, hrb, rfl⟩ := Scope.difference_typed ht
    · exact meaning_binary (o := .sub) ihl ihr ht
    · exact meaning_binary (o := .sub) ihl ihr ht
    · have hdistance : (Expr.binary .sub l r .int).isDistance = true := by
        simp [Expr.isDistance, isPtrlike_iff, hlb, hrb]
      rw [Expr.print, printBinary, if_pos hdistance]
      exact meaning_binary (o := .sub) ihl ihr ht
  | div =>
    obtain rfl := Option.some.inj ht
    rw [Expr.print, printBinary, hl.isDistance]
    exact meaning_binary (o := .div) ihl ihr rfl
  | or => obtain rfl := Option.some.inj ht; exact meaning_binary (o := .or) ihl ihr rfl
  | and => obtain rfl := Option.some.inj ht; exact meaning_binary (o := .and) ihl ihr rfl
  | eq => obtain rfl := Option.some.inj ht; exact meaning_binary (o := .eq) ihl ihr rfl
  | ne => obtain rfl := Option.some.inj ht; exact meaning_binary (o := .ne) ihl ihr rfl
  | lt => obtain rfl := Option.some.inj ht; exact meaning_binary (o := .lt) ihl ihr rfl
  | le => obtain rfl := Option.some.inj ht; exact meaning_binary (o := .le) ihl ihr rfl
  | gt => obtain rfl := Option.some.inj ht; exact meaning_binary (o := .lt) ihr ihl rfl
  | ge => obtain rfl := Option.some.inj ht; exact meaning_binary (o := .le) ihr ihl rfl
  | mul => obtain rfl := Option.some.inj ht; exact meaning_binary (o := .mul) ihl ihr rfl
  | mod => obtain rfl := Option.some.inj ht; exact meaning_binary (o := .mod) ihl ihr rfl

/-- The name that is printed for a member finds a member of the same place and type. -/
theorem Scope.findMember_memberName {ty : Ty} {name : String} {m : Member}
    (h : σ.findMember ty name = some m) :
    ∃ m', σ.findMember ty (σ.memberName ty m.offset m.ty) = some m' ∧ m'.offset = m.offset ∧
      m'.ty = m.ty := by
  cases ty with
  | int => cases h
  | char => cases h
  | ptr b => cases h
  | array b len size => cases h
  | struct id =>
    have hmem : m ∈ (σ.types id).members := List.mem_of_find?_eq_some h
    have hname : m.name = name := by simpa using List.find?_some h
    have hself : ((σ.findMember (.struct id) m.name).any
        fun m' => decide (m'.offset = m.offset ∧ m'.ty = m.ty)) = true := by
      rw [hname, h]
      simp
    cases hfind : (σ.types id).members.find? fun x => (σ.findMember (.struct id) x.name).any
        fun m' => decide (m'.offset = m.offset ∧ m'.ty = m.ty) with
    | none => exact absurd hself (List.find?_eq_none.mp hfind m hmem)
    | some x =>
      have hx := List.find?_some hfind
      obtain ⟨m', hm', hsame⟩ := Option.any_eq_true _ _ |>.mp hx
      have hprinted : σ.memberName (.struct id) m.offset m.ty = x.name := by
        simp only [Scope.memberName, hfind, Option.map_some, Option.getD_some]
      rw [hprinted]
      exact ⟨m', hm', by simpa using hsame⟩

theorem Args.meaning_print : ∀ {args : Args},
    (∀ a ∈ args.toList, (a.print σ).meaning σ = some (a, σ)) →
    (args.print σ).meaning σ = some (args, σ)
  | .nil, _ => rfl
  | .cons e args, h => by
      rw [Args.toList, List.forall_mem_cons] at h
      simp only [Args.print, CArgs.meaning, h.1, Args.meaning_print h.2, Option.bind_some,
        Option.map_some]

/-- A well-typed tree is the meaning of what is printed for it. -/
theorem Typed.meaning_print (h : Typed σ t) : (t.print σ).meaning σ = some (t, σ) := by
  induction h with
  | num v => rfl
  | str a => rfl
  | var h => simp only [Expr.print, CExpr.meaning, h, Option.map_some]
  | op hl hr ht ihl ihr => exact meaning_print_op hl ht ihl ihr
  | not _ ih => simp only [Expr.print, CExpr.meaning, ih, Option.map_some]
  | neg _ ih => simp only [Expr.print, CExpr.meaning, ih, Option.map_some]
  | assign _ _ ihl ihr =>
    simp only [Expr.print, CExpr.meaning, ihl, ihr, Option.bind_some, Option.map_some]
  | addr _ ih => simp only [Expr.print, CExpr.meaning, ih, Option.map_some]
  | deref _ hb ih =>
    simp only [Expr.print, isPtrlike_iff, hb, Option.isSome_some, if_true, CExpr.meaning, ih,
      Option.bind_some, Option.map_some]
  | element _ _ hl hr ihl ihr =>
    rename_i l r _ _
    have hsum : σ.sum l r = some (.binary .add l r .int) := by simp only [Scope.sum, hl, hr]
    have hprint : (Expr.deref (.binary .add l r .int) .int).print σ =
        .index (.paren (l.print σ)) (.paren (r.print σ)) := rfl
    simp only [hprint, CExpr.meaning, ihl, ihr, Option.bind_some, hsum, Option.map_some]
    rfl
  | member _ hm ih =>
    obtain ⟨m', hm', hoff, hty⟩ := Scope.findMember_memberName hm
    simp only [Expr.print, CExpr.meaning, ih, Option.bind_some, hm', Option.map_some, hoff, hty]
  | funcall _ ih => simp only [Expr.print, CExpr.meaning, Args.meaning_print ih, Option.map_some]

end Print

section Declarations

/-- The scope in which the parser starts. -/
def Scope.start : Scope where
  curLocals := []
  globals := []
  tags := []
  typedefs := []
  types := fun _ => { members := [], size := 0 }
  ntypes := 0

/-- The scopes that declarations build: each names a type, and may declare something of the
type. A function begins with no local variables. -/
inductive Scope.Declared : Scope → Prop
  | start : Scope.start.Declared
  | type {σ σ₁ : Scope} {t : CType} {ty : Ty} (h : σ.Declared)
      (ht : t.meaning σ = some (ty, σ₁)) : σ₁.Declared
  | typedef {σ σ₁ : Scope} {t : CType} {ty : Ty} (name : String) (h : σ.Declared)
      (ht : t.meaning σ = some (ty, σ₁)) :
      Scope.Declared { σ₁ with typedefs := (name, ty) :: σ₁.typedefs }
  | local_ {σ σ₁ : Scope} {t : CType} {ty : Ty} (name : String) (len : Option Word) (p : ℕ)
      (h : σ.Declared) (ht : t.meaning σ = some (ty, σ₁)) :
      Scope.Declared { σ₁ with curLocals :=
        { name := name, ty := withLen σ₁ ty len, place := .frame p } :: σ₁.curLocals }
  | global {σ σ₁ : Scope} {t : CType} {ty : Ty} (name : String) (len : Option Word) (p : ℕ)
      (h : σ.Declared) (ht : t.meaning σ = some (ty, σ₁)) :
      Scope.Declared { σ₁ with globals :=
        { name := name, ty := withLen σ₁ ty len, place := .global p } :: σ₁.globals }
  | function {σ : Scope} (h : σ.Declared) : Scope.Declared { σ with curLocals := [] }
  | expression {σ σ₁ : Scope} {e : CExpr} {t : Expr} (h : σ.Declared)
      (he : e.meaning σ = some (t, σ₁)) : σ₁.Declared

variable {σ : Scope}

theorem Scope.Closed.typedef (h : σ.Closed) {name : String} {t : Ty} (ht : t.Known σ.ntypes) :
    Scope.Closed { σ with typedefs := (name, t) :: σ.typedefs } :=
  ⟨h.curLocals, h.globals, List.forall_mem_cons.mpr ⟨ht, h.typedefs⟩, h.tags, h.members⟩

theorem Scope.Closed.local_ (h : σ.Closed) {v : Var} (hv : v.ty.Known σ.ntypes) :
    Scope.Closed { σ with curLocals := v :: σ.curLocals } :=
  ⟨List.forall_mem_cons.mpr ⟨hv, h.curLocals⟩, h.globals, h.typedefs, h.tags, h.members⟩

theorem Scope.Closed.global (h : σ.Closed) {v : Var} (hv : v.ty.Known σ.ntypes) :
    Scope.Closed { σ with globals := v :: σ.globals } :=
  ⟨h.curLocals, List.forall_mem_cons.mpr ⟨hv, h.globals⟩, h.typedefs, h.tags, h.members⟩

theorem Scope.start_closed : Scope.start.Closed where
  curLocals _ hv := absurd hv List.not_mem_nil
  globals _ hv := absurd hv List.not_mem_nil
  typedefs _ hd := absurd hd List.not_mem_nil
  tags _ hd := absurd hd List.not_mem_nil
  members id hid := absurd hid (Nat.not_lt_zero id)

/-- Declarations only mention structs that exist. -/
theorem Scope.Declared.closed (h : σ.Declared) : σ.Closed := by
  induction h with
  | start => exact Scope.start_closed
  | type _ ht ih => exact (CType.closed _ ih ht).1
  | typedef name _ ht ih =>
    obtain ⟨hclosed, hknown⟩ := CType.closed _ ih ht
    exact hclosed.typedef hknown
  | local_ name len p _ ht ih =>
    obtain ⟨hclosed, hknown⟩ := CType.closed _ ih ht
    exact hclosed.local_ (known_withLen hknown _ len)
  | global name len p _ ht ih =>
    obtain ⟨hclosed, hknown⟩ := CType.closed _ ih ht
    exact hclosed.global (known_withLen hknown _ len)
  | function _ ih =>
    exact ⟨fun v hv => absurd hv List.not_mem_nil, ih.globals, ih.typedefs, ih.tags, ih.members⟩
  | expression _ he ih => exact (CExpr.typed _ ih he).1

end Declarations

/-- The expression parser reads each expression of the grammar as its meaning, and what is
printed for the meaning is an expression of the grammar that is read as the same tree. -/
theorem assign_implements_grammar {σ σ₁ : Scope} {e : CExpr} {t : Expr} (hσ : σ.Declared)
    (hfits : e.fits σ = true) (hmeaning : e.meaning σ = some (t, σ₁)) :
    (∀ n T, e.tokens.length + 3 ≤ n → Stops 1 T →
      Yields (assign n) σ (e.tokens ++ T) t σ₁ T) ∧
    (t.print σ₁).fits σ₁ = true ∧
    ∀ n T, (t.print σ₁).tokens.length + 3 ≤ n → Stops 1 T →
      Yields (assign n) σ₁ ((t.print σ₁).tokens ++ T) t σ₁ T := by
  have htyped := (e.typed hσ.closed hmeaning).2
  refine ⟨(e.parsed hfits hmeaning).assign, t.print_fits σ₁, ?_⟩
  exact ((t.print σ₁).parsed (t.print_fits σ₁) htyped.meaning_print).assign

/-- `p + 1 > 0` for a pointer `p`, up to a semicolon. -/
theorem assign_implements_grammar_pointer :
    Yields (assign 8)
      { Scope.start with curLocals := [{ name := "p", ty := .ptr .int, place := .frame 0 }] }
      [.ident "p", .punct "+", .num 1, .punct ">", .num 0, .punct ";"]
      (.binary .lt (.num 0) (.binary .add
        (.var { name := "p", ty := .ptr .int, place := .frame 0 })
        (.binary .mul (.num 1) (.num 8) .int) (.ptr .int)) .int)
      { Scope.start with curLocals := [{ name := "p", ty := .ptr .int, place := .frame 0 }] }
      [.punct ";"] :=
  (assign_implements_grammar
    (σ := { Scope.start with curLocals := [{ name := "p", ty := .ptr .int, place := .frame 0 }] })
    (e := .binary .gt (.binary .add (.ident "p") (.num 1)) (.num 0))
    (.local_ "p" none 0 .start (t := .star .int) rfl) (by decide) rfl).1 8 [.punct ";"] le_rfl
    (stops_closer (by decide) 1)

end XinuRpi4.Compiler
