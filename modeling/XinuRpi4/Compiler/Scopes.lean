import XinuRpi4.Compiler.Grammar

/-!
# Scopes grow while an expression is read

Only a struct in a `sizeof` adds to the scope. Names of variables and types keep what
they stand for, and a struct type that was known keeps its members and its size.
-/

namespace XinuRpi4.Compiler

namespace Scope

/-- A later scope, with more struct types. -/
structure Grows (σ σ' : Scope) : Prop where
  curLocals : σ'.curLocals = σ.curLocals
  globals : σ'.globals = σ.globals
  typedefs : σ'.typedefs = σ.typedefs
  ntypes : σ.ntypes ≤ σ'.ntypes
  types : ∀ id < σ.ntypes, σ'.types id = σ.types id

theorem Grows.refl (σ : Scope) : σ.Grows σ := ⟨rfl, rfl, rfl, le_rfl, fun _ _ => rfl⟩

variable {σ σ₁ σ₂ : Scope}

theorem Grows.trans (h : σ.Grows σ₁) (h' : σ₁.Grows σ₂) : σ.Grows σ₂ where
  curLocals := h'.curLocals.trans h.curLocals
  globals := h'.globals.trans h.globals
  typedefs := h'.typedefs.trans h.typedefs
  ntypes := h.ntypes.trans h'.ntypes
  types id hid := (h'.types id (lt_of_lt_of_le hid h.ntypes)).trans (h.types id hid)

/-- A struct that is opened and closed again leaves the types that were known. -/
theorem grows_struct {tag : Option String} (h : (σ.openStruct tag).Grows σ₁) (b : StructBody) :
    σ.Grows (σ₁.closeStruct σ.ntypes b) where
  curLocals := h.curLocals
  globals := h.globals
  typedefs := h.typedefs
  ntypes := (Nat.le_succ _).trans h.ntypes
  types id hid := by
    have hne : id ≠ σ.ntypes := hid.ne
    calc
      (σ₁.closeStruct σ.ntypes b).types id = σ₁.types id := Function.update_of_ne hne _ _
      _ = (σ.openStruct tag).types id := h.types id (Nat.lt_succ_of_lt hid)
      _ = σ.types id := Function.update_of_ne hne _ _

theorem Grows.findVar (h : σ.Grows σ₁) (name : String) : σ₁.findVar name = σ.findVar name := by
  rw [Scope.findVar, Scope.findVar, h.curLocals, h.globals]

theorem Grows.findTypedef (h : σ.Grows σ₁) (name : String) :
    σ₁.findTypedef name = σ.findTypedef name := by
  rw [Scope.findTypedef, Scope.findTypedef, h.typedefs]

theorem Grows.looksLikeType (h : σ.Grows σ₁) : ∀ T, σ₁.looksLikeType T = σ.looksLikeType T
  | [] => rfl
  | t :: T => by rw [Scope.looksLikeType, Scope.looksLikeType, h.findTypedef]

end Scope

open Scope

mutual

theorem CType.grows : ∀ (t : CType) {σ σ₁ : Scope} {ty : Ty}, t.meaning σ = some (ty, σ₁) →
    σ.Grows σ₁
  | .int, σ, σ₁, ty, h => by
      simp only [CType.meaning, Option.some.injEq, Prod.mk.injEq] at h
      exact h.2 ▸ Grows.refl σ
  | .char, σ, σ₁, ty, h => by
      simp only [CType.meaning, Option.some.injEq, Prod.mk.injEq] at h
      exact h.2 ▸ Grows.refl σ
  | .named name, σ, σ₁, ty, h => by
      simp only [CType.meaning, Option.map_eq_some_iff, Prod.mk.injEq] at h
      obtain ⟨_, _, _, rfl⟩ := h
      exact Grows.refl σ
  | .structRef tag, σ, σ₁, ty, h => by
      simp only [CType.meaning, Option.map_eq_some_iff, Prod.mk.injEq] at h
      obtain ⟨_, _, _, rfl⟩ := h
      exact Grows.refl σ
  | .structDef tag ms, σ, σ₁, ty, h => by
      simp only [CType.meaning, Option.map_eq_some_iff, Prod.mk.injEq] at h
      obtain ⟨⟨r, σ'⟩, hms, _, rfl⟩ := h
      exact grows_struct (ms.grows hms) _
  | .star t, σ, σ₁, ty, h => by
      simp only [CType.meaning, Option.map_eq_some_iff, Prod.mk.injEq] at h
      obtain ⟨⟨u, σ'⟩, ht, _, rfl⟩ := h
      exact t.grows ht

theorem CMembers.grows : ∀ (ms : CMembers) {σ σ₁ : Scope} {off : ℤ} {before : List Member}
    {r : ℤ × List Member}, ms.meaning σ off before = some (r, σ₁) → σ.Grows σ₁
  | .nil, σ, σ₁, off, before, r, h => by
      simp only [CMembers.meaning, Option.some.injEq, Prod.mk.injEq] at h
      exact h.2 ▸ Grows.refl σ
  | .cons t name len ms, σ, σ₁, off, before, r, h => by
      simp only [CMembers.meaning, Option.bind_eq_some_iff] at h
      obtain ⟨⟨ty, σ'⟩, ht, hms⟩ := h
      exact (t.grows ht).trans (ms.grows hms)

end

mutual

theorem CExpr.grows : ∀ (e : CExpr) {σ σ₁ : Scope} {t : Expr}, e.meaning σ = some (t, σ₁) →
    σ.Grows σ₁
  | .num v, σ, σ₁, t, h => by
      simp only [CExpr.meaning, Option.some.injEq, Prod.mk.injEq] at h
      exact h.2 ▸ Grows.refl σ
  | .str a, σ, σ₁, t, h => by
      simp only [CExpr.meaning, Option.some.injEq, Prod.mk.injEq] at h
      exact h.2 ▸ Grows.refl σ
  | .ident name, σ, σ₁, t, h => by
      simp only [CExpr.meaning, Option.map_eq_some_iff, Prod.mk.injEq] at h
      obtain ⟨_, _, _, rfl⟩ := h
      exact Grows.refl σ
  | .call name args, σ, σ₁, t, h => by
      simp only [CExpr.meaning, Option.map_eq_some_iff, Prod.mk.injEq] at h
      obtain ⟨⟨as, σ'⟩, ha, _, rfl⟩ := h
      exact args.grows ha
  | .paren e, σ, σ₁, t, h => e.grows h
  | .index e i, σ, σ₁, t, h => by
      simp only [CExpr.meaning, Option.bind_eq_some_iff, Option.map_eq_some_iff, Prod.mk.injEq] at h
      obtain ⟨⟨l, σl⟩, hl, ⟨r, σr⟩, hr, u, _, _, rfl⟩ := h
      exact (e.grows hl).trans (i.grows hr)
  | .dot e name, σ, σ₁, t, h => by
      simp only [CExpr.meaning, Option.bind_eq_some_iff, Option.map_eq_some_iff, Prod.mk.injEq] at h
      obtain ⟨⟨l, σl⟩, hl, mem, _, _, rfl⟩ := h
      exact e.grows hl
  | .arrow e name, σ, σ₁, t, h => by
      simp only [CExpr.meaning, Option.bind_eq_some_iff, Option.map_eq_some_iff, Prod.mk.injEq] at h
      obtain ⟨⟨l, σl⟩, hl, st, _, mem, _, _, rfl⟩ := h
      exact e.grows hl
  | .sizeofType ty, σ, σ₁, t, h => by
      simp only [CExpr.meaning, Option.map_eq_some_iff, Prod.mk.injEq] at h
      obtain ⟨⟨u, σ'⟩, hu, _, rfl⟩ := h
      exact ty.grows hu
  | .sizeofExpr e, σ, σ₁, t, h => by
      simp only [CExpr.meaning, Option.map_eq_some_iff, Prod.mk.injEq] at h
      obtain ⟨⟨u, σ'⟩, hu, _, rfl⟩ := h
      exact e.grows hu
  | .plus e, σ, σ₁, t, h => e.grows h
  | .neg e, σ, σ₁, t, h => by
      simp only [CExpr.meaning, Option.map_eq_some_iff, Prod.mk.injEq] at h
      obtain ⟨⟨u, σ'⟩, hu, _, rfl⟩ := h
      exact e.grows hu
  | .not e, σ, σ₁, t, h => by
      simp only [CExpr.meaning, Option.map_eq_some_iff, Prod.mk.injEq] at h
      obtain ⟨⟨u, σ'⟩, hu, _, rfl⟩ := h
      exact e.grows hu
  | .star e, σ, σ₁, t, h => by
      simp only [CExpr.meaning, Option.bind_eq_some_iff, Option.map_eq_some_iff, Prod.mk.injEq] at h
      obtain ⟨⟨u, σ'⟩, hu, b, _, _, rfl⟩ := h
      exact e.grows hu
  | .amp e, σ, σ₁, t, h => by
      simp only [CExpr.meaning, Option.map_eq_some_iff, Prod.mk.injEq] at h
      obtain ⟨⟨u, σ'⟩, hu, _, rfl⟩ := h
      exact e.grows hu
  | .binary o l r, σ, σ₁, t, h => by
      simp only [CExpr.meaning, Option.bind_eq_some_iff, Option.map_eq_some_iff, Prod.mk.injEq] at h
      obtain ⟨⟨x, σx⟩, hx, ⟨y, σy⟩, hy, u, _, _, rfl⟩ := h
      exact (l.grows hx).trans (r.grows hy)
  | .assign l r, σ, σ₁, t, h => by
      simp only [CExpr.meaning, Option.bind_eq_some_iff, Option.map_eq_some_iff, Prod.mk.injEq] at h
      obtain ⟨⟨x, σx⟩, hx, ⟨y, σy⟩, hy, _, rfl⟩ := h
      exact (l.grows hx).trans (r.grows hy)

theorem CArgs.grows : ∀ (args : CArgs) {σ σ₁ : Scope} {as : Args},
    args.meaning σ = some (as, σ₁) → σ.Grows σ₁
  | .nil, σ, σ₁, as, h => by
      simp only [CArgs.meaning, Option.some.injEq, Prod.mk.injEq] at h
      exact h.2 ▸ Grows.refl σ
  | .cons e args, σ, σ₁, as, h => by
      simp only [CArgs.meaning, Option.bind_eq_some_iff, Option.map_eq_some_iff, Prod.mk.injEq] at h
      obtain ⟨⟨x, σx⟩, hx, ⟨as', σ'⟩, ha, _, rfl⟩ := h
      exact (e.grows hx).trans (args.grows ha)

end

mutual

/-- What CArgs.fits the grammar CArgs.fits it in a later scope. -/
theorem CExpr.fits_grows {σ σ₁ : Scope} (hσ : σ.Grows σ₁) : ∀ e : CExpr, e.fits σ₁ = e.fits σ
  | .num _ => rfl
  | .str _ => rfl
  | .ident _ => rfl
  | .call _ args => args.fits_grows hσ
  | .paren e => e.fits_grows hσ
  | .index e i => by rw [CExpr.fits, CExpr.fits, e.fits_grows hσ, i.fits_grows hσ]
  | .dot e _ => by rw [CExpr.fits, CExpr.fits, e.fits_grows hσ]
  | .arrow e _ => by rw [CExpr.fits, CExpr.fits, e.fits_grows hσ]
  | .sizeofType _ => rfl
  | .sizeofExpr e => by rw [CExpr.fits, CExpr.fits, e.fits_grows hσ, hσ.looksLikeType]
  | .plus e => by rw [CExpr.fits, CExpr.fits, e.fits_grows hσ]
  | .neg e => by rw [CExpr.fits, CExpr.fits, e.fits_grows hσ]
  | .not e => by rw [CExpr.fits, CExpr.fits, e.fits_grows hσ]
  | .star e => by rw [CExpr.fits, CExpr.fits, e.fits_grows hσ]
  | .amp e => by rw [CExpr.fits, CExpr.fits, e.fits_grows hσ]
  | .binary o l r => by rw [CExpr.fits, CExpr.fits, l.fits_grows hσ, r.fits_grows hσ]
  | .assign l r => by rw [CExpr.fits, CExpr.fits, l.fits_grows hσ, r.fits_grows hσ]

theorem CArgs.fits_grows {σ σ₁ : Scope} (hσ : σ.Grows σ₁) : ∀ args : CArgs,
    args.fits σ₁ = args.fits σ
  | .nil => rfl
  | .cons e args => by rw [CArgs.fits, CArgs.fits, e.fits_grows hσ, args.fits_grows hσ]

end

end XinuRpi4.Compiler
