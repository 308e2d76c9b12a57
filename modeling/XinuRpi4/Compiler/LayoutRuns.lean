import XinuRpi4.Compiler.StructPlacing
import XinuRpi4.Foundation.Runs

/-!
# The layouts of a program

A program is a run of declarations. Every scope of the run has its structs and arrays laid
out exactly when every declaration fits.
-/

namespace XinuRpi4.Compiler

open Foundation

section Declarations

variable {σ σ₁ : Scope}

theorem Scope.Grows.arraysExact (hg : σ.Grows σ₁) : ∀ {t : Ty}, t.Known σ.ntypes →
    t.ArraysExact σ.types → t.ArraysExact σ₁.types
  | .int, _, _ => trivial
  | .char, _, _ => trivial
  | .ptr _, _, _ => trivial
  | .struct _, _, _ => trivial
  | .array b _ _, hk, h => by
      refine ⟨?_, arraysExact hg (t := b) hk h.2⟩
      rw [hg.size (t := b) hk]
      exact h.1

theorem Scope.Grows.placed (hg : σ.Grows σ₁) {b : StructBody} (h : b.Placed σ.types)
    (hk : ∀ m ∈ b.members, m.ty.Known σ.ntypes) : b.Placed σ₁.types where
  row := {
    inside := fun m hm => by
      rw [hg.size (hk m hm)]
      exact h.row.inside m hm
    aligned := fun m hm => by
      rw [hg.size (hk m hm)]
      exact h.row.aligned m hm
    ordered := h.row.ordered.imp_of_mem fun {m m'} hm _ hle => by
      rw [hg.size (hk m hm)]
      exact hle
    arrays := fun m hm => hg.arraysExact (hk m hm) (h.row.arrays m hm) }
  size_nonneg := h.size_nonneg
  size_dvd := h.size_dvd

/-- A scope in which every struct has its members one behind the other. -/
structure Scope.Placed (σ : Scope) : Prop where
  closed : σ.Closed
  plain : σ.Plain
  structs : ∀ id < σ.ntypes, (σ.types id).Placed σ.types
  curLocals : ∀ v ∈ σ.curLocals, v.ty.ArraysExact σ.types
  globals : ∀ v ∈ σ.globals, v.ty.ArraysExact σ.types

theorem Scope.Placed.laidOut (h : σ.Placed) : σ.LaidOut where
  structs _ hid := StructBody.Placed.laidOut h.structs h.closed.members hid
  curLocals := h.curLocals
  globals := h.globals

theorem Scope.leads_self (σ : Scope) : σ.Leads σ.types [] :=
  ⟨fun _ hj => absurd hj List.not_mem_nil, fun _ _ _ => rfl⟩

theorem Scope.Placed.settling (h : σ.Placed) : σ.Settling σ.types [] [] :=
  ⟨σ.leads_self, fun _ hj => absurd hj List.not_mem_nil,
    fun j hj _ => (h.structs j hj).size_nonneg⟩

/-- A type that fits keeps the scope as it should be. -/
theorem Scope.Placed.type (h : σ.Placed) {t : CType} {ty : Ty} (hlen : t.lengthsOk = true)
    (ht : t.meaning σ = some (ty, σ₁)) (hfit : t.fits σ [] = true) : σ₁.Placed := by
  have hg := t.grows ht
  have hno : ∀ j ∈ ([] : List ℕ), j < σ.ntypes := fun _ hj => absurd hj List.not_mem_nil
  have hnn : ∀ j < σ.ntypes, j ∉ ([] : List ℕ) → 0 ≤ (σ₁.types j).size := by
    intro j hj _
    rw [hg.types j hj]
    exact (h.structs j hj).size_nonneg
  have hnew := t.placed h.closed h.plain hlen ht hfit σ₁.leads_self hno
    (fun _ hj => absurd hj List.not_mem_nil) hnn
  refine ⟨(t.closed h.closed ht).1, (t.plain h.plain ht).2, fun id hid => ?_, ?_, ?_⟩
  · by_cases hold : id < σ.ntypes
    · rw [hg.types id hold]
      exact hg.placed (h.structs id hold) (h.closed.members id hold)
    · exact hnew id (by omega) hid
  · rw [hg.curLocals]
    exact fun v hv => hg.arraysExact (h.closed.curLocals v hv) (h.curLocals v hv)
  · rw [hg.globals]
    exact fun v hv => hg.arraysExact (h.closed.globals v hv) (h.globals v hv)

/-- A type that does not fit has a struct with a wrong layout. -/
theorem Scope.Placed.fits_of_laidOut (h : σ.Placed) {t : CType} {ty : Ty}
    (hlen : t.lengthsOk = true) (ht : t.meaning σ = some (ty, σ₁))
    (hall : ∀ id < σ₁.ntypes, (σ₁.types id).LaidOut σ₁.types) : t.fits σ [] = true :=
  t.fits_of_laidOut hall h.closed h.plain hlen ht σ₁.leads_self
    (fun _ hj => absurd hj List.not_mem_nil) (fun _ hj => absurd hj List.not_mem_nil) le_rfl

/-- What a program declares. -/
inductive Decl
  | type (t : CType)
  | typedef (name : String) (t : CType)
  | local_ (name : String) (t : CType) (len : Option Word) (place : ℕ)
  | global (name : String) (t : CType) (len : Option Word) (place : ℕ)
  | function

/-- The scope behind a declaration. -/
def Scope.declare (σ : Scope) : Decl → Option Scope
  | .type t => (t.meaning σ).map fun r => r.2
  | .typedef name t => (t.meaning σ).map fun r =>
    { r.2 with typedefs := (name, r.1) :: r.2.typedefs }
  | .local_ name t len p => (t.meaning σ).map fun r =>
    { r.2 with curLocals :=
        { name := name, ty := withLen r.2 r.1 len, place := .frame p } :: r.2.curLocals }
  | .global name t len p => (t.meaning σ).map fun r =>
    { r.2 with globals :=
        { name := name, ty := withLen r.2 r.1 len, place := .global p } :: r.2.globals }
  | .function => some { σ with curLocals := [] }

/-- Array lengths up to the largest `int`. -/
def lenOk (len : Option Word) : Bool := len.all fun n => decide (n.toNat < 2 ^ 31)

def Decl.lengthsOk : Decl → Bool
  | .type t => t.lengthsOk
  | .typedef _ t => t.lengthsOk
  | .local_ _ t len _ => t.lengthsOk && lenOk len
  | .global _ t len _ => t.lengthsOk && lenOk len
  | .function => true

/-- A variable of a type that fits, and of a size that fits. -/
def CType.varFits (σ : Scope) (t : CType) (len : Option Word) : Bool :=
  t.fits σ [] &&
    match t.meaning σ with
    | none => true
    | some (ty, σ₁) => lenFits σ₁ ty len

def Decl.fits (σ : Scope) : Decl → Bool
  | .type t => t.fits σ []
  | .typedef _ t => t.fits σ []
  | .local_ _ t len _ => t.varFits σ len
  | .global _ t len _ => t.varFits σ len
  | .function => true

/-- A declaration, with the array lengths that an `int` can hold. -/
abbrev SizedDecl := { d : Decl // d.lengthsOk = true }

def declStep (σ : Scope) (d : SizedDecl) : Option Scope := σ.declare d.1

/-- The declaration fits, unless it is refused because of a name that is not declared. -/
def DeclFits (σ : Scope) (d : SizedDecl) : Prop :=
  (declStep σ d).isNone = true ∨ d.1.fits σ = true

instance (σ : Scope) (d : SizedDecl) : Decidable (DeclFits σ d) :=
  inferInstanceAs (Decidable (_ ∨ _))

theorem Scope.Placed.withLen (h : σ₁.Placed) {ty : Ty} (hk : ty.Known σ₁.ntypes)
    (hplain : ty.isArray = false) {len : Option Word} (hlen : lenOk len = true)
    (hfit : lenFits σ₁ ty len = true) : (withLen σ₁ ty len).ArraysExact σ₁.types := by
  refine (h.settling.withLen hk hplain hlen hfit ?_).2.2
  cases (Compiler.withLen σ₁ ty len).held with
  | none => rfl
  | some id => simp

theorem CType.varFits_eq {t : CType} {ty : Ty} {len : Option Word}
    (ht : t.meaning σ = some (ty, σ₁)) :
    t.varFits σ len = (t.fits σ [] && lenFits σ₁ ty len) := by
  rw [CType.varFits, ht]

/-- A declaration that fits keeps the scope as it should be. -/
theorem placed_declare {d : SizedDecl} (h : σ.Placed) (hfit : d.1.fits σ = true)
    (hstep : declStep σ d = some σ₁) : σ₁.Placed := by
  obtain ⟨d, hlen⟩ := d
  cases d with
  | type t =>
    obtain ⟨⟨ty, σ'⟩, ht, rfl⟩ := Option.map_eq_some_iff.mp hstep
    exact h.type hlen ht hfit
  | typedef name t =>
    obtain ⟨⟨ty, σ'⟩, ht, rfl⟩ := Option.map_eq_some_iff.mp hstep
    have h' := h.type hlen ht hfit
    refine ⟨h'.closed.typedef (t.closed h.closed ht).2, ?_, h'.structs, h'.curLocals, h'.globals⟩
    exact List.forall_mem_cons.mpr ⟨(t.plain h.plain ht).1, h'.plain⟩
  | local_ name t len p =>
    obtain ⟨⟨ty, σ'⟩, ht, rfl⟩ := Option.map_eq_some_iff.mp hstep
    obtain ⟨htlen, hn⟩ := Bool.and_eq_true_iff.mp hlen
    obtain ⟨htfit, hlenFit⟩ := Bool.and_eq_true_iff.mp ((CType.varFits_eq ht).symm.trans hfit)
    have h' := h.type htlen ht htfit
    have hk := (t.closed h.closed ht).2
    have harr := h'.withLen hk (t.plain h.plain ht).1 hn hlenFit
    exact ⟨h'.closed.local_ (known_withLen hk _ len), h'.plain, h'.structs,
      List.forall_mem_cons.mpr ⟨harr, h'.curLocals⟩, h'.globals⟩
  | global name t len p =>
    obtain ⟨⟨ty, σ'⟩, ht, rfl⟩ := Option.map_eq_some_iff.mp hstep
    obtain ⟨htlen, hn⟩ := Bool.and_eq_true_iff.mp hlen
    obtain ⟨htfit, hlenFit⟩ := Bool.and_eq_true_iff.mp ((CType.varFits_eq ht).symm.trans hfit)
    have h' := h.type htlen ht htfit
    have hk := (t.closed h.closed ht).2
    have harr := h'.withLen hk (t.plain h.plain ht).1 hn hlenFit
    exact ⟨h'.closed.global (known_withLen hk _ len), h'.plain, h'.structs, h'.curLocals,
      List.forall_mem_cons.mpr ⟨harr, h'.globals⟩⟩
  | function =>
    cases hstep
    have hlocals : ∀ v ∈ ([] : List Var), v.ty.Known σ.ntypes :=
      fun _ hv => absurd hv List.not_mem_nil
    exact ⟨⟨hlocals, h.closed.globals, h.closed.typedefs, h.closed.tags, h.closed.members⟩,
      h.plain, h.structs, fun _ hv => absurd hv List.not_mem_nil, h.globals⟩

/-- A variable that is laid out, with all structs, has a type and a size that fit. -/
theorem Scope.Placed.varFits (h : σ.Placed) {t : CType} {ty : Ty} {len : Option Word}
    (hlen : t.lengthsOk = true) (hn : lenOk len = true) (ht : t.meaning σ = some (ty, σ₁))
    (hall : ∀ id < σ₁.ntypes, (σ₁.types id).LaidOut σ₁.types)
    (harr : (Compiler.withLen σ₁ ty len).ArraysExact σ₁.types) : t.varFits σ len = true := by
  rw [CType.varFits_eq ht, h.fits_of_laidOut hlen ht hall, Bool.true_and]
  exact lenFits_of_arraysExact σ₁.leads_self (t.closed h.closed ht).2 hn harr

/-- A declaration that does not fit spoils the scope. -/
theorem fits_of_laidOut {d : SizedDecl} (h : σ.Placed) (hstep : declStep σ d = some σ₁)
    (hlaid : σ₁.LaidOut) : d.1.fits σ = true := by
  obtain ⟨d, hlen⟩ := d
  cases d with
  | type t =>
    obtain ⟨⟨ty, σ'⟩, ht, rfl⟩ := Option.map_eq_some_iff.mp hstep
    exact h.fits_of_laidOut hlen ht hlaid.structs
  | typedef name t =>
    obtain ⟨⟨ty, σ'⟩, ht, rfl⟩ := Option.map_eq_some_iff.mp hstep
    exact h.fits_of_laidOut hlen ht hlaid.structs
  | local_ name t len p =>
    obtain ⟨⟨ty, σ'⟩, ht, rfl⟩ := Option.map_eq_some_iff.mp hstep
    obtain ⟨htlen, hn⟩ := Bool.and_eq_true_iff.mp hlen
    exact h.varFits htlen hn ht hlaid.structs (hlaid.curLocals _ List.mem_cons_self)
  | global name t len p =>
    obtain ⟨⟨ty, σ'⟩, ht, rfl⟩ := Option.map_eq_some_iff.mp hstep
    obtain ⟨htlen, hn⟩ := Bool.and_eq_true_iff.mp hlen
    exact h.varFits htlen hn ht hlaid.structs (hlaid.globals _ List.mem_cons_self)
  | function => rfl

theorem Scope.start_placed : Scope.start.Placed where
  closed := Scope.start_closed
  plain _ hd := absurd hd List.not_mem_nil
  structs id hid := absurd hid (Nat.not_lt_zero id)
  curLocals _ hv := absurd hv List.not_mem_nil
  globals _ hv := absurd hv List.not_mem_nil

/-- The parser reads types and array lengths as the run of declarations has them, and
records no error. In every scope of a run the structs and arrays are laid out exactly when
every declaration fits. -/
theorem laidOut_iff (ds : List SizedDecl) :
    (∀ (t : CType) (σ σ₁ : Scope) (ty : Ty) (T : List Token) (n : ℕ),
      t.meaning σ = some (ty, σ₁) → t.tokens.length < n → isPunct T "\x7b" = false →
        isPunct T "*" = false → Yields (declspec n) σ (t.tokens ++ T) ty σ₁ T) ∧
    (∀ (σ : Scope) (ty : Ty) (len : Option Word) (T : List Token), Starts T "[" = false →
      Yields (arraySuffix ty) σ (lenTokens len ++ T) (withLen σ ty len) σ T) ∧
    (Always declStep Scope.LaidOut .start ds ↔ EachStep declStep DeclFits .start ds) := by
  refine ⟨fun t σ σ₁ ty T n ht hn hbrace hstar => ?_, fun σ ty len T hT => ?_, ?_⟩
  · exact t.parsed ht hn hbrace (starsFrom_end hstar)
  · exact yields_arraySuffix ty len hT
  · refine always_iff_eachStep_of_none Scope.Placed Scope.LaidOut (fun _ => Scope.Placed.laidOut)
      (fun σ d σ₁ hI hok hstep => ?_) (fun σ d σ₁ hI hok hstep hlaid => ?_)
      (fun σ d hstep => ?_) Scope.start_placed ds
    · obtain hnone | hfit := hok
      · rw [hstep] at hnone
        cases hnone
      · exact placed_declare hI hfit hstep
    · exact hok (Or.inr (fits_of_laidOut hI hstep hlaid))
    · exact Or.inl (by rw [hstep]; rfl)

/-- `struct L { char tag; int cells[3]; struct L *next; };` -/
def listDecl : SizedDecl :=
  ⟨.type (.structDef (some "L") (.cons .char "tag" none (.cons .int "cells" (some 3)
    (.cons (.star (.structRef "L")) "next" none .nil)))), by decide⟩

theorem laidOut_list : Always declStep Scope.LaidOut .start [listDecl] :=
  (laidOut_iff [listDecl]).2.2.mpr (by decide)

/-- `struct B { int cells[536870912]; char last; };` -/
def hugeDecl : SizedDecl :=
  ⟨.type (.structDef (some "B") (.cons .int "cells" (some 536870912)
    (.cons .char "last" none .nil))), by decide⟩

/-- An array of `2 ^ 32` bytes takes no room, and the next member lies upon it. -/
theorem huge_array_without_size :
    ¬ ∀ ds : List SizedDecl, Always declStep Scope.LaidOut .start ds := by
  intro hall
  obtain ⟨-, hstep⟩ := hall [hugeDecl]
  have hbody : ∃ σ, declStep .start hugeDecl = some σ ∧ 0 < σ.ntypes ∧
      σ.types 0 = { members := [
        { name := "cells", ty := .array .int 536870912 0, offset := 0 },
        { name := "last", ty := .char, offset := 0 }], size := 8 } := by
    refine ⟨_, rfl, by decide, by decide⟩
  obtain ⟨σ, hσ, hpos, hbody⟩ := hbody
  have hlaid := (hstep σ hσ).structs 0 hpos
  rw [hbody] at hlaid
  obtain ⟨hsize, -⟩ := hlaid.arrays _ List.mem_cons_self
  exact absurd hsize (by simp [Ty.size])

end Declarations

end XinuRpi4.Compiler
