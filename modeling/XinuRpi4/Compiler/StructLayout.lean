import XinuRpi4.Compiler.RoundTrip
import XinuRpi4.Compiler.FrameLayout
import Mathlib.Order.CompletePartialOrder

/-!
# The layout of structs and arrays

What a layout has to be, and when the declarations of a program get one. Sizes and
offsets are `int`s and nothing looks whether they fit, and the size of a struct counts as
zero until its `}`; a declaration fits when neither of the two is ever noticed.
-/

namespace XinuRpi4.Compiler

section Layout

/-- A value of the type is or contains a scalar of eight bytes. -/
inductive HoldsWord (types : ℕ → StructBody) : Ty → Prop
  | int : HoldsWord types .int
  | ptr (b : Ty) : HoldsWord types (.ptr b)
  | array {b : Ty} {len size : ℤ} (hlen : 0 < len) (h : HoldsWord types b) :
      HoldsWord types (.array b len size)
  | struct {id : ℕ} {m : Member} (hm : m ∈ (types id).members) (h : HoldsWord types m.ty) :
      HoldsWord types (.struct id)

/-- An array has the size of its elements together. -/
def Ty.ArraysExact (types : ℕ → StructBody) : Ty → Prop
  | .array b len size => size = b.size types * len ∧ b.ArraysExact types
  | _ => True

/-- The bytes of a member. -/
def Member.bytes (types : ℕ → StructBody) (m : Member) : Set ℤ :=
  Set.Ico m.offset (m.offset + m.ty.size types)

structure StructBody.LaidOut (types : ℕ → StructBody) (b : StructBody) : Prop where
  inside : ∀ m ∈ b.members, 0 ≤ m.offset ∧ m.offset + m.ty.size types ≤ b.size
  apart : b.members.Pairwise fun m m' => Disjoint (m.bytes types) (m'.bytes types)
  aligned : ∀ m ∈ b.members, HoldsWord types m.ty → 8 ∣ m.offset
  size_nonneg : 0 ≤ b.size
  size_dvd : 8 ∣ b.size
  arrays : ∀ m ∈ b.members, m.ty.ArraysExact types

/-- All structs and arrays of a scope are laid out. -/
structure Scope.LaidOut (σ : Scope) : Prop where
  structs : ∀ id < σ.ntypes, (σ.types id).LaidOut σ.types
  curLocals : ∀ v ∈ σ.curLocals, v.ty.ArraysExact σ.types
  globals : ∀ v ∈ σ.globals, v.ty.ArraysExact σ.types

end Layout

section Fits

/-- The struct that a value of the type begins with, if it has any element. -/
def Ty.held : Ty → Option ℕ
  | .struct id => some id
  | .array b len _ => if len = 0 then none else b.held
  | _ => none

/-- The size of an array is an `int`. -/
def lenFits (σ : Scope) (ty : Ty) : Option Word → Bool
  | none => true
  | some len => decide (ty.size σ.types * len.toInt < 2 ^ 31)

/-- The end of a member of some size behind an offset. -/
def memberEnd (off size : ℤ) : ℤ := (if 8 ≤ size then roundUp off 8 else off) + size

/-- No member of a struct takes a byte when it is read. -/
def CMembers.hollow (σ : Scope) : CMembers → Bool
  | .nil => true
  | .cons t _ len ms =>
    match t.meaning σ with
    | none => true
    | some (ty, σ₁) => decide ((withLen σ₁ ty len).size σ₁.types = 0) && ms.hollow σ₁

mutual

/-- All sizes of a declaration are `int`s, and no struct has members of which it is a part
itself. The structs that are not finished are in `solid`, unless they are empty. -/
def CType.fits (σ : Scope) (solid : List ℕ) : CType → Bool
  | .structDef tag ms =>
    ms.fits (σ.openStruct tag)
      (if ms.hollow (σ.openStruct tag) then solid else σ.ntypes :: solid) 0
  | .star t => t.fits σ solid
  | _ => true

def CMembers.fits (σ : Scope) (solid : List ℕ) (off : ℤ) : CMembers → Bool
  | .nil => decide (off + 7 < 2 ^ 31)
  | .cons t _ len ms => t.fits σ solid &&
    match t.meaning σ with
    | none => true
    | some (ty, σ₁) =>
      let size := (withLen σ₁ ty len).size σ₁.types
      lenFits σ₁ ty len && (withLen σ₁ ty len).held.all (fun id => decide (id ∉ solid)) &&
        decide (memberEnd off size < 2 ^ 31) && ms.fits σ₁ solid (memberEnd off size)

end

mutual

/-- Array lengths up to the largest `int`. -/
def CType.lengthsOk : CType → Bool
  | .structDef _ ms => ms.lengthsOk
  | .star t => t.lengthsOk
  | _ => true

def CMembers.lengthsOk : CMembers → Bool
  | .nil => true
  | .cons t _ len ms => t.lengthsOk && len.all (fun n => decide (n.toNat < 2 ^ 31)) && ms.lengthsOk

end

end Fits

section Arithmetic

variable {off size : ℤ}

theorem toInt32_lt (x : ℤ) : toInt32 x < 2 ^ 31 := by
  have h := Int.bmod_lt (x := x) (m := 2 ^ 32) (by norm_num)
  unfold toInt32
  omega

theorem alignTo_one (h0 : 0 ≤ off) (h1 : off < 2 ^ 31) : alignTo off 1 = off := by
  have hin : toInt32 (off + 1 - 1) = off := by
    rw [add_sub_cancel_right]
    exact toInt32_of_lt h0 h1
  simp only [alignTo]
  rw [hin, Int.tdiv_one, mul_one]
  exact toInt32_of_lt h0 h1

theorem alignTo_eight (h0 : 0 ≤ off) (h1 : off + 7 < 2 ^ 31) : alignTo off 8 = roundUp off 8 := by
  have hround := roundUp_eight off
  have hdiv : (off + 8 - 1).tdiv 8 = (off + 8 - 1) / 8 := Int.tdiv_eq_ediv_of_nonneg (by omega)
  unfold roundUp at hround ⊢
  simp only [alignTo]
  rw [toInt32_of_lt (x := off + 8 - 1) (by omega) (by omega), hdiv]
  exact toInt32_of_lt (by omega) (by omega)

theorem alignTo_wraps (h0 : off < 2 ^ 31) (h1 : 2 ^ 31 ≤ off + 7) : alignTo off 8 < 0 := by
  have hin : toInt32 (off + 8 - 1) = off + 7 - 2 ^ 32 := by
    unfold toInt32
    rw [Int.bmod_def]
    norm_num only
    split_ifs <;> omega
  have hdiv : (off + 7 - 2 ^ 32).tdiv 8 = -((2 ^ 32 - off - 7) / 8) := by
    rw [← Int.tdiv_eq_ediv_of_nonneg (by omega), ← Int.neg_tdiv]
    congr 1
    ring
  simp only [alignTo]
  rw [hin, hdiv]
  unfold toInt32
  rw [Int.bmod_def]
  norm_num only
  split_ifs <;> omega

theorem memberOffset_exact (h0 : 0 ≤ off) (hs : 0 ≤ size) (hend : memberEnd off size < 2 ^ 31) :
    toInt32 (memberOffset off size + size) = memberEnd off size ∧
      memberOffset off size + size = memberEnd off size ∧ off ≤ memberOffset off size ∧
      (8 ≤ size → 8 ∣ memberOffset off size) := by
  have hround := roundUp_eight off
  have hat : memberOffset off size = if 8 ≤ size then roundUp off 8 else off := by
    unfold memberEnd at hend
    unfold memberOffset
    split_ifs at hend ⊢ with h8
    · exact alignTo_eight h0 (by omega)
    · exact alignTo_one h0 (by omega)
  have hsum : memberOffset off size + size = memberEnd off size := by rw [hat, memberEnd]
  have hle : off ≤ memberOffset off size := by
    rw [hat]
    split_ifs <;> omega
  refine ⟨?_, hsum, hle, fun h8 => ?_⟩
  · rw [hsum]
    exact toInt32_of_lt (by omega) hend
  · rw [hat, if_pos h8]
    exact hround.2.2

/-- Where a member is placed that is small, or not. -/
theorem memberOffset_near (h0 : 0 ≤ off) (h1 : off < 2 ^ 31) :
    memberOffset off size < 0 ∨ off ≤ memberOffset off size ∧ memberOffset off size < off + 8 := by
  have hround := roundUp_eight off
  unfold memberOffset
  split_ifs
  · by_cases h7 : off + 7 < 2 ^ 31
    · rw [alignTo_eight h0 h7]
      omega
    · exact Or.inl (alignTo_wraps h1 (by omega))
  · rw [alignTo_one h0 h1]
    omega

end Arithmetic

section Later

variable {types : ℕ → StructBody} {σ σ₁ : Scope} {opens : List ℕ} {ty : Ty}

/-- The structs as they are in the end; the members of those in `opens` are not yet known. -/
structure Scope.Leads (σ : Scope) (types : ℕ → StructBody) (opens : List ℕ) : Prop where
  opened : ∀ j ∈ opens, j < σ.ntypes ∧ σ.types j = { members := [], size := 0 }
  closed : ∀ j < σ.ntypes, j ∉ opens → types j = σ.types j

theorem Scope.Grows.leads (hg : σ.Grows σ₁) (hl : σ₁.Leads types opens)
    (hopen : ∀ j ∈ opens, j < σ.ntypes) : σ.Leads types opens where
  opened j hj := by
    refine ⟨hopen j hj, ?_⟩
    rw [← hg.types j (hopen j hj)]
    exact (hl.opened j hj).2
  closed j hj hno := by
    rw [← hg.types j hj]
    exact hl.closed j (lt_of_lt_of_le hj hg.ntypes) hno

/-- In front of its `}` a struct is open. -/
theorem Scope.Leads.inside {tag : Option String} {b : StructBody}
    (hg : (σ.openStruct tag).Grows σ₁) (hopen : ∀ j ∈ opens, j < σ.ntypes)
    (hl : (σ₁.closeStruct σ.ntypes b).Leads types opens) :
    σ₁.Leads types (σ.ntypes :: opens) ∧ types σ.ntypes = b := by
  have hlt : σ.ntypes < σ₁.ntypes := lt_of_lt_of_le (Nat.lt_succ_self _) hg.ntypes
  have hnew : σ.ntypes ∉ opens := fun h => absurd (hopen _ h) (lt_irrefl _)
  have hother : ∀ j, j ≠ σ.ntypes → (σ₁.closeStruct σ.ntypes b).types j = σ₁.types j :=
    fun j hj => Function.update_of_ne hj _ _
  refine ⟨⟨fun j hj => ?_, fun j hj hno => ?_⟩, ?_⟩
  · rcases List.mem_cons.mp hj with rfl | hj
    · refine ⟨hlt, ?_⟩
      rw [hg.types _ (Nat.lt_succ_self _)]
      exact Function.update_self ..
    · have hne : j ≠ σ.ntypes := (hopen j hj).ne
      obtain ⟨hj', hbody⟩ := hl.opened j hj
      exact ⟨hj', (hother j hne).symm.trans hbody⟩
  · rw [List.mem_cons, not_or] at hno
    rw [← hother j hno.1]
    exact hl.closed j hj hno.2
  · rw [hl.closed _ hlt hnew]
    exact Function.update_self ..

theorem Ty.size_array (b : Ty) (len size : ℤ) : (Ty.array b len size).size types = size := rfl

/-- A type has its size, unless it is a struct that is not finished. -/
theorem Scope.Leads.size (hl : σ.Leads types opens) (hk : ty.Known σ.ntypes) :
    ty.size types = ty.size σ.types ∨ ∃ j ∈ opens, ty = .struct j ∧ ty.size σ.types = 0 := by
  cases ty with
  | struct id =>
    by_cases hid : id ∈ opens
    · refine Or.inr ⟨id, hid, rfl, ?_⟩
      exact congrArg StructBody.size (hl.opened id hid).2
    · exact Or.inl (congrArg StructBody.size (hl.closed id hk hid))
  | int => exact Or.inl rfl
  | char => exact Or.inl rfl
  | ptr b => exact Or.inl rfl
  | array b len size => exact Or.inl rfl

def Ty.isArray : Ty → Bool
  | .array _ _ _ => true
  | _ => false

/-- There is no name for an array type. -/
def Scope.Plain (σ : Scope) : Prop := ∀ d ∈ σ.typedefs, d.2.isArray = false

theorem CType.plain (t : CType) (hσ : σ.Plain) (ht : t.meaning σ = some (ty, σ₁)) :
    ty.isArray = false ∧ σ₁.Plain := by
  have hplain : σ₁.Plain := by
    unfold Scope.Plain
    rw [(t.grows ht).typedefs]
    exact hσ
  refine ⟨?_, hplain⟩
  cases t with
  | int =>
    simp only [CType.meaning, Option.some.injEq, Prod.mk.injEq] at ht
    rw [← ht.1]
    rfl
  | char =>
    simp only [CType.meaning, Option.some.injEq, Prod.mk.injEq] at ht
    rw [← ht.1]
    rfl
  | named name =>
    simp only [CType.meaning, Scope.findTypedef, Option.map_eq_some_iff, Prod.mk.injEq] at ht
    obtain ⟨_, ⟨d, hd, rfl⟩, rfl, rfl⟩ := ht
    exact hσ d (List.mem_of_find?_eq_some hd)
  | structRef tag =>
    simp only [CType.meaning, Option.map_eq_some_iff, Prod.mk.injEq] at ht
    obtain ⟨_, _, rfl, rfl⟩ := ht
    rfl
  | structDef tag ms =>
    simp only [CType.meaning, Option.map_eq_some_iff, Prod.mk.injEq] at ht
    obtain ⟨_, _, rfl, rfl⟩ := ht
    rfl
  | star t =>
    simp only [CType.meaning, Option.map_eq_some_iff, Prod.mk.injEq] at ht
    obtain ⟨_, _, rfl, rfl⟩ := ht
    rfl

theorem length_small {n : Word} (h : n.toNat < 2 ^ 31) : n.toInt = n.toNat ∧ toInt32 n.toInt = n.toNat := by
  have hint : n.toInt = n.toNat := BitVec.toInt_eq_toNat_of_lt (by omega)
  refine ⟨hint, ?_⟩
  rw [hint]
  exact toInt32_of_lt (by omega) (by omega)

/-- The members are added behind those before. -/
theorem CMembers.meaning_append (ms : CMembers) {σ σ₁ : Scope} {off : ℤ} {before : List Member}
    {r : ℤ × List Member} (h : ms.meaning σ off before = some (r, σ₁)) :
    ∃ rest, r.2 = before ++ rest := by
  cases ms with
  | nil =>
    simp only [CMembers.meaning, Option.some.injEq, Prod.mk.injEq] at h
    obtain ⟨rfl, rfl⟩ := h
    exact ⟨[], (List.append_nil _).symm⟩
  | cons t name len ms =>
    simp only [CMembers.meaning, Option.bind_eq_some_iff] at h
    obtain ⟨⟨ty, σ'⟩, ht, hms⟩ := h
    obtain ⟨rest, hrest⟩ := ms.meaning_append hms
    exact ⟨_, by rw [hrest, List.append_assoc]⟩

end Later

end XinuRpi4.Compiler
