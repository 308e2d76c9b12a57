import XinuRpi4.Compiler.StructLayout

/-!
# Where the members of a struct are placed

A declaration that fits has the members of each of its structs one behind the other. One
that does not fit is noticed: an offset or a size that wraps is negative, or too small for
what it is the size of, and behind a member that grows when its struct is finished there
is no room.
-/

namespace XinuRpi4.Compiler

section Placing

variable {types : ℕ → StructBody} {off : ℤ} {ms : List Member} {m : Member}

/-- Members one behind the other, up to some offset. -/
structure Row (types : ℕ → StructBody) (off : ℤ) (ms : List Member) : Prop where
  inside : ∀ m ∈ ms, 0 ≤ m.offset ∧ 0 ≤ m.ty.size types ∧ m.offset + m.ty.size types ≤ off
  aligned : ∀ m ∈ ms, 8 ≤ m.ty.size types → 8 ∣ m.offset
  ordered : ms.Pairwise fun m m' => m.offset + m.ty.size types ≤ m'.offset
  arrays : ∀ m ∈ ms, m.ty.ArraysExact types

theorem row_nil (off : ℤ) : Row types off [] := ⟨by simp, by simp, .nil, by simp⟩

theorem Row.mono {off' : ℤ} (h : Row types off ms) (hle : off ≤ off') : Row types off' ms where
  inside m hm := by
    obtain ⟨h0, hsize, hend⟩ := h.inside m hm
    exact ⟨h0, hsize, hend.trans hle⟩
  aligned := h.aligned
  ordered := h.ordered
  arrays := h.arrays

/-- A member is placed behind the others. -/
theorem Row.snoc {off' : ℤ} (h : Row types off ms) (h0 : 0 ≤ off) (hlow : off ≤ m.offset)
    (hsize : 0 ≤ m.ty.size types) (hend : m.offset + m.ty.size types ≤ off')
    (halign : 8 ≤ m.ty.size types → 8 ∣ m.offset) (harr : m.ty.ArraysExact types) :
    Row types off' (ms ++ [m]) where
  inside := List.forall_mem_append.mpr
    ⟨(h.mono (by omega)).inside, List.forall_mem_singleton.mpr ⟨by omega, hsize, hend⟩⟩
  aligned := List.forall_mem_append.mpr ⟨h.aligned, List.forall_mem_singleton.mpr halign⟩
  ordered := by
    refine List.pairwise_append.mpr ⟨h.ordered, List.pairwise_singleton _ _, fun m' hm' x hx => ?_⟩
    obtain rfl := List.mem_singleton.mp hx
    exact (h.inside m' hm').2.2.trans hlow
  arrays := List.forall_mem_append.mpr ⟨h.arrays, List.forall_mem_singleton.mpr harr⟩

/-- A struct with its members one behind the other. -/
structure StructBody.Placed (types : ℕ → StructBody) (b : StructBody) : Prop where
  row : Row types b.size b.members
  size_nonneg : 0 ≤ b.size
  size_dvd : 8 ∣ b.size

theorem Row.placed (h : Row types off ms) (h0 : 0 ≤ off) (h7 : off + 7 < 2 ^ 31) :
    StructBody.Placed types { members := ms, size := alignTo off 8 } := by
  have hround := roundUp_eight off
  rw [alignTo_eight h0 h7]
  exact ⟨h.mono hround.1, h0.trans hround.1, hround.2.2⟩

/-- What contains a scalar of eight bytes is as large. -/
theorem HoldsWord.size {n : ℕ} (hplaced : ∀ id < n, (types id).Placed types)
    (hknown : ∀ id < n, ∀ m ∈ (types id).members, m.ty.Known n) {ty : Ty}
    (hw : HoldsWord types ty) (hk : ty.Known n) (harr : ty.ArraysExact types) :
    8 ≤ ty.size types := by
  induction hw with
  | int => exact le_rfl
  | ptr b => exact le_rfl
  | @array b len size hlen h ih =>
    obtain ⟨hsize, hb⟩ := harr
    have h8 := ih hk hb
    simp only [Ty.size]
    rw [hsize]
    nlinarith
  | @struct id m hm h ih =>
    have hrow := (hplaced id hk).row
    have h8 := ih (hknown id hk m hm) (hrow.arrays m hm)
    obtain ⟨h0, -, hend⟩ := hrow.inside m hm
    simp only [Ty.size]
    omega

theorem StructBody.Placed.laidOut {n : ℕ} (hplaced : ∀ id < n, (types id).Placed types)
    (hknown : ∀ id < n, ∀ m ∈ (types id).members, m.ty.Known n) {id : ℕ} (hid : id < n) :
    (types id).LaidOut types where
  inside m hm := by
    obtain ⟨h0, -, hend⟩ := (hplaced id hid).row.inside m hm
    exact ⟨h0, hend⟩
  apart := (hplaced id hid).row.ordered.imp fun {m m'} hle => by
    rw [Member.bytes, Member.bytes, Set.Ico_disjoint_Ico]
    omega
  aligned m hm hw := by
    have hrow := (hplaced id hid).row
    exact hrow.aligned m hm (hw.size hplaced hknown (hknown id hid m hm) (hrow.arrays m hm))
  size_nonneg := (hplaced id hid).size_nonneg
  size_dvd := (hplaced id hid).size_dvd
  arrays := (hplaced id hid).row.arrays

end Placing

section Sound

variable {types : ℕ → StructBody} {σ σ₁ : Scope} {opens solid : List ℕ} {ty : Ty}

/-- What is known of the structs of a scope: those in `opens` have not been finished, and
are empty in the end unless they are in `solid`. -/
structure Scope.Settling (σ : Scope) (types : ℕ → StructBody) (opens solid : List ℕ) : Prop where
  leads : σ.Leads types opens
  empty : ∀ j ∈ opens, j ∉ solid → (types j).size = 0
  nonneg : ∀ j < σ.ntypes, j ∉ opens → 0 ≤ (types j).size

/-- A type that holds no unfinished struct has its final size. -/
theorem Scope.Settling.size (hs : σ.Settling types opens solid) (hk : ty.Known σ.ntypes)
    (hplain : ty.isArray = false) (hheld : ty.held.all (fun id => decide (id ∉ solid)) = true) :
    ty.size types = ty.size σ.types ∧ 0 ≤ ty.size σ.types := by
  cases ty with
  | int => exact ⟨rfl, Int.natCast_nonneg 8⟩
  | char => exact ⟨rfl, Int.natCast_nonneg 1⟩
  | ptr b => exact ⟨rfl, Int.natCast_nonneg 8⟩
  | array b len size => cases hplain
  | struct id =>
    simp only [Ty.held, Option.all_some, decide_eq_true_eq] at hheld
    by_cases hid : id ∈ opens
    · have hzero : (σ.types id).size = 0 := congrArg StructBody.size (hs.leads.opened id hid).2
      exact ⟨(hs.empty id hid hheld).trans hzero.symm, hzero.ge⟩
    · have heq := hs.leads.closed id hk hid
      have hnn := hs.nonneg id hk hid
      simp only [Ty.size]
      rw [← heq]
      exact ⟨rfl, hnn⟩

/-- The same of a declared name, with the length of an array. -/
theorem Scope.Settling.withLen (hs : σ.Settling types opens solid) (hk : ty.Known σ.ntypes)
    (hplain : ty.isArray = false) {len : Option Word}
    (hlen : len.all (fun n => decide (n.toNat < 2 ^ 31)) = true) (hfit : lenFits σ ty len = true)
    (hheld : (Compiler.withLen σ ty len).held.all (fun id => decide (id ∉ solid)) = true) :
    (Compiler.withLen σ ty len).size types = (Compiler.withLen σ ty len).size σ.types ∧
      0 ≤ (Compiler.withLen σ ty len).size σ.types ∧
      (Compiler.withLen σ ty len).ArraysExact types := by
  have hbase : ty.ArraysExact types := by
    cases ty with
    | array b len size => cases hplain
    | _ => trivial
  cases len with
  | none =>
    obtain ⟨hsize, hnn⟩ := hs.size hk hplain hheld
    exact ⟨hsize, hnn, hbase⟩
  | some n =>
    simp only [Option.all_some, decide_eq_true_eq] at hlen
    simp only [lenFits, decide_eq_true_eq] at hfit
    obtain ⟨hint, h32⟩ := length_small hlen
    simp only [Compiler.withLen, Ty.held, h32] at hheld ⊢
    simp only [Ty.size_array, Ty.ArraysExact]
    by_cases h0 : (n.toNat : ℤ) = 0
    · simp only [h0, mul_zero]
      have hzero : toInt32 0 = 0 := by decide
      exact ⟨trivial, hzero.ge, hzero, hbase⟩
    · rw [if_neg h0] at hheld
      obtain ⟨hsize, hnn⟩ := hs.size hk hplain hheld
      rw [hint] at hfit
      have hprod : 0 ≤ ty.size σ.types * (n.toNat : ℤ) := mul_nonneg hnn (Int.natCast_nonneg _)
      have hwrap := toInt32_of_lt hprod hfit
      rw [hwrap, hsize]
      exact ⟨trivial, hprod, rfl, hbase⟩

/-- A struct whose members take no bytes ends where it begins. -/
theorem CMembers.hollow_end : ∀ (ms : CMembers) {σ σ₁ : Scope} {before : List Member}
    {r : ℤ × List Member}, ms.meaning σ 0 before = some (r, σ₁) → ms.hollow σ = true → r.1 = 0
  | .nil, σ, σ₁, before, r, h, _ => by
      simp only [CMembers.meaning, Option.some.injEq, Prod.mk.injEq] at h
      exact congrArg Prod.fst h.1.symm
  | .cons t name len ms, σ, σ₁, before, r, h, hh => by
      simp only [CMembers.meaning, Option.bind_eq_some_iff] at h
      obtain ⟨⟨ty, σ'⟩, ht, hms⟩ := h
      simp only [CMembers.hollow, ht, Bool.and_eq_true, decide_eq_true_eq] at hh
      have hat : memberOffset 0 0 = 0 := by decide
      have hend : toInt32 (0 + 0) = 0 := by decide
      rw [hh.1, hat, hend] at hms
      exact ms.hollow_end hms hh.2

mutual

/-- The structs of a declaration that fits have their members one behind the other. -/
theorem CType.placed : ∀ (t : CType) {σ σ₁ : Scope} {ty : Ty} {opens solid : List ℕ}, σ.Closed →
    σ.Plain → t.lengthsOk = true → t.meaning σ = some (ty, σ₁) → t.fits σ solid = true →
    σ₁.Leads types opens → (∀ j ∈ opens, j < σ.ntypes) →
    (∀ j ∈ opens, j ∉ solid → (types j).size = 0) →
    (∀ j < σ.ntypes, j ∉ opens → 0 ≤ (types j).size) →
    ∀ id, σ.ntypes ≤ id → id < σ₁.ntypes → (types id).Placed types
  | .int, σ, σ₁, ty, opens, solid, _, _, _, h, _, _, _, _, _ => by
      simp only [CType.meaning, Option.some.injEq, Prod.mk.injEq] at h
      rw [← h.2]
      omega
  | .char, σ, σ₁, ty, opens, solid, _, _, _, h, _, _, _, _, _ => by
      simp only [CType.meaning, Option.some.injEq, Prod.mk.injEq] at h
      rw [← h.2]
      omega
  | .named name, σ, σ₁, ty, opens, solid, _, _, _, h, _, _, _, _, _ => by
      simp only [CType.meaning, Option.map_eq_some_iff, Prod.mk.injEq] at h
      obtain ⟨_, _, _, rfl⟩ := h
      omega
  | .structRef tag, σ, σ₁, ty, opens, solid, _, _, _, h, _, _, _, _, _ => by
      simp only [CType.meaning, Option.map_eq_some_iff, Prod.mk.injEq] at h
      obtain ⟨_, _, _, rfl⟩ := h
      omega
  | .structDef tag ms, σ, σ₁, ty, opens, solid, hσ, hp, hlen, h, hfit, hl, hopen, he, hnn => by
      simp only [CType.meaning, Option.map_eq_some_iff, Prod.mk.injEq] at h
      obtain ⟨⟨r, σ'⟩, hms, _, rfl⟩ := h
      obtain ⟨hl', hbody⟩ := Scope.Leads.inside (ms.grows hms) hopen hl
      rw [CType.fits] at hfit
      have hopen' : ∀ j ∈ σ.ntypes :: opens, j < (σ.openStruct tag).ntypes :=
        List.forall_mem_cons.mpr ⟨Nat.lt_succ_self _, fun j hj => Nat.lt_succ_of_lt (hopen j hj)⟩
      have he' : ∀ j ∈ σ.ntypes :: opens, j ∉ (if ms.hollow (σ.openStruct tag) then solid
          else σ.ntypes :: solid) → (types j).size = 0 := by
        intro j hj hno
        rcases List.mem_cons.mp hj with rfl | hj
        · by_cases hh : ms.hollow (σ.openStruct tag) = true
          · have hzero : alignTo 0 8 = 0 := by decide
            rw [hbody]
            simp only
            rw [ms.hollow_end hms hh, hzero]
          · rw [if_neg hh] at hno
            exact absurd List.mem_cons_self hno
        · refine he j hj fun hmem => hno ?_
          split_ifs
          · exact hmem
          · exact List.mem_cons_of_mem _ hmem
      have hnn' : ∀ j < (σ.openStruct tag).ntypes, j ∉ σ.ntypes :: opens →
          0 ≤ (types j).size := by
        intro j hj hno
        rw [List.mem_cons, not_or] at hno
        have hlt : j < σ.ntypes + 1 := hj
        exact hnn j (by have := hno.1; omega) hno.2
      obtain ⟨hnew, hrow, h0, h7⟩ := ms.placed (hσ.openStruct tag) hp hlen hms hfit hl' hopen' he'
        hnn' le_rfl (row_nil 0)
      intro id hlo hhi
      by_cases hid : id = σ.ntypes
      · rw [hid, hbody]
        exact hrow.placed h0 h7
      · exact hnew id (by
          change σ.ntypes + 1 ≤ id
          omega) hhi
  | .star t, σ, σ₁, ty, opens, solid, hσ, hp, hlen, h, hfit, hl, hopen, he, hnn => by
      simp only [CType.meaning, Option.map_eq_some_iff, Prod.mk.injEq] at h
      obtain ⟨⟨u, σ'⟩, ht, _, rfl⟩ := h
      exact t.placed hσ hp hlen ht hfit hl hopen he hnn

theorem CMembers.placed : ∀ (ms : CMembers) {σ σ₁ : Scope} {off : ℤ} {before : List Member}
    {r : ℤ × List Member} {opens solid : List ℕ}, σ.Closed → σ.Plain → ms.lengthsOk = true →
    ms.meaning σ off before = some (r, σ₁) → ms.fits σ solid off = true → σ₁.Leads types opens →
    (∀ j ∈ opens, j < σ.ntypes) → (∀ j ∈ opens, j ∉ solid → (types j).size = 0) →
    (∀ j < σ.ntypes, j ∉ opens → 0 ≤ (types j).size) → 0 ≤ off → Row types off before →
    (∀ id, σ.ntypes ≤ id → id < σ₁.ntypes → (types id).Placed types) ∧
      Row types r.1 r.2 ∧ 0 ≤ r.1 ∧ r.1 + 7 < 2 ^ 31
  | .nil, σ, σ₁, off, before, r, opens, solid, _, _, _, h, hfit, _, _, _, _, h0, hrow => by
      simp only [CMembers.meaning, Option.some.injEq, Prod.mk.injEq] at h
      obtain ⟨rfl, rfl⟩ := h
      simp only [CMembers.fits, decide_eq_true_eq] at hfit
      exact ⟨fun id hlo hhi => absurd hhi (by omega), hrow, h0, hfit⟩
  | .cons t name len ms, σ, σ₁, off, before, r, opens, solid, hσ, hp, hlen, h, hfit, hl, hopen, he,
      hnn, h0, hrow => by
      simp only [CMembers.meaning, Option.bind_eq_some_iff] at h
      obtain ⟨⟨ty, σ'⟩, ht, hms⟩ := h
      simp only [CMembers.fits, ht, Bool.and_eq_true, decide_eq_true_eq] at hfit
      obtain ⟨htfit, ⟨⟨hlenFit, hheld⟩, hend⟩, hrest⟩ := hfit
      simp only [CMembers.lengthsOk, Bool.and_eq_true] at hlen
      obtain ⟨⟨htlen, hn⟩, hmslen⟩ := hlen
      obtain ⟨hσ', hk⟩ := t.closed hσ ht
      obtain ⟨hplain, hp'⟩ := t.plain hp ht
      have hg := t.grows ht
      have hopen' : ∀ j ∈ opens, j < σ'.ntypes := fun j hj => lt_of_lt_of_le (hopen j hj) hg.ntypes
      have hl' : σ'.Leads types opens := (ms.grows hms).leads hl hopen'
      -- the structs in the type of the member are finished
      have hnew := t.placed hσ hp htlen ht htfit hl' hopen he hnn
      have hnn' : ∀ j < σ'.ntypes, j ∉ opens → 0 ≤ (types j).size := by
        intro j hj hno
        by_cases hold : j < σ.ntypes
        · exact hnn j hold hno
        · exact (hnew j (by omega) hj).size_nonneg
      have hs : σ'.Settling types opens solid := ⟨hl', he, hnn'⟩
      obtain ⟨hsize, hsnn, harr⟩ := hs.withLen hk hplain hn hlenFit hheld
      obtain ⟨hoff, hsum, hlow, halign⟩ := memberOffset_exact h0 hsnn hend
      rw [hoff] at hms
      have hrow' : Row types (memberEnd off ((withLen σ' ty len).size σ'.types)) (before ++
          [⟨name, withLen σ' ty len, memberOffset off ((withLen σ' ty len).size σ'.types)⟩]) := by
        refine hrow.snoc h0 hlow ?_ ?_ ?_ harr
        · exact hsize ▸ hsnn
        · rw [hsize]
          exact hsum.le
        · exact hsize ▸ halign
      obtain ⟨hmsnew, hres⟩ := ms.placed hσ' hp' hmslen hms hrest hl hopen' he hnn' (by omega) hrow'
      refine ⟨fun id hlo hhi => ?_, hres⟩
      by_cases hid : id < σ'.ntypes
      · exact hnew id hlo hid
      · exact hmsnew id (by omega) hhi

end

end Sound

section Complete

variable {types : ℕ → StructBody} {N : ℕ}

/-- Declared types have sizes that are not negative. -/
theorem declared_size_nonneg (hall : ∀ id < N, (types id).LaidOut types) {σ : Scope} {ty : Ty}
    (hk : ty.Known N) (hplain : ty.isArray = false) {len : Option Word}
    (hlen : len.all (fun n => decide (n.toNat < 2 ^ 31)) = true)
    (harr : (withLen σ ty len).ArraysExact types) : 0 ≤ (withLen σ ty len).size types := by
  have hbase : 0 ≤ ty.size types := by
    cases ty with
    | int => exact Int.natCast_nonneg 8
    | char => exact Int.natCast_nonneg 1
    | ptr b => exact Int.natCast_nonneg 8
    | array b len size => cases hplain
    | struct id => exact (hall id hk).size_nonneg
  cases len with
  | none => exact hbase
  | some n =>
    simp only [Option.all_some, decide_eq_true_eq] at hlen
    have hsize := harr.1
    simp only [withLen, Ty.size_array]
    rw [hsize, (length_small hlen).2]
    exact mul_nonneg hbase (Int.natCast_nonneg _)

/-- Behind a member that is larger in the end than when it was read, nothing has room. -/
theorem CMembers.no_room (hall : ∀ id < N, (types id).LaidOut types) : ∀ (ms : CMembers)
    {σ σ₁ : Scope} {off : ℤ} {before : List Member} {r : ℤ × List Member} {opens : List ℕ}
    {m : Member}, σ.Closed → σ.Plain → ms.lengthsOk = true →
    ms.meaning σ off before = some (r, σ₁) → σ₁.Leads types opens → (∀ j ∈ opens, j < σ.ntypes) →
    σ₁.ntypes ≤ N → StructBody.LaidOut types { members := r.2, size := alignTo r.1 8 } →
    0 ≤ off → off < 2 ^ 31 → m ∈ before → m.offset = off → 8 ≤ m.ty.size types → False
  | .nil, σ, σ₁, off, before, r, opens, m, _, _, _, h, _, _, _, hbody, h0, h1, hm, hoff, h8 => by
      simp only [CMembers.meaning, Option.some.injEq, Prod.mk.injEq] at h
      obtain ⟨rfl, rfl⟩ := h
      have hround := roundUp_eight off
      have hin := (hbody.inside m hm).2
      dsimp only at hin
      by_cases h7 : off + 7 < 2 ^ 31
      · rw [alignTo_eight h0 h7] at hin
        omega
      · have := alignTo_wraps h1 (by omega)
        omega
  | .cons t name len ms, σ, σ₁, off, before, r, opens, m, hσ, hp, hlen, h, hl, hopen, hN, hbody, h0,
      h1, hm, hoff, h8 => by
      simp only [CMembers.meaning, Option.bind_eq_some_iff] at h
      obtain ⟨⟨ty, σ'⟩, ht, hms⟩ := h
      simp only [CMembers.lengthsOk, Bool.and_eq_true] at hlen
      obtain ⟨⟨htlen, hn⟩, hmslen⟩ := hlen
      obtain ⟨hσ', hk⟩ := t.closed hσ ht
      obtain ⟨hplain, hp'⟩ := t.plain hp ht
      have hg := t.grows ht
      have hg' := ms.grows hms
      have hopen' : ∀ j ∈ opens, j < σ'.ntypes := fun j hj => lt_of_lt_of_le (hopen j hj) hg.ntypes
      have hl' : σ'.Leads types opens := hg'.leads hl hopen'
      -- the next member, in the finished struct
      obtain ⟨rest, hrest⟩ := ms.meaning_append hms
      rw [List.append_assoc, List.singleton_append] at hrest
      have hmem : (⟨name, withLen σ' ty len, memberOffset off ((withLen σ' ty len).size σ'.types)⟩ :
          Member) ∈ r.2 := by
        rw [hrest]
        exact List.mem_append_right _ List.mem_cons_self
      have hnn := declared_size_nonneg hall (hk.mono (hg'.ntypes.trans hN)) hplain hn
        (hbody.arrays _ hmem)
      have hnear := @memberOffset_near off ((withLen σ' ty len).size σ'.types) h0 h1
      have hzero : (withLen σ' ty len).size types = 0 := by
        by_contra hpos
        have happart := hbody.apart
        dsimp only at happart
        rw [hrest, List.pairwise_append] at happart
        have hdis := happart.2.2 m hm _ List.mem_cons_self
        have hin := (hbody.inside _ hmem).1
        rw [Member.bytes, Member.bytes, Set.Ico_disjoint_Ico] at hdis
        dsimp only at hdis hin
        omega
      have hsize : (withLen σ' ty len).size σ'.types = 0 := by
        rcases hl'.size (known_withLen hk _ len) with heq | ⟨_, _, _, heq⟩
        · exact heq.symm.trans hzero
        · exact heq
      have hat : memberOffset off 0 = off := alignTo_one h0 h1
      rw [hsize, hat, add_zero, toInt32_of_lt h0 h1] at hms
      exact ms.no_room hall hσ' hp' hmslen hms hl hopen' hN hbody h0 h1
        (List.mem_append_left _ hm) hoff h8

/-- A struct without bytes is hollow. -/
theorem CMembers.hollow_of_size (hall : ∀ id < N, (types id).LaidOut types) : ∀ (ms : CMembers)
    {σ σ₁ : Scope} {off : ℤ} {before : List Member} {r : ℤ × List Member} {opens : List ℕ},
    σ.Closed → σ.Plain → ms.lengthsOk = true → ms.meaning σ off before = some (r, σ₁) →
    σ₁.Leads types opens → (∀ j ∈ opens, j < σ.ntypes) → σ₁.ntypes ≤ N →
    (∀ m ∈ r.2, m.ty.ArraysExact types ∧ m.ty.size types ≤ 0) → ms.hollow σ = true
  | .nil, _, _, _, _, _, _, _, _, _, _, _, _, _, _ => rfl
  | .cons t name len ms, σ, σ₁, off, before, r, opens, hσ, hp, hlen, h, hl, hopen, hN, hzero => by
      simp only [CMembers.meaning, Option.bind_eq_some_iff] at h
      obtain ⟨⟨ty, σ'⟩, ht, hms⟩ := h
      simp only [CMembers.lengthsOk, Bool.and_eq_true] at hlen
      obtain ⟨⟨htlen, hn⟩, hmslen⟩ := hlen
      obtain ⟨hσ', hk⟩ := t.closed hσ ht
      obtain ⟨hplain, hp'⟩ := t.plain hp ht
      have hg := t.grows ht
      have hg' := ms.grows hms
      have hopen' : ∀ j ∈ opens, j < σ'.ntypes := fun j hj => lt_of_lt_of_le (hopen j hj) hg.ntypes
      have hl' : σ'.Leads types opens := hg'.leads hl hopen'
      obtain ⟨rest, hrest⟩ := ms.meaning_append hms
      have hmem : (⟨name, withLen σ' ty len, memberOffset off ((withLen σ' ty len).size σ'.types)⟩ :
          Member) ∈ r.2 := by
        rw [hrest]
        simp
      obtain ⟨harr, hle⟩ := hzero _ hmem
      have hnn := declared_size_nonneg hall (hk.mono (hg'.ntypes.trans hN)) hplain hn harr
      have hsize : (withLen σ' ty len).size σ'.types = 0 := by
        rcases hl'.size (known_withLen hk _ len) with heq | ⟨_, _, _, heq⟩
        · exact heq.symm.trans (le_antisymm hle hnn)
        · exact heq
      simp only [CMembers.hollow, ht, Bool.and_eq_true, decide_eq_true_eq]
      exact ⟨hsize, ms.hollow_of_size hall hσ' hp' hmslen hms hl hopen' hN hzero⟩

theorem memberEnd_lt {off size B : ℤ} (h0 : 0 ≤ off) (h1 : off < 2 ^ 31)
    (hin : 0 ≤ memberOffset off size) (hend : memberOffset off size + size ≤ B) (hB : B < 2 ^ 31) :
    memberEnd off size < 2 ^ 31 := by
  unfold memberOffset at hin hend
  unfold memberEnd
  split_ifs at hin hend ⊢
  · by_cases h7 : off + 7 < 2 ^ 31
    · rw [alignTo_eight h0 h7] at hend
      omega
    · have := alignTo_wraps h1 (by omega)
      omega
  · rw [alignTo_one h0 h1] at hend
    omega

/-- The length of an array with an exact size fits. -/
theorem lenFits_of_arraysExact {σ : Scope} {ty : Ty} {opens : List ℕ} (hl : σ.Leads types opens)
    (hk : ty.Known σ.ntypes) {len : Option Word}
    (hlen : len.all (fun n => decide (n.toNat < 2 ^ 31)) = true)
    (harr : (withLen σ ty len).ArraysExact types) : lenFits σ ty len = true := by
  cases len with
  | none => rfl
  | some n =>
    simp only [Option.all_some, decide_eq_true_eq] at hlen
    obtain ⟨hint, h32⟩ := length_small hlen
    have hsize := harr.1
    rw [h32] at hsize
    simp only [lenFits, decide_eq_true_eq]
    rw [hint]
    rcases hl.size hk with heq | ⟨_, _, _, hzero⟩
    · rw [heq] at hsize
      rw [← hsize]
      exact toInt32_lt _
    · rw [hzero, zero_mul]
      norm_num

mutual

/-- A declaration with all its structs laid out fits. -/
theorem CType.fits_of_laidOut (hall : ∀ id < N, (types id).LaidOut types) : ∀ (t : CType)
    {σ σ₁ : Scope} {ty : Ty} {opens solid : List ℕ}, σ.Closed → σ.Plain → t.lengthsOk = true →
    t.meaning σ = some (ty, σ₁) → σ₁.Leads types opens → (∀ j ∈ opens, j < σ.ntypes) →
    (∀ j ∈ solid, j ∈ opens ∧ 0 < (types j).size) → σ₁.ntypes ≤ N → t.fits σ solid = true
  | .int, _, _, _, _, _, _, _, _, _, _, _, _, _ => rfl
  | .char, _, _, _, _, _, _, _, _, _, _, _, _, _ => rfl
  | .named _, _, _, _, _, _, _, _, _, _, _, _, _, _ => rfl
  | .structRef _, _, _, _, _, _, _, _, _, _, _, _, _, _ => rfl
  | .structDef tag ms, σ, σ₁, ty, opens, solid, hσ, hp, hlen, h, hl, hopen, hsolid, hN => by
      simp only [CType.meaning, Option.map_eq_some_iff, Prod.mk.injEq] at h
      obtain ⟨⟨r, σ'⟩, hms, _, rfl⟩ := h
      have hg := ms.grows hms
      obtain ⟨hl', hbody⟩ := Scope.Leads.inside hg hopen hl
      have hlt : σ.ntypes < N := lt_of_lt_of_le (lt_of_lt_of_le (Nat.lt_succ_self _) hg.ntypes) hN
      have hopen' : ∀ j ∈ σ.ntypes :: opens, j < (σ.openStruct tag).ntypes :=
        List.forall_mem_cons.mpr ⟨Nat.lt_succ_self _, fun j hj => Nat.lt_succ_of_lt (hopen j hj)⟩
      have hlaid := hall _ hlt
      have hsolid' : ∀ j ∈ (if ms.hollow (σ.openStruct tag) then solid else σ.ntypes :: solid),
          j ∈ σ.ntypes :: opens ∧ 0 < (types j).size := by
        split_ifs with hh
        · exact fun j hj => ⟨List.mem_cons_of_mem _ (hsolid j hj).1, (hsolid j hj).2⟩
        · refine List.forall_mem_cons.mpr ⟨⟨List.mem_cons_self, ?_⟩,
            fun j hj => ⟨List.mem_cons_of_mem _ (hsolid j hj).1, (hsolid j hj).2⟩⟩
          by_contra hsize
          refine hh (ms.hollow_of_size hall (hσ.openStruct tag) hp hlen hms hl' hopen' hN
            fun m hm => ?_)
          have hm' : m ∈ (types σ.ntypes).members := by
            rw [hbody]
            exact hm
          have hin := hlaid.inside m hm'
          exact ⟨hlaid.arrays m hm', by omega⟩
      rw [CType.fits]
      refine ms.fits_of_laidOut hall (hσ.openStruct tag) hp hlen hms hl' hopen' hsolid' hN ?_ le_rfl
        (by norm_num)
      rw [← hbody]
      exact hlaid
  | .star t, σ, σ₁, ty, opens, solid, hσ, hp, hlen, h, hl, hopen, hsolid, hN => by
      simp only [CType.meaning, Option.map_eq_some_iff, Prod.mk.injEq] at h
      obtain ⟨⟨u, σ'⟩, ht, _, rfl⟩ := h
      exact t.fits_of_laidOut hall hσ hp hlen ht hl hopen hsolid hN

theorem CMembers.fits_of_laidOut (hall : ∀ id < N, (types id).LaidOut types) : ∀ (ms : CMembers)
    {σ σ₁ : Scope} {off : ℤ} {before : List Member} {r : ℤ × List Member} {opens solid : List ℕ},
    σ.Closed → σ.Plain → ms.lengthsOk = true → ms.meaning σ off before = some (r, σ₁) →
    σ₁.Leads types opens → (∀ j ∈ opens, j < σ.ntypes) →
    (∀ j ∈ solid, j ∈ opens ∧ 0 < (types j).size) → σ₁.ntypes ≤ N →
    StructBody.LaidOut types { members := r.2, size := alignTo r.1 8 } → 0 ≤ off → off < 2 ^ 31 →
    ms.fits σ solid off = true
  | .nil, σ, σ₁, off, before, r, opens, solid, _, _, _, h, _, _, _, _, hbody, h0, h1 => by
      simp only [CMembers.meaning, Option.some.injEq, Prod.mk.injEq] at h
      obtain ⟨rfl, rfl⟩ := h
      have hnn := hbody.size_nonneg
      dsimp only at hnn
      simp only [CMembers.fits, decide_eq_true_eq]
      by_contra h7
      have := alignTo_wraps h1 (by omega)
      omega
  | .cons t name len ms, σ, σ₁, off, before, r, opens, solid, hσ, hp, hlen, h, hl, hopen, hsolid, hN,
      hbody, h0, h1 => by
      simp only [CMembers.meaning, Option.bind_eq_some_iff] at h
      obtain ⟨⟨ty, σ'⟩, ht, hms⟩ := h
      simp only [CMembers.lengthsOk, Bool.and_eq_true] at hlen
      obtain ⟨⟨htlen, hn⟩, hmslen⟩ := hlen
      obtain ⟨hσ', hk⟩ := t.closed hσ ht
      obtain ⟨hplain, hp'⟩ := t.plain hp ht
      have hg := t.grows ht
      have hg' := ms.grows hms
      have hopen' : ∀ j ∈ opens, j < σ'.ntypes := fun j hj => lt_of_lt_of_le (hopen j hj) hg.ntypes
      have hl' : σ'.Leads types opens := hg'.leads hl hopen'
      have hN' : σ'.ntypes ≤ N := hg'.ntypes.trans hN
      obtain ⟨rest, hrest⟩ := ms.meaning_append hms
      have hmem : (⟨name, withLen σ' ty len, memberOffset off ((withLen σ' ty len).size σ'.types)⟩ :
          Member) ∈ r.2 := by
        rw [hrest]
        simp
      have harr := hbody.arrays _ hmem
      obtain ⟨hin, hend⟩ := hbody.inside _ hmem
      dsimp only at harr hin hend
      have hnn := declared_size_nonneg hall (hk.mono hN') hplain hn harr
      have hat : memberOffset off 0 = off := alignTo_one h0 h1
      -- a struct that is not finished would leave no room behind it
      have hheld : (withLen σ' ty len).held.all (fun id => decide (id ∉ solid)) = true := by
        cases hh : (withLen σ' ty len).held with
        | none => rfl
        | some j =>
          simp only [Option.all_some, decide_eq_true_eq]
          intro hj
          obtain ⟨hjo, hjpos⟩ := hsolid j hj
          have hjzero : (σ'.types j).size = 0 := congrArg StructBody.size (hl'.opened j hjo).2
          have hjlt : j < N := lt_of_lt_of_le (hopen' j hjo) hN'
          have hdvd := (hall j hjlt).size_dvd
          have hty : ty = .struct j := by
            cases ty with
            | struct id =>
              cases len with
              | none => exact congrArg Ty.struct (Option.some.inj hh)
              | some n =>
                simp only [withLen, Ty.held] at hh
                split_ifs at hh
                exact congrArg Ty.struct (Option.some.inj hh)
            | array b len size => cases hplain
            | _ =>
              cases len with
              | none => cases hh
              | some n =>
                simp only [withLen, Ty.held] at hh
                split_ifs at hh
          subst hty
          cases len with
          | none =>
            have hsize : (withLen σ' (.struct j) none).size σ'.types = 0 := hjzero
            rw [hsize, hat, add_zero, toInt32_of_lt h0 h1] at hms
            refine ms.no_room hall hσ' hp' hmslen hms hl hopen' hN hbody h0 h1
              (List.mem_append_right _ (List.mem_singleton.mpr rfl)) rfl ?_
            change 8 ≤ (types j).size
            omega
          | some n =>
            simp only [Option.all_some, decide_eq_true_eq] at hn
            have hlen0 : (n.toNat : ℤ) ≠ 0 := by
              intro h0'
              simp only [withLen, Ty.held, (length_small hn).2, h0', if_true] at hh
              cases hh
            have hexact := harr.1
            have hstruct : (Ty.struct j).size σ'.types = 0 := hjzero
            have hwrap : toInt32 0 = 0 := by decide
            rw [(length_small hn).2, hstruct, zero_mul, hwrap] at hexact
            have hprod : (types j).size * (n.toNat : ℤ) = 0 := hexact.symm
            rcases mul_eq_zero.mp hprod with h' | h'
            · omega
            · exact hlen0 h'
      have hsize : 0 ≤ (withLen σ' ty len).size σ'.types ∧
          (withLen σ' ty len).size σ'.types ≤ (withLen σ' ty len).size types := by
        rcases hl'.size (known_withLen hk _ len) with heq | ⟨_, _, _, hzero⟩
        · exact ⟨heq ▸ hnn, heq.ge⟩
        · rw [hzero]
          exact ⟨le_rfl, hnn⟩
      have hfits := memberEnd_lt h0 h1 hin ((by omega : _ ≤ _).trans hend) (toInt32_lt _)
      obtain ⟨hoff, hsum, hlow, -⟩ := memberOffset_exact h0 hsize.1 hfits
      rw [hoff] at hms
      simp only [CMembers.fits, ht, Bool.and_eq_true, decide_eq_true_eq]
      refine ⟨t.fits_of_laidOut hall hσ hp htlen ht hl' hopen hsolid hN',
        ⟨⟨lenFits_of_arraysExact hl' hk hn harr, hheld⟩, hfits⟩, ?_⟩
      exact ms.fits_of_laidOut hall hσ' hp' hmslen hms hl hopen' hsolid hN hbody (by omega) hfits

end

end Complete

end XinuRpi4.Compiler
