import XinuRpi4.Compiler.Prologue

/-!
# Assignments to typed objects

The code of an assignment between and behind the code of its operands: the offsets of a
chain of members are added to the address of its base, the address is pushed, and the value
is stored where it points. The code of the base and of the right side may be anything that
leaves the address, the value and the stack as it should.
-/

namespace XinuRpi4.Compiler

open Foundation Foundation.AArch64 Foundation.AArch64.State

section Chains

/-- What a chain of members is a part of. -/
def Expr.chainBase : Expr → Expr
  | .member lhs _ _ => lhs.chainBase
  | e => e

/-- The offsets of a chain of members, from the base on. -/
def Expr.chainOffsets : Expr → List ℤ
  | .member lhs off _ => lhs.chainOffsets ++ [off]
  | _ => []

/-- The words that add offsets to `x0`. -/
def memberWords (offs : List ℤ) : List (BitVec 32) := (offs.filter (· ≠ 0)).map (addImm 0 0)

variable {env : GenEnv} {offset : Offsets}

theorem memberWords_append (offs offs' : List ℤ) :
    memberWords (offs ++ offs') = memberWords offs ++ memberWords offs' := by
  simp [memberWords]

theorem emits_addMemberOffset (off : ℤ) : Emits (addMemberOffset off) (memberWords [off]) := by
  unfold addMemberOffset
  by_cases h : off = 0
  · rw [if_pos h]
    simpa [memberWords, h] using emits_pure
  · rw [if_neg h]
    simpa [memberWords, h] using emits_emit (addImm 0 0 off)

/-- The offsets are added behind the code of the base. -/
theorem genAddr_chain (l : Expr) (w : WalkState) : genAddr env offset l w =
    ((), (genAddr env offset l.chainBase w).2.1, (genAddr env offset l.chainBase w).2.2 ++
      (memberWords l.chainOffsets).map Line.word) := by
  fun_induction Expr.chainBase l with
  | case1 lhs off ty ih =>
    have hbind : genAddr env offset (.member lhs off ty) w =
        Walk.bind (genAddr env offset lhs) (fun _ => addMemberOffset off) w := by
      rw [genAddr]
      rfl
    rw [hbind, Walk.bind, ih]
    dsimp only
    rw [emits_addMemberOffset off, Expr.chainOffsets, memberWords_append, List.map_append,
      List.append_assoc]
  | case2 e hne =>
    have hnil : e.chainOffsets = [] := by
      rw [Expr.chainOffsets]
      exact hne
    rw [hnil]
    simp [memberWords]

/-- The words between the code of the base and the code of the right side. -/
def addressWords (l : Expr) : List (BitVec 32) := memberWords l.chainOffsets ++ [0xF81F0FE0]

/-- The words behind the code of the right side. -/
def storeWords (env : GenEnv) (ty : Ty) : List (BitVec 32) :=
  [0xF84107E0#32 ||| reg 1, if ty.size env.types = 1 then strbWord 0 1 else strWord 0 1]

theorem emits_genStore (ty : Ty) : Emits (genStore env ty)
    [if ty.size env.types = 1 then strbWord 0 1 else strWord 0 1] := by
  unfold genStore
  split_ifs
  · exact emits_emit _
  · exact emits_emit _

/-- The code of an assignment: base, offsets, right side, store. -/
theorem genExpr_assign (l r : Expr) (ty : Ty) {w : WalkState} (h : w.err = none) :
    (genExpr env offset (.assign l r ty) w).2.2 =
      (genAddr env offset l.chainBase w).2.2 ++ (addressWords l).map Line.word ++
        (genExpr env offset r (genAddr env offset l.chainBase w).2.1).2.2 ++
          (storeWords env l.ty).map Line.word := by
  have hbind : genExpr env offset (.assign l r ty) w = Walk.bind (genAddr env offset l)
      (fun _ => Walk.bind emitPush fun _ => Walk.bind (genExpr env offset r) fun _ =>
        Walk.bind (emitPop 1) fun _ => genStore env l.ty) w := by
    rw [genExpr, unlessFailed, h]
    rfl
  rw [hbind, Walk.bind, genAddr_chain]
  simp only [Walk.bind, emitPush, emitPop, emits_emit _ _, emits_genStore l.ty _]
  simp [addressWords, storeWords]

end Chains

section Machine

variable {env : GenEnv} {s u : AArch64.State}

/-- An offset is added up to its low 12 bits. -/
theorem run_memberWords (offs : List ℤ) : s.run (memberWords offs) =
    some { s with x := Function.update s.x 0 (s.x 0 + imm64 (offs.map (· % 4096)).sum) } := by
  induction offs generalizing s with
  | nil =>
    rw [List.map_nil, List.sum_nil, add_imm64_zero, Function.update_eq_self]
    rfl
  | cons off offs ih =>
    rw [List.map_cons, List.sum_cons]
    by_cases h : off = 0
    · have hwords : memberWords (off :: offs) = memberWords offs := by simp [memberWords, h]
      rw [hwords, ih, h, Int.zero_emod, zero_add]
    · have hwords : memberWords (off :: offs) = addImm 0 0 off :: memberWords offs := by
        simp [memberWords, h]
      have hfield : (((off % 4096).toNat : ℕ) : ℤ) = off % 4096 := by omega
      rw [hwords, run_cons (decode_addImm (by decide) (by decide) off), ih, step, hfield,
        regSp_of_ne (by decide), setSp_of_ne (by decide)]
      dsimp only
      rw [Function.update_self, Function.update_idem, add_imm64_add]

/-- The address is popped, and the value is stored where it points. -/
theorem run_storeWords (env : GenEnv) (u : AArch64.State) (ty : Ty) : u.run (storeWords env ty) =
    some (({ u with x := Function.update u.x 1 (u.load 8 u.sp), sp := u.sp + imm64 16 } :
      AArch64.State).store (if ty.size env.types = 1 then 1 else 8) (u.load 8 u.sp) (u.x 0)) := by
  have hpop : u.step (.ldrPost 1 31 16) =
      { u with x := Function.update u.x 1 (u.load 8 u.sp), sp := u.sp + imm64 16 } := rfl
  rw [storeWords, run_cons decode_pop, hpop]
  generalize u.load 8 u.sp = a
  split_ifs
  · rw [run_cons (decode_strb (by decide) (by decide)), step, Nat.cast_zero, add_imm64_zero]
    rfl
  · rw [run_cons (decode_str (by decide) (by decide)), step, Nat.cast_zero, mul_zero, add_imm64_zero]
    rfl

/-- The code in front of the right side leaves the address on the stack. -/
theorem run_addressWords (l : Expr) : ∃ t, s.run (addressWords l) = some t ∧ t.sp = s.sp - 16 ∧
    t.load 8 t.sp = s.x 0 + imm64 (l.chainOffsets.map (· % 4096)).sum := by
  have hrun := run_append_of_eq (run_memberWords (s := s) l.chainOffsets) [0xF81F0FE0]
  rw [run_cons decode_push, step_push] at hrun
  exact ⟨_, hrun, rfl, load_store_self (BitVec.isLt _)⟩

end Machine

section Meaning

/-- Where a variable is. -/
def objectAddr (offset : Offsets) (s : AArch64.State) (x : Var) : Reg64 :=
  match x.place with
  | .global gaddr => BitVec.ofNat 64 gaddr
  | .frame n => s.x 29 - imm64 (offset n)

/-- The value as an object of `n` bytes holds it. -/
def converted (n : ℕ) (v : Reg64) : Reg64 := BitVec.ofNat 64 (v.toNat % 256 ^ n)

/-- From `u` to `t` the value `v` has been assigned to the object of type `ty` at `a`. -/
structure Assigned (env : GenEnv) (ty : Ty) (a v : Reg64) (u t : AArch64.State) : Prop where
  stores : t.stores = (a.toNat, (ty.size env.types).toNat) :: u.stores
  others : ∀ b, b < a.toNat ∨ a.toNat + (ty.size env.types).toNat ≤ b → t.mem b = u.mem b
  value : t.x 0 = converted (ty.size env.types).toNat v
  read : ∀ s : AArch64.State, s.mem = t.mem → s.x 0 = a → ∃ t', Runs (genLoad env ty) s t' ∧
    t'.x 0 = converted (ty.size env.types).toNat v

/-- The code of `l = e` assigns `v` to `l` if it is the value of `e`. -/
structure AssignCorrect (env : GenEnv) (offset : Offsets) (l : Expr) (v : Reg64) : Prop where
  base : ∀ x, l.chainBase = .var x → ∀ s, ∃ t, Runs (varAddr offset x) s t ∧
    t.x 0 = objectAddr offset s x
  /-- `s` is the state behind the code of the base, `u` the one behind the code of `e`. -/
  store : ∀ s : AArch64.State, ∃ t, s.run (addressWords l) = some t ∧ t.sp = s.sp - 16 ∧
    t.load 8 t.sp = s.x 0 + imm64 l.chainOffsets.sum ∧
    ∀ u : AArch64.State, u.sp = t.sp → u.load 8 u.sp = t.load 8 t.sp → u.x 0 = v →
      ∃ t', u.run (storeWords env l.ty) = some t' ∧ t'.sp = s.sp ∧
        Assigned env l.ty (s.x 0 + imm64 l.chainOffsets.sum) v u t'

/-- Words, characters in their range, and offsets of 12 bits. -/
structure Storable (env : GenEnv) (l : Expr) (v : Reg64) : Prop where
  whole : ∀ b n size, l.ty ≠ .array b n size
  offsets : (2 : ℤ) ^ 52 ∣ (l.chainOffsets.map (· / 4096)).sum
  size : l.ty.size env.types = 8 ∨ l.ty.size env.types = 1 ∧ v.toNat < 256

variable {env : GenEnv} {offset : Offsets} {s t u : AArch64.State} {a v : Reg64} {ty : Ty}

theorem sum_offsets (offs : List ℤ) :
    offs.sum = (offs.map (· % 4096)).sum + 4096 * (offs.map (· / 4096)).sum := by
  induction offs with
  | nil => rfl
  | cons off offs ih =>
    simp only [List.sum_cons, List.map_cons]
    omega

/-- The low 12 bits of the offsets are all of them. -/
theorem offsets_iff (a : Reg64) (offs : List ℤ) :
    a + imm64 (offs.map (· % 4096)).sum = a + imm64 offs.sum ↔
      (2 : ℤ) ^ 52 ∣ (offs.map (· / 4096)).sum := by
  have hsum := sum_offsets offs
  rw [BitVec.add_right_inj, ← BitVec.toNat_inj, BitVec.toNat_ofInt, BitVec.toNat_ofInt, hsum]
  generalize (offs.map (· % 4096)).sum = low
  generalize (offs.map (· / 4096)).sum = high
  omega

theorem runs_varAddr {x : Var} (h : 0 ≤ varOffset offset x) :
    ∃ t, Runs (varAddr offset x) s t ∧ t.x 0 = objectAddr offset s x := by
  unfold varAddr objectAddr
  unfold varOffset at h
  cases hplace : x.place with
  | global gaddr => exact ⟨_, runs_loadimm (by decide) _, Function.update_self 0 _ s.x⟩
  | frame n =>
    rw [hplace] at h
    obtain ⟨t, ht, hc⟩ := runs_frameAddr (s := s) (d := 0) (by decide) h
    exact ⟨t, ht, hc.reg⟩

theorem converted_of_lt {n : ℕ} (h : v.toNat < 256 ^ n) : converted n v = v := by
  rw [converted, Nat.mod_eq_of_lt h, BitVec.ofNat_toNat, BitVec.setWidth_eq]

/-- What was stored is read back. -/
theorem runs_genLoad (hty : ∀ b n size, ty ≠ .array b n size)
    (hsize : ty.size env.types = 8 ∨ ty.size env.types = 1) (ha : s.x 0 = a) :
    ∃ t, Runs (genLoad env ty) s t ∧ t.x 0 = s.load (ty.size env.types).toNat a := by
  have hload : genLoad env ty =
      if ty.size env.types = 1 then emit (ldrbWord 0 0) else emit (ldrWord 0 0) := by
    cases ty with
    | array b n size => exact absurd rfl (hty b n size)
    | int => rfl
    | char => rfl
    | ptr b => rfl
    | struct n => rfl
  rw [hload]
  split_ifs with h
  · refine ⟨_, runs_emit (decode_ldrb (by decide) (by decide)), ?_⟩
    rw [step, Nat.cast_zero, add_imm64_zero, regSp_of_ne (by decide), setZ_of_ne (by decide), ha, h]
    exact Function.update_self 0 _ s.x
  · refine ⟨_, runs_emit (decode_ldr (by decide) (by decide)), ?_⟩
    rw [step, Nat.cast_zero, mul_zero, add_imm64_zero, regSp_of_ne (by decide),
      setZ_of_ne (by decide), ha, hsize.resolve_right h]
    exact Function.update_self 0 _ s.x

theorem load_congr {n : ℕ} (h : s.mem = t.mem) : s.load n a = t.load n a := by
  rw [load, load, h]

theorem load_store (n : ℕ) : (u.store n a v).load n a = converted n v := by
  rw [load, store, loadWord_storeWord, converted]

/-- A word or a character in its range is assigned. -/
theorem storeWords_assigned (hwhole : ∀ b n size, ty ≠ .array b n size)
    (hsize : ty.size env.types = 8 ∨ ty.size env.types = 1 ∧ v.toNat < 256)
    (ha : u.load 8 u.sp = a) (hv : u.x 0 = v) : ∃ t, u.run (storeWords env ty) = some t ∧
      t.sp = u.sp + imm64 16 ∧ Assigned env ty a v u t := by
  have hlen : (if ty.size env.types = 1 then 1 else 8) = (ty.size env.types).toNat := by
    obtain h | ⟨h, -⟩ := hsize
    · rw [h]
      rfl
    · rw [h]
      rfl
  have hconv : converted (ty.size env.types).toNat v = v := by
    apply converted_of_lt
    obtain h | ⟨h, hlt⟩ := hsize
    · rw [h]
      exact v.isLt
    · rw [h]
      exact hlt
  have hrun := run_storeWords env u ty
  rw [hlen, ha, hv] at hrun
  refine ⟨_, hrun, rfl, rfl, ?_, ?_, ?_⟩
  · rintro b (hb | hb)
    · exact storeWord_of_lt hb
    · exact storeWord_of_le hb
  · rw [hconv, store]
    exact (Function.update_of_ne zero_ne_one a u.x).trans hv
  · intro s hs hx
    obtain ⟨t, ht, hval⟩ := @runs_genLoad env s a ty hwhole (hsize.imp id And.left) hx
    refine ⟨t, ht, hval.trans ((load_congr hs).trans (load_store _))⟩

/-- What a register holds behind a stored value. -/
theorem run_storeWords_value {t' : AArch64.State} (hv : u.x 0 = v)
    (h : u.run (storeWords env ty) = some t') :
    t'.x 0 = v ∧ t'.stores = ((u.load 8 u.sp).toNat, if ty.size env.types = 1 then 1 else 8) :: u.stores := by
  rw [run_storeWords] at h
  obtain rfl := Option.some.inj h
  exact ⟨(Function.update_of_ne zero_ne_one (u.load 8 u.sp) u.x).trans hv, rfl⟩

theorem Assigned.size {t' : AArch64.State} (hv : u.x 0 = v)
    (hrun : u.run (storeWords env ty) = some t') (h : Assigned env ty a v u t') :
    ty.size env.types = 8 ∨ ty.size env.types = 1 ∧ v.toNat < 256 := by
  obtain ⟨hx, hstores⟩ := run_storeWords_value hv hrun
  have hlen := h.stores
  rw [hstores, List.cons.injEq, Prod.mk.injEq] at hlen
  by_cases hone : ty.size env.types = 1
  · right
    have hval := h.value
    rw [hx, hone] at hval
    have hnat := congrArg BitVec.toNat hval
    have hpow : 256 ^ (1 : ℤ).toNat = 256 := rfl
    rw [converted, BitVec.toNat_ofNat, hpow] at hnat
    exact ⟨hone, by omega⟩
  · left
    rw [if_neg hone] at hlen
    omega

end Meaning

section Claims

variable {env : GenEnv} {offset : Offsets} {l : Expr} {v : Reg64}

/-- A state whose `x0` holds `a`. -/
def holding (a : Reg64) : AArch64.State where
  x := fun _ => a
  sp := 0
  mem := fun _ => 0
  stores := []

/-- An address that is not the value shows which objects are read back. -/
theorem AssignCorrect.storable (h : AssignCorrect env offset l v) : Storable env l v := by
  have hbase : v + 1 - imm64 l.chainOffsets.sum + imm64 l.chainOffsets.sum = v + 1 :=
    BitVec.sub_add_cancel _ _
  obtain ⟨t, ht, -, haddr, hstore⟩ := h.store (holding (v + 1 - imm64 l.chainOffsets.sum))
  obtain ⟨t₁, ht₁, -, haddr₁⟩ := run_addressWords (s := holding (v + 1 - imm64 l.chainOffsets.sum)) l
  obtain rfl := Option.some.inj (ht₁.symm.trans ht)
  obtain ⟨t', ht', -, hassigned⟩ := hstore { t₁ with x := Function.update t₁.x 0 v } rfl rfl
    (Function.update_self 0 v t₁.x)
  constructor
  · intro b n size hty
    obtain ⟨t₂, ht₂, hval⟩ := hassigned.read { t' with x := fun _ => v + 1 } rfl hbase.symm
    rw [hty] at ht₂
    obtain rfl := ht₂.unique runs_pure
    have hne : v + 1 = v := hval.trans (hassigned.value.symm.trans
      (run_storeWords_value (Function.update_self 0 v t₁.x) ht').1)
    have hnat := congrArg BitVec.toNat hne
    rw [BitVec.toNat_add] at hnat
    have hv := v.isLt
    have hone : (1 : Reg64).toNat = 1 := rfl
    omega
  · exact (offsets_iff _ _).mp (haddr₁.symm.trans haddr)
  · exact hassigned.size (Function.update_self 0 v t₁.x) ht'

theorem Storable.correct (h : Storable env l v)
    (hoff : ∀ x, l.chainBase = .var x → 0 ≤ varOffset offset x) : AssignCorrect env offset l v := by
  constructor
  · intro x hx s
    exact runs_varAddr (hoff x hx)
  · intro s
    obtain ⟨t, ht, hsp, haddr⟩ := run_addressWords (s := s) l
    rw [(offsets_iff (s.x 0) l.chainOffsets).mpr h.offsets] at haddr
    refine ⟨t, ht, hsp, haddr, fun u husp hu hv => ?_⟩
    obtain ⟨t', ht', hsp', hassigned⟩ := storeWords_assigned h.whole h.size
      (hu.trans haddr) hv
    refine ⟨t', ht', ?_, hassigned⟩
    rw [hsp', husp, hsp]
    exact BitVec.sub_add_cancel s.sp 16

/-- The code of an assignment does what it should if and only if the object is a word, or a
character that is assigned a character, at offsets of 12 bits. -/
theorem assign_correct_iff (env : GenEnv) (offset : Offsets) (l : Expr) (v : Reg64)
    (hoff : ∀ x, l.chainBase = .var x → 0 ≤ varOffset offset x) :
    (∀ r ty w, w.err = none → (genExpr env offset (.assign l r ty) w).2.2 =
      (genAddr env offset l.chainBase w).2.2 ++ (addressWords l).map Line.word ++
        (genExpr env offset r (genAddr env offset l.chainBase w).2.1).2.2 ++
          (storeWords env l.ty).map Line.word) ∧
      (AssignCorrect env offset l v ↔ Storable env l v) :=
  ⟨fun r ty _ h => genExpr_assign l r ty h, AssignCorrect.storable, fun h => h.correct hoff⟩

/-- `int n;` in a frame -/
def intVar : Var where
  name := "n"
  ty := .int
  place := .frame 0

theorem assign_correct_intVar :
    (∀ r ty w, w.err = none →
      (genExpr (loneProgram smallFrame) (fun _ => 8) (.assign (.var intVar) r ty) w).2.2 =
        (genAddr (loneProgram smallFrame) (fun _ => 8) (Expr.var intVar).chainBase w).2.2 ++
          (addressWords (.var intVar)).map Line.word ++
          (genExpr (loneProgram smallFrame) (fun _ => 8) r
            (genAddr (loneProgram smallFrame) (fun _ => 8) (Expr.var intVar).chainBase w).2.1).2.2 ++
            (storeWords (loneProgram smallFrame) (Expr.var intVar).ty).map Line.word) ∧
      (AssignCorrect (loneProgram smallFrame) (fun _ => 8) (.var intVar) 5 ↔
        Storable (loneProgram smallFrame) (.var intVar) 5) :=
  assign_correct_iff (loneProgram smallFrame) (fun _ => 8) (.var intVar) 5 fun x hx => by
    rw [Expr.chainBase, Expr.var.injEq] at hx
    · subst hx
      decide
    · exact fun _ _ _ h => nomatch h

/-- `struct pair { int a; int b; } p;` in a frame -/
def pairVar : Var where
  name := "p"
  ty := .struct 0
  place := .frame 0

/-- A program with one struct type, of 16 bytes. -/
def pairProgram : GenEnv := { loneProgram smallFrame with
  types := fun _ =>
    { members := [{ name := "a", ty := .int, offset := 0 }, { name := "b", ty := .int, offset := 8 }]
      size := 16 } }

/-- Of a struct of two words the first one is assigned. -/
theorem assign_half_pairVar : ¬ AssignCorrect pairProgram (fun _ => 16) (.var pairVar) 7 := by
  intro h
  obtain hsize | ⟨hsize, -⟩ := h.storable.size
  · exact absurd hsize (by decide)
  · exact absurd hsize (by decide)

end Claims

end XinuRpi4.Compiler
