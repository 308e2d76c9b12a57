import XinuRpi4.Compiler.EmittedCode
import XinuRpi4.Compiler.FrameLayout

/-!
# The prologue of a function

The frame record, the frame below it, and the parameters in their slots. The subtraction
that is emitted for a frame of 4096 bytes or more does not move the stack pointer.
-/

namespace XinuRpi4.Compiler

open Foundation Foundation.AArch64 Foundation.AArch64.State

/-- `v->offset` -/
def varOffset (offset : Offsets) (v : Var) : ℤ :=
  match v.place with
  | .frame id => offset id
  | .global _ => 0

/-- Where a variable of the frame begins. -/
def slotAddr (offset : Offsets) (fp : Reg64) (v : Var) : ℕ := (fp - imm64 (varOffset offset v)).toNat

/-- How many bytes of a parameter are stored. -/
def paramLen (types : ℕ → StructBody) (ty : Ty) : ℕ := if ty.size types = 1 then 1 else 8

section Addresses

variable {offset : Offsets} {fp : Reg64} {v : Var}

theorem toNat_sub_16 {a : Reg64} (h : 16 ≤ a.toNat) : (a - 16).toNat = a.toNat - 16 :=
  BitVec.toNat_sub_of_le h

theorem slotAddr_eq (h : 0 ≤ varOffset offset v) (h' : varOffset offset v ≤ fp.toNat) :
    (slotAddr offset fp v : ℤ) = fp.toNat - varOffset offset v := by
  have hfp := fp.isLt
  have himm := imm64_toNat h (by omega)
  rw [slotAddr, BitVec.toNat_sub, himm]
  omega

end Addresses

section Steps

variable {env : GenEnv} {s : AArch64.State}

/-- The frame record is pushed, and `x29` points to it. -/
theorem runs_enter : ∃ t u, Runs (emit prologueStp) s t ∧ Runs (emit movFpSp) t u ∧
    u.x 29 = s.sp - 16 ∧ u.sp = s.sp - 16 ∧ ∀ r, r ≠ 29 → u.x r = s.x r := by
  have hstp := runs_emit (s := s) decode_prologueStp
  have hmov := runs_emit (s := s.step (.stpPre 29 30 31 (-16))) decode_movFpSp
  simp only [step, regSp_31, setSp_31, setSp_of_ne (show (29 : ℕ) ≠ 31 by decide), store,
    add_imm64_neg_16, Nat.cast_zero, add_imm64_zero] at hstp hmov
  exact ⟨_, _, hstp, hmov, Function.update_self 29 _ s.x, rfl,
    fun r hr => Function.update_of_ne hr _ _⟩

/-- The stack pointer is moved by an immediate only. -/
theorem runs_genFrame {frame : ℤ} (h : 0 ≤ frame) : ∃ t, Runs (genFrame frame) s t ∧
    t.sp = (if frame ≤ 4095 then s.sp - imm64 frame else s.sp) ∧
    (∀ r, r ≠ 9 → t.x r = s.x r) ∧ t.mem = s.mem := by
  unfold genFrame
  by_cases hpos : 0 < frame
  · rw [if_pos hpos]
    by_cases hsmall : frame ≤ 4095
    · rw [if_pos hsmall, if_pos hsmall]
      have hfield : (((frame % 4096).toNat : ℕ) : ℤ) = frame := by omega
      refine ⟨_, runs_emit (decode_subImm (by decide) (by decide) frame), ?_, fun _ _ => rfl, rfl⟩
      rw [step, hfield]
      rfl
    · rw [if_neg hsmall, if_neg hsmall]
      exact ⟨_, (runs_loadimm (by decide) _).bind (runs_emit decode_subSp), rfl,
        fun r hr => Function.update_of_ne hr .., rfl⟩
  · obtain rfl : frame = 0 := by omega
    exact ⟨s, runs_pure, by simp, fun _ _ => rfl, rfl⟩

/-- One parameter is stored at the address in `x9`. -/
theorem runs_storeParam {i : ℕ} (hi : i < 9) (ty : Ty) :
    Runs (storeParam env i ty) s (s.store (paramLen env.types ty) (s.x 9) (s.x i)) := by
  unfold storeParam paramLen
  split_ifs with h
  · have hruns := runs_emit (s := s) (decode_strb (t := i) (n := X9) (by omega) (by decide))
    rwa [step, regZ_of_ne (by omega), regSp_of_ne (by decide), Nat.cast_zero, add_imm64_zero] at hruns
  · have hruns := runs_emit (s := s) (decode_str (t := i) (n := X9) (by omega) (by decide))
    rwa [step, regZ_of_ne (by omega), regSp_of_ne (by decide), Nat.cast_zero, mul_zero,
      add_imm64_zero] at hruns

end Steps

section Spill

variable {env : GenEnv} {offset : Offsets} {i : ℕ} {params : List Var} {p q : Var} {fp : Reg64}
  {s t u : AArch64.State}

/-- The parameters from `x`*i* on have been stored in their slots. -/
structure Spilled (types : ℕ → StructBody) (offset : Offsets) (i : ℕ) (params : List Var)
    (s t : AArch64.State) : Prop where
  sp : t.sp = s.sp
  regs : ∀ r, r ≠ 9 → t.x r = s.x r
  below : ∀ a, (∀ p ∈ params, a < slotAddr offset (s.x 29) p) → t.mem a = s.mem a
  args : ∀ k p, params[k]? = some p → p.ty.size types ≠ 0 →
    loadWord t.mem (paramLen types p.ty) (slotAddr offset (s.x 29) p) =
      (s.x (i + k)).toNat % 256 ^ paramLen types p.ty

/-- Of two parameters the later one has the higher slot. -/
def Descending (types : ℕ → StructBody) (offset : Offsets) (params : List Var) : Prop :=
  params.Pairwise fun p q => varOffset offset q + slotBytes types p ≤ varOffset offset p

/-- The offsets lie between the frame pointer and the lowest address. -/
def Bounded (offset : Offsets) (fp : Reg64) (params : List Var) : Prop :=
  ∀ p ∈ params, 0 ≤ varOffset offset p ∧ varOffset offset p ≤ fp.toNat

/-- The code for one parameter. -/
theorem runs_spillOne (env : GenEnv) (hi : i < 9) {p : Var} (hp : 0 ≤ varOffset offset p) :
    ∃ t u, Runs (frameAddr X9 (varOffset offset p)) s t ∧ Runs (storeParam env i p.ty) t u ∧
      u.sp = s.sp ∧ (∀ r, r ≠ 9 → u.x r = s.x r) ∧
      u.mem = storeWord s.mem (paramLen env.types p.ty) (slotAddr offset (s.x 29) p)
        (s.x i).toNat := by
  obtain ⟨t, ht, hc⟩ := runs_frameAddr (s := s) (d := X9) (by decide) hp
  have hx9 : t.x 9 = s.x 29 - imm64 (varOffset offset p) := hc.reg
  have hxi : t.x i = s.x i := hc.others i (by unfold X9; omega) (by omega)
  refine ⟨t, _, ht, runs_storeParam hi p.ty, hc.sp, fun r hr => hc.others r hr hr, ?_⟩
  rw [store, hx9, hxi, hc.mem]
  rfl

theorem slotAddr_lt (hp : 0 ≤ varOffset offset p ∧ varOffset offset p ≤ fp.toNat)
    (hq : 0 ≤ varOffset offset q ∧ varOffset offset q ≤ fp.toNat) {n : ℕ}
    (h : varOffset offset q + n ≤ varOffset offset p) :
    slotAddr offset fp p + n ≤ slotAddr offset fp q := by
  have := slotAddr_eq hp.1 hp.2
  have := slotAddr_eq hq.1 hq.2
  omega

theorem paramLen_le {types : ℕ → StructBody} (hsize : 0 ≤ p.ty.size types) (hne : p.ty.size types ≠ 0) :
    (paramLen types p.ty : ℤ) ≤ slotBytes types p := by
  have : 8 ≤ slotBytes types p := slotBytes_pos (by omega)
  unfold paramLen
  split_ifs <;> omega

/-- The parameters behind the first one have been stored above its slot. -/
theorem Spilled.cons (hi : i + (params.length + 1) ≤ 8) (hsize : 0 ≤ p.ty.size env.types)
    (hoff : Bounded offset (s.x 29) (p :: params)) (hdesc : Descending env.types offset (p :: params))
    (hsp : t.sp = s.sp) (hregs : ∀ r, r ≠ 9 → t.x r = s.x r)
    (hmem : t.mem = storeWord s.mem (paramLen env.types p.ty) (slotAddr offset (s.x 29) p)
      (s.x i).toNat)
    (h : Spilled env.types offset (i + 1) params t u) :
    Spilled env.types offset i (p :: params) s u where
  sp := h.sp.trans hsp
  regs := fun r hr => (h.regs r hr).trans (hregs r hr)
  below := by
    intro a ha
    rw [List.forall_mem_cons] at ha
    have hfp := hregs 29 (by decide)
    rw [h.below a fun q hq => by rw [hfp]; exact ha.2 q hq, hmem]
    exact storeWord_of_lt ha.1
  args := by
    have hfp := hregs 29 (by decide)
    intro k q hq hne
    cases k with
    | zero =>
      obtain rfl : p = q := Option.some.inj hq
      have hlen := paramLen_le hsize hne
      have hkept : loadWord u.mem (paramLen env.types p.ty) (slotAddr offset (s.x 29) p) =
          loadWord t.mem (paramLen env.types p.ty) (slotAddr offset (s.x 29) p) := by
        apply loadWord_congr
        intro a _ ha
        apply h.below
        intro q hq
        have hpq := (List.pairwise_cons.mp hdesc).1 q hq
        have hlt := slotAddr_lt (hoff p List.mem_cons_self) (hoff q (List.mem_cons_of_mem _ hq))
          (n := paramLen env.types p.ty) (by omega)
        rw [hfp]
        omega
      rw [hkept, hmem, loadWord_storeWord]
      rfl
    | succ k =>
      have harg := h.args k q hq hne
      have hk := (List.getElem?_eq_some_iff.mp hq).1
      rw [List.length_cons] at hk
      rw [hfp, hregs (i + 1 + k) (by omega), Nat.add_assoc, Nat.add_comm 1 k] at harg
      exact harg

/-- The parameters are stored, each in its slot. -/
theorem runs_spillParams (hi : i + params.length ≤ 8) (hsize : Sized env.types params)
    (hoff : Bounded offset (s.x 29) params) (hdesc : Descending env.types offset params) :
    ∃ t, Runs (spillParams env offset i params) s t ∧ Spilled env.types offset i params s t := by
  induction params generalizing i s with
  | nil =>
    exact ⟨s, runs_pure, rfl, fun _ _ => rfl, fun _ _ => rfl, fun k p h => by simp at h⟩
  | cons p params ih =>
    rw [List.length_cons] at hi
    obtain ⟨t, u, ht, hu, hsp, hregs, hmem⟩ := runs_spillOne env (s := s) (i := i)
      (by omega) (hoff p List.mem_cons_self).1
    obtain ⟨w, hw, hspilled⟩ := ih (i := i + 1) (s := u) (by omega) hsize.tail
      (by
        rw [hregs 29 (by decide)]
        exact fun q hq => hoff q (List.mem_cons_of_mem _ hq))
      (List.pairwise_cons.mp hdesc).2
    exact ⟨w, ht.bind (hu.bind hw),
      hspilled.cons hi (hsize p List.mem_cons_self) hoff hdesc hsp hregs hmem⟩

end Spill

section Frame

variable {env : GenEnv} {fn : Func} {s t : AArch64.State}

/-- What the parser promises of a function. -/
structure Laid (fn : Func) : Prop where
  framed : Framed fn.locals
  params : ∃ body, fn.locals = body ++ fn.params.reverse
  few : fn.params.length ≤ 8

/-- The frame in the state `t` behind the prologue of a function that is entered in `s`. -/
structure FrameOk (env : GenEnv) (fn : Func) (s t : AArch64.State) : Prop where
  fp : t.x 29 = s.sp - 16
  sp : t.sp = t.x 29 - imm64 (assignOffsets env fn.locals).1
  size : 16 ∣ (assignOffsets env fn.locals).1
  inside : ∀ v ∈ fn.locals,
    t.sp.toNat ≤ slotAddr (assignOffsets env fn.locals).2 (t.x 29) v ∧
      slotAddr (assignOffsets env fn.locals).2 (t.x 29) v + v.ty.size env.types ≤ (t.x 29).toNat
  apart : fn.locals.Pairwise fun v w =>
    slotAddr (assignOffsets env fn.locals).2 (t.x 29) w + w.ty.size env.types ≤
      slotAddr (assignOffsets env fn.locals).2 (t.x 29) v
  aligned : ∀ v ∈ fn.locals, 8 ∣ slotAddr (assignOffsets env fn.locals).2 (t.x 29) v
  args : ∀ i p, fn.params[i]? = some p → p.ty.size env.types ≠ 0 →
    loadWord t.mem (paramLen env.types p.ty)
        (slotAddr (assignOffsets env fn.locals).2 (t.x 29) p) =
      (s.x i).toNat % 256 ^ paramLen env.types p.ty
  push : ∀ u u' : AArch64.State, 16 ≤ u.sp.toNat → u.sp.toNat ≤ t.sp.toNat → Runs emitPush u u' →
    ∀ a, t.sp.toNat ≤ a → u'.mem a = u.mem a

/-- The slots are those of `assign_offsets`. -/
theorem laid_eq (hf : Framed fn.locals) (hs : Sized env.types fn.locals)
    (hlt : localBytes env.types fn.locals < 2 ^ 31 - 16) :
    laid env.types 0 fn.locals =
      fn.locals.map fun v => (v, varOffset (assignOffsets env fn.locals).2 v) := by
  have hoff := (assignOffsets_eq hf hs hlt).2
  have hmap : (laid env.types 0 fn.locals).map Prod.fst = fn.locals := map_fst_laid 0 fn.locals
  apply laid_eq_map
  intro p hp
  have hmem : p.1 ∈ fn.locals := hmap ▸ List.mem_map_of_mem hp
  obtain ⟨n, hn⟩ := hf.frame p.1 hmem
  rw [varOffset, hn]
  exact hoff p hp n hn

/-- Each slot lies in the frame, and a later variable has the lower one. -/
structure Layout (types : ℕ → StructBody) (offset : Offsets) (locals : List Var) : Prop where
  bounds : ∀ v ∈ locals, slotBytes types v ≤ varOffset offset v ∧
    varOffset offset v ≤ localBytes types locals ∧ 8 ∣ varOffset offset v
  apart : locals.Pairwise fun v w => varOffset offset v + slotBytes types w ≤ varOffset offset w

theorem assignOffsets_layout (hf : Framed fn.locals) (hs : Sized env.types fn.locals)
    (hlt : localBytes env.types fn.locals < 2 ^ 31 - 16) :
    Layout env.types (assignOffsets env fn.locals).2 fn.locals := by
  have hlaid := laid_eq hf hs hlt
  have hbounds : ∀ p ∈ laid env.types 0 fn.locals, _ := laid_bounds hs
  have hpair : (laid env.types 0 fn.locals).Pairwise _ := laid_pairwise hs
  rw [hlaid] at hbounds hpair
  constructor
  · intro v hv
    have := hbounds _ (List.mem_map_of_mem hv)
    simpa using this
  · exact List.pairwise_map.mp hpair

theorem Descending.of_layout {types : ℕ → StructBody} {offset : Offsets}
    {locals body params : List Var} (h : Layout types offset locals)
    (hbody : locals = body ++ params.reverse) : Descending types offset params := by
  subst hbody
  have hpair := (List.pairwise_append.mp h.apart).2.1
  exact List.pairwise_reverse.mp hpair

/-- The machine behind the prologue. -/
theorem runs_prologue (hfn : Laid fn) (hsize : Sized env.types fn.locals)
    (hlt : localBytes env.types fn.locals < 2 ^ 31 - 16)
    (hsp : frameBytes env.types fn.locals + 16 ≤ s.sp.toNat) :
    ∃ t, Runs (genPrologue env fn) s t ∧ t.x 29 = s.sp - 16 ∧
      t.sp = (if frameBytes env.types fn.locals ≤ 4095
        then s.sp - 16 - imm64 (frameBytes env.types fn.locals) else s.sp - 16) ∧
      ∀ i p, fn.params[i]? = some p → p.ty.size env.types ≠ 0 →
        loadWord t.mem (paramLen env.types p.ty)
            (slotAddr (assignOffsets env fn.locals).2 (t.x 29) p) =
          (s.x i).toNat % 256 ^ paramLen env.types p.ty := by
  have hframe := (assignOffsets_eq hfn.framed hsize hlt).1
  have hlayout := assignOffsets_layout hfn.framed hsize hlt
  have hround := roundUp_sixteen (localBytes env.types fn.locals)
  have hpos := localBytes_nonneg hsize
  obtain ⟨body, hbody⟩ := hfn.params
  have hmem : ∀ p ∈ fn.params, p ∈ fn.locals := fun p hp => by
    rw [hbody]
    exact List.mem_append_right _ (List.mem_reverse.mpr hp)
  obtain ⟨t₁, t₂, h₁, h₂, hfp, hsp₂, hregs₂⟩ := runs_enter (s := s)
  have hnonneg : 0 ≤ (assignOffsets env fn.locals).1 := by
    rw [hframe]
    unfold frameBytes
    omega
  obtain ⟨t₃, h₃, hsp₃, hregs₃, -⟩ := runs_genFrame (s := t₂) hnonneg
  have hfp₃ : t₃.x 29 = s.sp - 16 := (hregs₃ 29 (by decide)).trans hfp
  have hbounded : Bounded (assignOffsets env fn.locals).2 (t₃.x 29) fn.params := by
    intro p hp
    have hbounds := hlayout.bounds p (hmem p hp)
    have hslot := slotBytes_nonneg (hsize p (hmem p hp))
    have hnat := toNat_sub_16 (a := s.sp) (by unfold frameBytes at hsp; omega)
    unfold frameBytes at hsp
    rw [hfp₃, hnat]
    omega
  obtain ⟨t, ht, hspilled⟩ := runs_spillParams (i := 0) (by have := hfn.few; omega)
    (fun p hp => hsize p (hmem p hp)) hbounded (Descending.of_layout hlayout hbody)
  refine ⟨t, h₁.bind (h₂.bind (h₃.bind ht)), (hspilled.regs 29 (by decide)).trans hfp₃, ?_, ?_⟩
  · rw [hspilled.sp, hsp₃, hframe, hsp₂]
  · intro i p hp hne
    have hi := (List.getElem?_eq_some_iff.mp hp).1
    have hfew := hfn.few
    have harg := hspilled.args i p hp hne
    rw [Nat.zero_add, hregs₃ i (by omega), hregs₂ i (by omega)] at harg
    rw [hspilled.regs 29 (by decide)]
    exact harg

/-- A push writes below the stack pointer. -/
theorem push_below {a : ℕ} (h : 16 ≤ s.sp.toNat) (hpush : Runs emitPush s t) (ha : s.sp.toNat ≤ a) :
    t.mem a = s.mem a := by
  obtain rfl := hpush.unique (runs_emit decode_push)
  have hnat := toNat_sub_16 h
  rw [step_push]
  exact storeWord_of_le (by omega)

/-- What the layout says of a frame below which the stack pointer lies. -/
theorem frameOk_of_layout (hsize : Sized env.types fn.locals)
    (hlayout : Layout env.types (assignOffsets env fn.locals).2 fn.locals)
    (hframe : (assignOffsets env fn.locals).1 = frameBytes env.types fn.locals)
    (hsp : frameBytes env.types fn.locals + 32 ≤ s.sp.toNat) (halign : 16 ∣ s.sp.toNat)
    (hfp : t.x 29 = s.sp - 16) (htsp : t.sp = s.sp - 16 - imm64 (frameBytes env.types fn.locals))
    (hargs : ∀ i p, fn.params[i]? = some p → p.ty.size env.types ≠ 0 →
      loadWord t.mem (paramLen env.types p.ty)
          (slotAddr (assignOffsets env fn.locals).2 (t.x 29) p) =
        (s.x i).toNat % 256 ^ paramLen env.types p.ty) : FrameOk env fn s t := by
  have hround := roundUp_sixteen (localBytes env.types fn.locals)
  have hpos := localBytes_nonneg hsize
  have hbytes : frameBytes env.types fn.locals = roundUp (localBytes env.types fn.locals) 16 := rfl
  have hfpnat : (t.x 29).toNat = s.sp.toNat - 16 := by
    rw [hfp]
    exact toNat_sub_16 (by omega)
  have hslot : ∀ v ∈ fn.locals, (slotAddr (assignOffsets env fn.locals).2 (t.x 29) v : ℤ) =
      (t.x 29).toNat - varOffset (assignOffsets env fn.locals).2 v := by
    intro v hv
    have hbounds := hlayout.bounds v hv
    have := slotBytes_nonneg (hsize v hv)
    exact slotAddr_eq (by omega) (by omega)
  have hle : ∀ v, v.ty.size env.types ≤ slotBytes env.types v := fun v => (roundUp_eight _).1
  have hspnat : (t.sp.toNat : ℤ) = (t.x 29).toNat - frameBytes env.types fn.locals := by
    have hs := s.sp.isLt
    have himm : (imm64 (frameBytes env.types fn.locals)).toNat =
        (frameBytes env.types fn.locals).toNat := imm64_toNat (by omega) (by omega)
    rw [htsp, ← hfp, BitVec.toNat_sub, himm]
    omega
  constructor
  · exact hfp
  · rw [htsp, hfp, hframe]
  · rw [hframe]
    exact hround.2.2
  · intro v hv
    have hbounds := hlayout.bounds v hv
    have := hslot v hv
    have := hle v
    omega
  · refine hlayout.apart.imp_of_mem fun {v w} hv hw hvw => ?_
    have := hslot v hv
    have := hslot w hw
    have := hle w
    omega
  · intro v hv
    have hbounds := hlayout.bounds v hv
    have := hslot v hv
    omega
  · exact hargs
  · intro u u' hu hut hpush a ha
    exact push_below hu hpush (hut.trans ha)

/-- For a larger frame the stack pointer stays where the frame record is. -/
theorem not_frameOk_of_large (hlarge : ¬ frameBytes env.types fn.locals ≤ 4095)
    (hlt : frameBytes env.types fn.locals < 2 ^ 31)
    (hframe : (assignOffsets env fn.locals).1 = frameBytes env.types fn.locals)
    (hfp : t.x 29 = s.sp - 16) (htsp : t.sp = s.sp - 16) : ¬ FrameOk env fn s t := by
  intro h
  have himm : (imm64 (frameBytes env.types fn.locals)).toNat =
        (frameBytes env.types fn.locals).toNat := imm64_toNat (by omega) (by omega)
  have hmoved := h.sp
  rw [htsp, hfp, hframe] at hmoved
  have hnat := congrArg BitVec.toNat hmoved
  have hsp := (s.sp - 16).isLt
  rw [BitVec.toNat_sub (s.sp - 16), himm] at hnat
  omega

/-- The frame is right if and only if it fits into the immediate of a subtraction. -/
theorem frame_correct_iff (env : GenEnv) (fn : Func) (s : AArch64.State) (stack : ℕ)
    (hfn : Laid fn) (hsize : Sized env.types fn.locals)
    (hstack : frameBytes env.types fn.locals + 32 ≤ stack) (hint : stack < 2 ^ 31)
    (hsp : stack ≤ s.sp.toNat) (halign : 16 ∣ s.sp.toNat) :
    ∃ t, Runs (genPrologue env fn) s t ∧
      (FrameOk env fn s t ↔ frameBytes env.types fn.locals ≤ 4095) := by
  have hlt : localBytes env.types fn.locals < 2 ^ 31 - 16 := by
    have := (roundUp_sixteen (localBytes env.types fn.locals)).1
    unfold frameBytes at hstack
    omega
  have hframe := (assignOffsets_eq hfn.framed hsize hlt).1
  obtain ⟨t, ht, hfp, htsp, hargs⟩ := runs_prologue (s := s) hfn hsize hlt (by omega)
  refine ⟨t, ht, fun h => ?_, fun h => ?_⟩
  · by_contra hlarge
    rw [if_neg hlarge] at htsp
    exact not_frameOk_of_large hlarge (by omega) hframe hfp htsp h
  · rw [if_pos h] at htsp
    exact frameOk_of_layout hsize (assignOffsets_layout hfn.framed hsize hlt) hframe (by omega)
      halign hfp htsp hargs

/-- A machine whose stack begins at an address. -/
def machineAt (sp : ℕ) : AArch64.State where
  x := fun _ => 0
  sp := BitVec.ofNat 64 sp
  mem := fun _ => 0
  stores := []

/-- `int twice(int n) { char c; return n; }` -/
def smallFrame : Func where
  name := "twice"
  ret := .int
  params := [{ name := "n", ty := .int, place := .frame 0 }]
  locals := [{ name := "c", ty := .char, place := .frame 48 },
    { name := "n", ty := .int, place := .frame 0 }]
  body := .block (.cons (.block .nil)
    (.cons (.ret (.var { name := "n", ty := .int, place := .frame 0 })) .nil))

theorem smallFrame_laid : Laid smallFrame where
  framed := ⟨by simp [smallFrame], by decide⟩
  params := ⟨[{ name := "c", ty := .char, place := .frame 48 }], rfl⟩
  few := by decide

theorem frame_correct_smallFrame : ∃ t, Runs (genPrologue (loneProgram smallFrame) smallFrame)
    (machineAt 65536) t ∧ (FrameOk (loneProgram smallFrame) smallFrame (machineAt 65536) t ↔
      frameBytes (loneProgram smallFrame).types smallFrame.locals ≤ 4095) :=
  frame_correct_iff (loneProgram smallFrame) smallFrame (machineAt 65536) 65536 smallFrame_laid
    (by decide) (by decide) (by decide) (by decide) (by decide)

/-- `int main() { int a[512]; return 0; }` -/
def largeFrame : Func where
  name := "main"
  ret := .int
  params := []
  locals := [{ name := "a", ty := .array .int 512 4096, place := .frame 0 }]
  body := .block (.cons (.block .nil) (.cons (.ret (.num 0)) .nil))

theorem largeFrame_laid : Laid largeFrame where
  framed := ⟨by simp [largeFrame], by decide⟩
  params := ⟨largeFrame.locals, rfl⟩
  few := by decide

/-- An array of 512 words lies below the stack pointer. -/
theorem frame_lost_largeFrame : frameBytes (loneProgram largeFrame).types largeFrame.locals = 4096 ∧
    ∃ t, Runs (genPrologue (loneProgram largeFrame) largeFrame) (machineAt 65536) t ∧
      ¬ FrameOk (loneProgram largeFrame) largeFrame (machineAt 65536) t := by
  have hbytes : frameBytes (loneProgram largeFrame).types largeFrame.locals = 4096 := by decide
  have hsize : Sized (loneProgram largeFrame).types largeFrame.locals := by decide
  have hlt : localBytes (loneProgram largeFrame).types largeFrame.locals < 2 ^ 31 - 16 := by decide
  have hframe := (assignOffsets_eq largeFrame_laid.framed hsize hlt).1
  obtain ⟨t, ht, hfp, htsp, -⟩ := runs_prologue (s := machineAt 65536) largeFrame_laid hsize hlt
    (by decide)
  rw [if_neg (by rw [hbytes]; decide)] at htsp
  exact ⟨hbytes, t, ht, not_frameOk_of_large (by rw [hbytes]; decide) (by rw [hbytes]; decide)
    hframe hfp htsp⟩

end Frame

end XinuRpi4.Compiler
