import XinuRpi4.Compiler.Instructions

/-!
# What emitted code does

Parts of the walk that emit words only, and the effect of these words on the machine. An
address is computed in one register, with `x9` for what does not fit into an instruction.
-/

namespace XinuRpi4.Compiler

open Foundation Foundation.AArch64 Foundation.AArch64.State

/-- In each state of the generator, exactly these words are emitted. -/
def Emits (p : Walk Unit) (ws : List (BitVec 32)) : Prop := ∀ s, p s = ((), s, ws.map Line.word)

/-- The code that is emitted takes the machine from `s` to `t`. -/
def Runs (p : Walk Unit) (s t : AArch64.State) : Prop := ∃ ws, Emits p ws ∧ s.run ws = some t

section Rules

variable {p q : Walk Unit} {ws ws' : List (BitVec 32)} {s t u : AArch64.State}

theorem emits_pure : Emits (return ()) [] := fun _ => rfl

theorem emits_emit (w : BitVec 32) : Emits (emit w) [w] := fun _ => rfl

theorem Emits.bind (hp : Emits p ws) (hq : Emits q ws') : Emits (p >>= fun _ => q) (ws ++ ws') := by
  intro s
  change Walk.bind p (fun _ => q) s = _
  rw [Walk.bind, hp s]
  dsimp only
  rw [hq s, List.map_append]

/-- The words do not depend on anything else. -/
theorem Emits.unique (h : Emits p ws) (h' : Emits p ws') : ws = ws' := by
  have hlines : ws.map Line.word = ws'.map Line.word :=
    congrArg (fun r => r.2.2) ((h .start).symm.trans (h' .start))
  exact List.map_injective_iff.mpr (fun _ _ => Line.word.inj) hlines

theorem runs_pure : Runs (return ()) s s := ⟨[], emits_pure, rfl⟩

theorem runs_emit {w : BitVec 32} {i : Instr} (h : decode w = some i) : Runs (emit w) s (s.step i) :=
  ⟨[w], emits_emit w, run_cons h []⟩

theorem Runs.bind (hp : Runs p s t) (hq : Runs q t u) : Runs (p >>= fun _ => q) s u := by
  obtain ⟨ws, hws, hs⟩ := hp
  obtain ⟨ws', hws', ht⟩ := hq
  exact ⟨ws ++ ws', hws.bind hws', by rw [run_append_of_eq hs, ht]⟩

/-- The code determines the state behind it. -/
theorem Runs.unique (h : Runs p s t) (h' : Runs p s u) : t = u := by
  obtain ⟨ws, hws, ht⟩ := h
  obtain ⟨ws', hws', hu⟩ := h'
  obtain rfl := hws.unique hws'
  exact Option.some.inj (ht.symm.trans hu)

end Rules

section Registers

variable {s : AArch64.State} {d : ℕ}

theorem add_imm64_neg_16 (a : Reg64) : a + imm64 (-16) = a - 16 := by
  rw [BitVec.sub_eq_add_neg]
  rfl

/-- `x0` is pushed into a slot of 16 bytes. -/
theorem step_push : s.step (.strPre 0 31 (-16)) =
    { s.store 8 (s.sp - 16) (s.x 0) with sp := s.sp - 16 } := by
  rw [step, regSp_31, setSp_31, add_imm64_neg_16]
  rfl

/-- A constant is loaded. -/
theorem runs_loadimm (hd : d < 31) (v : Word) :
    Runs (emitLoadimm d v) s { s with x := Function.update s.x d v } := by
  have hmovz := runs_emit (s := s) (decode_movz (d := d) (by omega) v)
  have hmovk (s : AArch64.State) {i : ℕ} (hi : i < 4) :=
    runs_emit (s := s) (decode_movk (d := d) (by omega) hi v)
  have hne : d ≠ 31 := by omega
  have hruns := hmovz.bind ((hmovk _ (i := 1) (by omega)).bind
    ((hmovk _ (i := 2) (by omega)).bind (hmovk _ (i := 3) (by omega))))
  have hhalves := insertHalf_halves v
  simp only [step, setZ_of_ne hne, regZ_of_ne hne, Function.update_self, Function.update_idem,
    Nat.mul_zero, pow_zero, Nat.mul_one] at hruns
  rw [hhalves] at hruns
  exact hruns

/-- Register `d` holds `v`; nothing else has changed but `x9`. -/
structure Computes (s t : AArch64.State) (d : ℕ) (v : Reg64) : Prop where
  reg : t.x d = v
  others : ∀ r, r ≠ d → r ≠ 9 → t.x r = s.x r
  sp : t.sp = s.sp
  mem : t.mem = s.mem
  stores : t.stores = s.stores

theorem computes_update {v w : Reg64} :
    Computes s { s with x := Function.update (Function.update s.x 9 w) d v } d v where
  reg := Function.update_self ..
  others := fun r hd h9 => by
    change Function.update (Function.update s.x 9 w) d v r = _
    rw [Function.update_of_ne hd, Function.update_of_ne h9]
  sp := rfl
  mem := rfl
  stores := rfl

theorem computes_update_self {v : Reg64} :
    Computes s { s with x := Function.update s.x d v } d v where
  reg := Function.update_self ..
  others := fun _ hd _ => Function.update_of_ne hd ..
  sp := rfl
  mem := rfl
  stores := rfl

theorem imm64_toNat {off : ℤ} (h : 0 ≤ off) (h' : off < 2 ^ 64) : (imm64 off).toNat = off.toNat := by
  rw [BitVec.toNat_ofInt]
  omega

/-- The address of a variable of the frame, whatever its offset. -/
theorem runs_frameAddr (hd : d < 29) {off : ℤ} (hoff : 0 ≤ off) :
    ∃ t, Runs (frameAddr d off) s t ∧ Computes s t d (s.x 29 - imm64 off) := by
  have hne : d ≠ 31 := by omega
  unfold frameAddr
  by_cases hsmall : off ≤ 0xFFF
  · rw [if_pos hsmall]
    refine ⟨_, runs_emit (decode_subImm (by omega) (by decide) off), ?_⟩
    have hfield : (((off % 4096).toNat : ℕ) : ℤ) = off := by omega
    rw [step, hfield, setSp_of_ne hne, regSp_of_ne (by decide)]
    exact computes_update_self
  · rw [if_neg hsmall]
    refine ⟨_, (runs_loadimm (by decide) _).bind
      (runs_emit (decode_subRrr (by omega) (by decide) (by decide))), ?_⟩
    rw [step, setZ_of_ne hne, regZ_of_ne (by decide), regZ_of_ne (by decide)]
    exact computes_update

end Registers

end XinuRpi4.Compiler
