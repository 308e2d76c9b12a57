import XinuRpi4.Compiler.Codegen

/-!
# The layout of a stack frame

As long as no offset leaves the `int`s, `assign_offsets` gives each variable the next free
bytes, in multiples of eight.
-/

namespace XinuRpi4.Compiler

/-- The next multiple of `a`. -/
def roundUp (n a : ℤ) : ℤ := (n + a - 1) / a * a

theorem roundUp_eight (n : ℤ) : n ≤ roundUp n 8 ∧ roundUp n 8 < n + 8 ∧ 8 ∣ roundUp n 8 := by
  unfold roundUp
  omega

theorem roundUp_sixteen (n : ℤ) : n ≤ roundUp n 16 ∧ roundUp n 16 < n + 16 ∧ 16 ∣ roundUp n 16 := by
  unfold roundUp
  omega

section Types

variable (types : ℕ → StructBody)

/-- The bytes that a variable takes in a frame. -/
def slotBytes (v : Var) : ℤ := roundUp (v.ty.size types) 8

/-- The bytes that variables take together. -/
def localBytes (locals : List Var) : ℤ := (locals.map (slotBytes types)).sum

/-- The bytes of the frame. -/
def frameBytes (locals : List Var) : ℤ := roundUp (localBytes types locals) 16

/-- Each variable with the end of its slot, counted down from the frame pointer. -/
def laid : ℤ → List Var → List (Var × ℤ)
  | _, [] => []
  | off, v :: locals => (v, off + slotBytes types v) :: laid (off + slotBytes types v) locals

/-- The sizes are sizes. -/
def Sized (locals : List Var) : Prop := ∀ v ∈ locals, 0 ≤ v.ty.size types

instance (locals : List Var) : Decidable (Sized types locals) :=
  inferInstanceAs (Decidable (∀ v ∈ locals, 0 ≤ v.ty.size types))

variable {types} {locals : List Var} {v : Var} {off : ℤ}

theorem slotBytes_nonneg (h : 0 ≤ v.ty.size types) : 0 ≤ slotBytes types v := by
  have := (roundUp_eight (v.ty.size types)).1
  unfold slotBytes
  omega

theorem slotBytes_pos (h : 0 < v.ty.size types) : 8 ≤ slotBytes types v := by
  have := roundUp_eight (v.ty.size types)
  unfold slotBytes
  omega

theorem localBytes_nonneg (h : Sized types locals) : 0 ≤ localBytes types locals :=
  List.sum_nonneg fun n hn => by
    obtain ⟨v, hv, rfl⟩ := List.mem_map.mp hn
    exact slotBytes_nonneg (h v hv)

theorem localBytes_cons (v : Var) (locals : List Var) :
    localBytes types (v :: locals) = slotBytes types v + localBytes types locals := by
  simp [localBytes]

theorem Sized.tail (h : Sized types (v :: locals)) : Sized types locals :=
  fun w hw => h w (List.mem_cons_of_mem _ hw)

theorem map_fst_laid (off : ℤ) (locals : List Var) : (laid types off locals).map Prod.fst = locals := by
  induction locals generalizing off with
  | nil => rfl
  | cons v locals ih => rw [laid, List.map_cons, ih]

/-- What gives each variable its offset. -/
theorem laid_eq_map {f : Var → ℤ} (h : ∀ p ∈ laid types off locals, f p.1 = p.2) :
    laid types off locals = locals.map fun v => (v, f v) := by
  induction locals generalizing off with
  | nil => rfl
  | cons v locals ih =>
    rw [laid, List.forall_mem_cons] at h
    rw [laid, List.map_cons, ih h.2, h.1]

/-- Every slot lies behind the offset where the layout begins, and inside the frame. -/
theorem laid_bounds (h : Sized types locals) :
    ∀ p ∈ laid types off locals, off + slotBytes types p.1 ≤ p.2 ∧
      p.2 ≤ off + localBytes types locals ∧ (8 ∣ off → 8 ∣ p.2) := by
  induction locals generalizing off with
  | nil => simp [laid]
  | cons v locals ih =>
    have hrest := localBytes_nonneg h.tail
    have hslot := slotBytes_nonneg (h v List.mem_cons_self)
    have hdvd := (roundUp_eight (v.ty.size types)).2.2
    rw [laid, List.forall_mem_cons, localBytes_cons]
    constructor
    · refine ⟨le_rfl, ?_, fun hoff => ?_⟩
      · simp only
        omega
      · exact dvd_add hoff hdvd
    · intro p hp
      obtain ⟨hlow, hhigh, halign⟩ := ih h.tail p hp
      exact ⟨by omega, by omega, fun hoff => halign (dvd_add hoff hdvd)⟩

/-- A later variable lies below an earlier one. -/
theorem laid_pairwise (h : Sized types locals) :
    (laid types off locals).Pairwise fun p q => p.2 + slotBytes types q.1 ≤ q.2 := by
  induction locals generalizing off with
  | nil => exact .nil
  | cons v locals ih =>
    rw [laid, List.pairwise_cons]
    exact ⟨fun q hq => (laid_bounds h.tail q hq).1, ih h.tail⟩

end Types

section Offsets

variable {env : GenEnv} {locals : List Var} {off : ℤ} {offset : Offsets}

theorem toInt32_of_lt {x : ℤ} (h : 0 ≤ x) (h' : x < 2 ^ 31) : toInt32 x = x :=
  Int.bmod_eq_of_le (by omega) (by omega)

theorem alignUp_eight {n : ℤ} (h : 0 ≤ n) (h' : n < 2 ^ 31 - 8) : alignUp n 8 = roundUp n 8 := by
  have hround := roundUp_eight n
  have hdiv : (n + 8 - 1).tdiv 8 = (n + 8 - 1) / 8 := Int.tdiv_eq_ediv_of_nonneg (by omega)
  unfold roundUp at hround ⊢
  simp only [alignUp, pAlignUp]
  rw [toInt32_of_lt (x := n + 8 - 1) (by omega) (by omega), hdiv]
  exact toInt32_of_lt (by omega) (by omega)

theorem alignUp_sixteen {n : ℤ} (h : 0 ≤ n) (h' : n < 2 ^ 31 - 16) :
    alignUp n 16 = roundUp n 16 := by
  have hround := roundUp_sixteen n
  have hdiv : (n + 16 - 1).tdiv 16 = (n + 16 - 1) / 16 := Int.tdiv_eq_ediv_of_nonneg (by omega)
  unfold roundUp at hround ⊢
  simp only [alignUp, pAlignUp]
  rw [toInt32_of_lt (x := n + 16 - 1) (by omega) (by omega), hdiv]
  exact toInt32_of_lt (by omega) (by omega)

/-- Variables of a frame, each with a place of its own. -/
structure Framed (locals : List Var) : Prop where
  frame : ∀ v ∈ locals, ∃ id, v.place = .frame id
  nodup : (locals.map Var.place).Nodup

theorem Framed.tail {v : Var} (h : Framed (v :: locals)) : Framed locals where
  frame := fun w hw => h.frame w (List.mem_cons_of_mem _ hw)
  nodup := (List.nodup_cons.mp h.nodup).2

/-- One step of `assign_offsets`, away from the ends of the `int`s. -/
theorem next_offset (env : GenEnv) {v : Var} (hoff : 0 ≤ off) (hdvd : 8 ∣ off) (hv : 0 ≤ v.ty.size env.types)
    (hlt : off + slotBytes env.types v < 2 ^ 31 - 16) :
    alignUp (toInt32 (off + v.ty.size env.types)) 8 = off + slotBytes env.types v := by
  have hround := roundUp_eight (v.ty.size env.types)
  unfold slotBytes at *
  rw [toInt32_of_lt (by omega) (by omega), alignUp_eight (by omega) (by omega)]
  unfold roundUp at *
  omega

theorem assignLoop_eq (offset : Offsets) (hf : Framed locals) (hs : Sized env.types locals) (hoff : 0 ≤ off)
    (hdvd : 8 ∣ off) (hlt : off + localBytes env.types locals < 2 ^ 31 - 16) :
    (assignLoop env locals off offset).1 = off + localBytes env.types locals ∧
      (∀ p ∈ laid env.types off locals, ∀ id, p.1.place = .frame id →
        (assignLoop env locals off offset).2 id = p.2) ∧
      ∀ id, (.frame id) ∉ locals.map Var.place →
        (assignLoop env locals off offset).2 id = offset id := by
  induction locals generalizing off offset with
  | nil => exact ⟨by simp [assignLoop, localBytes], by simp [laid], fun _ _ => rfl⟩
  | cons v locals ih =>
    obtain ⟨id, hid⟩ := hf.frame v List.mem_cons_self
    have hv := hs v List.mem_cons_self
    have hslot := slotBytes_nonneg hv
    have hrest := localBytes_nonneg hs.tail
    rw [localBytes_cons] at hlt ⊢
    have hnext := next_offset env hoff hdvd hv (by omega)
    have hdvd' : 8 ∣ off + slotBytes env.types v :=
      dvd_add hdvd (roundUp_eight (v.ty.size env.types)).2.2
    obtain ⟨hend, hlaid, hkeep⟩ := ih (Function.update offset id (off + slotBytes env.types v))
      hf.tail hs.tail (by omega) hdvd' (by omega)
    have hloop : assignLoop env (v :: locals) off offset = assignLoop env locals
        (off + slotBytes env.types v) (Function.update offset id (off + slotBytes env.types v)) := by
      rw [assignLoop, hnext, hid]
    have hnew : (.frame id) ∉ locals.map Var.place := by
      rw [← hid]
      exact (List.nodup_cons.mp hf.nodup).1
    rw [hloop, laid, List.forall_mem_cons]
    refine ⟨hend.trans (by omega), ⟨fun id' hid' => ?_, hlaid⟩, fun id' hid' => ?_⟩
    · obtain rfl : id = id' := by
        rw [hid] at hid'
        exact Place.frame.inj hid'
      rw [hkeep id hnew]
      simp
    · rw [List.map_cons, List.mem_cons, not_or, hid] at hid'
      rw [hkeep id' hid'.2]
      exact Function.update_of_ne (fun h => hid'.1 (congrArg Place.frame h)) _ _

/-- `assign_offsets` lays the variables out one behind the other. -/
theorem assignOffsets_eq (hf : Framed locals) (hs : Sized env.types locals)
    (hlt : localBytes env.types locals < 2 ^ 31 - 16) :
    (assignOffsets env locals).1 = frameBytes env.types locals ∧
      ∀ p ∈ laid env.types 0 locals, ∀ id, p.1.place = .frame id →
        (assignOffsets env locals).2 id = p.2 := by
  obtain ⟨hend, hlaid, -⟩ := assignLoop_eq (fun _ => 0) hf hs le_rfl (dvd_zero 8)
    (by omega)
  refine ⟨?_, hlaid⟩
  rw [assignOffsets]
  simp only
  rw [hend, zero_add, alignUp_sixteen (localBytes_nonneg hs) hlt]
  rfl

end Offsets

end XinuRpi4.Compiler
