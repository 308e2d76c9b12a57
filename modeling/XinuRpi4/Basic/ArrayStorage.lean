import XinuRpi4.Basic.Statements
import XinuRpi4.Basic.Variables
import XinuRpi4.Foundation.Runs
import Mathlib.Order.CompletePartialOrder

/-!
# Storage of arrays

The arrays made since the variables were cleared stand one behind the other in the pool. An
automatic array has 11 cells; what DIM adds is the product of two integers, computed and added to
the top in an `int`.
-/

namespace XinuRpi4.Basic

open XinuRpi4.Foundation

variable {ν : Type}

/-- The cells that an array has been given. -/
def VArr.extent (a : VArr) : Set ℤ := Set.Ico a.base (a.base + a.d1 * a.d2)

/-- The pairs of subscripts of an array; the second one is 0 if there is one only. -/
def VArr.pairs (a : VArr) : Set (ℤ × ℤ) :=
  {p | 0 ≤ p.1 ∧ p.1 < a.d1 ∧ 0 ≤ p.2 ∧ p.2 < a.d2}

/-- The subscript in the pool, as `arr_elem` computes it. -/
def VArr.cell (a : VArr) (p : ℤ × ℤ) : ℤ := wrapInt (a.base + wrapInt (p.1 * a.d2) + p.2)

namespace Interp

/-- A variable that has an array. -/
def HasArray (s : Interp ν) (li : ℕ) : Prop := li < s.nvar ∧ (s.varr li).ndim ≠ 0

/-- Every array lies below the top. -/
structure Laid (s : Interp ν) : Prop where
  bottom : 0 ≤ s.arrtop
  top : s.arrtop ≤ arrPool
  array : ∀ li, s.HasArray li → 0 ≤ (s.varr li).base ∧ 1 ≤ (s.varr li).d1 ∧ 1 ≤ (s.varr li).d2 ∧
    (s.varr li).base + (s.varr li).d1 * (s.varr li).d2 ≤ s.arrtop
  apart : ∀ li lj, s.HasArray li → s.HasArray lj → li ≠ lj →
    Disjoint (s.varr li).extent (s.varr lj).extent

/-- What is new in the second state lies behind everything in the first. -/
structure Extends (s s' : Interp ν) : Prop where
  laid : s'.Laid
  arrtop : s.arrtop ≤ s'.arrtop
  nvar : s.nvar ≤ s'.nvar
  fresh : ∀ li, s'.HasArray li →
    s.HasArray li ∧ s'.varr li = s.varr li ∨ s.arrtop ≤ (s'.varr li).base

variable {s s' t : Interp ν}

theorem Laid.refl (h : s.Laid) : s.Extends s := ⟨h, le_rfl, le_rfl, fun _ hli => .inl ⟨hli, rfl⟩⟩

theorem Extends.trans (hst : s.Extends t) (htu : t.Extends s') : s.Extends s' where
  laid := htu.laid
  arrtop := hst.arrtop.trans htu.arrtop
  nvar := hst.nvar.trans htu.nvar
  fresh li hli := by
    obtain ⟨ht, hsame⟩ | hnew := htu.fresh li hli
    · rw [hsame]
      exact hst.fresh li ht
    · exact .inr (hst.arrtop.trans hnew)

/-- A state with the same arrays. -/
theorem Laid.same (h : s.Laid) (hvarr : ∀ li < s.nvar, s'.varr li = s.varr li)
    (htop : s'.arrtop = s.arrtop) (hnvar : s.nvar ≤ s'.nvar)
    (hnew : ∀ li, s'.HasArray li → li < s.nvar) : s.Extends s' := by
  have hback : ∀ li, s'.HasArray li → s.HasArray li ∧ s'.varr li = s.varr li := by
    intro li hli
    have hlt := hnew li hli
    have hsame := hvarr li hlt
    exact ⟨⟨hlt, hsame ▸ hli.2⟩, hsame⟩
  refine ⟨⟨htop ▸ h.bottom, htop ▸ h.top, fun li hli => ?_, fun li lj hli hlj hne => ?_⟩, htop.ge,
    hnvar, fun li hli => .inl (hback li hli)⟩
  · obtain ⟨hold, hsame⟩ := hback li hli
    rw [hsame, htop]
    exact h.array li hold
  · obtain ⟨holdi, hsamei⟩ := hback li hli
    obtain ⟨holdj, hsamej⟩ := hback lj hlj
    rw [hsamei, hsamej]
    exact h.apart li lj holdi holdj hne

/-- The extents of arrays that lie one behind the other. -/
theorem disjoint_extent {a b : VArr} (h : a.base + a.d1 * a.d2 ≤ b.base) :
    Disjoint a.extent b.extent :=
  Set.disjoint_left.mpr fun _ ha hb => absurd (ha.2.trans_le (h.trans hb.1)) (lt_irrefl _)

/-- A new array at the top, of a variable that had one or not. -/
theorem Laid.declare (h : s.Laid) {li : ℕ} {a : VArr} (hbase : a.base = s.arrtop) (hd1 : 1 ≤ a.d1)
    (hd2 : 1 ≤ a.d2) (hroom : s.arrtop + a.d1 * a.d2 ≤ arrPool)
    (hvarr : s'.varr = Function.update s.varr li a) (htop : s'.arrtop = s.arrtop + a.d1 * a.d2)
    (hnvar : s'.nvar = s.nvar) : s.Extends s' := by
  have hcells : 1 ≤ a.d1 * a.d2 := one_le_mul_of_one_le_of_one_le hd1 hd2
  have hold : ∀ lj, lj ≠ li → s'.HasArray lj → s.HasArray lj ∧ s'.varr lj = s.varr lj := by
    intro lj hne hlj
    have hsame : s'.varr lj = s.varr lj := by rw [hvarr, Function.update_of_ne hne]
    exact ⟨⟨hnvar ▸ hlj.1, hsame ▸ hlj.2⟩, hsame⟩
  have hnew : s'.varr li = a := by rw [hvarr, Function.update_self]
  have hbelow : ∀ lj, lj ≠ li → s'.HasArray lj → (s'.varr lj).base +
      (s'.varr lj).d1 * (s'.varr lj).d2 ≤ (s'.varr li).base := by
    intro lj hne hlj
    obtain ⟨hlj', hsame⟩ := hold lj hne hlj
    rw [hsame, hnew, hbase]
    exact (h.array lj hlj').2.2.2
  refine ⟨⟨?_, ?_, fun lj hlj => ?_, fun lj lk hlj hlk hne => ?_⟩, ?_, hnvar.ge, fun lj hlj => ?_⟩
  · have := h.bottom
    omega
  · omega
  · by_cases hne : lj = li
    · rw [hne, hnew, hbase, htop]
      exact ⟨h.bottom, hd1, hd2, le_rfl⟩
    · obtain ⟨hlj', hsame⟩ := hold lj hne hlj
      obtain ⟨hpos, h1, h2, hend⟩ := h.array lj hlj'
      rw [hsame, htop]
      exact ⟨hpos, h1, h2, by omega⟩
  · by_cases hj : lj = li
    · subst hj
      exact (disjoint_extent (hbelow lk hne.symm hlk)).symm
    · by_cases hk : lk = li
      · subst hk
        exact disjoint_extent (hbelow lj hj hlj)
      · obtain ⟨hlj', hsamej⟩ := hold lj hj hlj
        obtain ⟨hlk', hsamek⟩ := hold lk hk hlk
        rw [hsamej, hsamek]
        exact h.apart lj lk hlj' hlk' hne
  · omega
  · by_cases hne : lj = li
    · right
      rw [hne, hnew, hbase]
    · exact .inl (hold lj hne hlj)

end Interp

/-- The arrays stay in order. -/
def Grows (s s' : Interp ν) : Prop := s.Laid → s.Extends s'

theorem Grows.of_same {s s' : Interp ν} (hvarr : s'.varr = s.varr) (htop : s'.arrtop = s.arrtop)
    (hnvar : s'.nvar = s.nvar) : Grows s s' := fun h =>
  h.same (fun li _ => by rw [hvarr]) htop hnvar.ge fun li hli => hnvar ▸ hli.1

instance : Observes (Grows : Interp ν → Interp ν → Prop) where
  refl _ := Grows.of_same rfl rfl rfl
  trans _ _ _ hst htu h := (hst h).trans (htu (hst h).laid)
  cursor _ _ _ := Grows.of_same rfl rfl rfl
  addVar N s name h := by
    refine h.same (fun li hli => Function.update_of_ne hli.ne _ _) rfl (Nat.le_succ _) ?_
    rintro li ⟨hlt, hdim⟩
    refine (Nat.lt_succ_iff_lt_or_eq.mp hlt).resolve_right fun heq => ?_
    subst heq
    simp [Interp.addVar] at hdim
  draw _ _ := Grows.of_same rfl rfl rfl
  autoDim s li cells _ hroom _ h := by
    have hone : (1 : ℤ) ≤ 11 := by decide
    exact h.declare (a := ⟨s.arrtop, 11, 1, 1⟩) rfl hone le_rfl hroom rfl rfl rfl

theorem wrapInt_eq {n : ℤ} (h : -(2 ^ 31) ≤ n) (h' : n < 2 ^ 31) : wrapInt n = n := by
  rw [wrapInt, BitVec.toInt_ofInt]
  exact Int.bmod_eq_of_le (by norm_num; omega) (by norm_num; omega)

/-- A row of `d2` cells for each first subscript. -/
theorem rowMajor_mem {d1 d2 i j : ℤ} (hi : 0 ≤ i) (hi' : i < d1) (hj : 0 ≤ j) (hj' : j < d2) :
    0 ≤ i * d2 + j ∧ i * d2 + j < d1 * d2 := by
  have hrow : i * d2 + d2 ≤ d1 * d2 := by
    calc i * d2 + d2 = (i + 1) * d2 := by ring
      _ ≤ d1 * d2 := mul_le_mul_of_nonneg_right hi' (hj.trans hj'.le)
  have hpos : 0 ≤ i * d2 := mul_nonneg hi (hj.trans hj'.le)
  omega

theorem rowMajor_inj {d2 i j i' j' : ℤ} (hj : 0 ≤ j) (hj' : j < d2) (hk : 0 ≤ j') (hk' : j' < d2)
    (h : i * d2 + j = i' * d2 + j') : i = i' ∧ j = j' := by
  have hne : d2 ≠ 0 := by omega
  have hrow : i = i' := by
    have hdiv := congrArg (· / d2) h
    simpa [Int.add_ediv_of_dvd_left, Int.ediv_eq_zero_of_lt, hj, hj', hk, hk', hne] using hdiv
  subst hrow
  exact ⟨rfl, by omega⟩

/-- An array within the pool. -/
theorem VArr.cell_eq {a : VArr} (hbase : 0 ≤ a.base) (hend : a.base + a.d1 * a.d2 ≤ arrPool)
    {p : ℤ × ℤ} (hp : p ∈ a.pairs) : a.cell p = a.base + (p.1 * a.d2 + p.2) := by
  obtain ⟨hi, hi', hj, hj'⟩ := hp
  obtain ⟨hpos, hlt⟩ := rowMajor_mem hi hi' hj hj'
  have hpool : (arrPool : ℤ) = 4096 := rfl
  have hmul : 0 ≤ p.1 * a.d2 := mul_nonneg hi (hj.trans hj'.le)
  rw [VArr.cell, wrapInt_eq (n := p.1 * a.d2) (by omega) (by omega),
    wrapInt_eq (by omega) (by omega)]
  ring

theorem Interp.Laid.cell_mem {s : Interp ν} (h : s.Laid) {li : ℕ} (hli : s.HasArray li)
    {p : ℤ × ℤ} (hp : p ∈ (s.varr li).pairs) : (s.varr li).cell p ∈ (s.varr li).extent := by
  obtain ⟨hbase, -, -, hend⟩ := h.array li hli
  obtain ⟨hpos, hlt⟩ := rowMajor_mem hp.1 hp.2.1 hp.2.2.1 hp.2.2.2
  rw [VArr.cell_eq hbase (hend.trans h.top) hp, VArr.extent, Set.mem_Ico]
  omega

theorem Interp.Laid.cell_injOn {s : Interp ν} (h : s.Laid) {li : ℕ} (hli : s.HasArray li) :
    Set.InjOn (s.varr li).cell (s.varr li).pairs := by
  intro p hp q hq hcell
  obtain ⟨hbase, -, -, hend⟩ := h.array li hli
  rw [VArr.cell_eq hbase (hend.trans h.top) hp, VArr.cell_eq hbase (hend.trans h.top) hq] at hcell
  obtain ⟨hfirst, hsecond⟩ := rowMajor_inj hp.2.2.1 hp.2.2.2 hq.2.2.1 hq.2.2.2
    (add_left_cancel hcell)
  exact Prod.ext hfirst hsecond

section Operations

variable (N : NumOps ν)

/-- An item of DIM, its bounds evaluated. -/
def dimItem (name : Text) (b1 : ℤ) (b2 : Option ℤ) : BasicM ν Unit := do
  let li ← varSlot N name
  match b2 with
  | none => dimArray N li (wrapInt (b1 + 1)) 1 1 (return ())
  | some b2 => dimArray N li (wrapInt (b1 + 1)) (wrapInt (b2 + 1)) 2 (return ())

/-- `slot` makes a variable and `element` evaluates `A(i[,j])`, with the text behind the name. DIM
makes the slot before it evaluates the bounds, which may use elements themselves. -/
inductive ArrayOp
  | slot (name : Text)
  | dim (name : Text) (b1 : ℤ) (b2 : Option ℤ)
  | element (name t : Text)

def arrayOp : ArrayOp → BasicM ν (Option ℤ)
  | .slot name => do
    let _ ← varSlot N name
    return none
  | .dim name b1 b2 => do
    dimItem N name b1 b2
    return none
  | .element name t => do
    let li ← varSlot N name
    setRest t
    arrElemTop N li

def arrayStep (s : Interp ν) (op : ArrayOp) : Option (Interp ν) := ((arrayOp N op).run s).map Prod.snd

/-- The subscripts of an element, evaluated. -/
def subscriptPair (E : Evals ν) : BasicM ν (ℤ × ℤ) := do
  let i1 := N.toInt (← E.expr)
  skipsp
  let i2 ← (do
    if (← peek) = chr ',' then
      advance
      let v ← E.expr
      skipsp
      return N.toInt v
    else return 0)
  return (i1, i2)

/-- The subscripts that `element` evaluates, with the variable. -/
def elementPair (name t : Text) : BasicM ν (Option (ℕ × ℤ × ℤ)) := do
  let li ← varSlot N name
  setRest t
  let n ← loopFuel
  match li with
  | none => return none
  | some li =>
    if ← autoDim N li then
      advance
      let p ← subscriptPair N (evals N n)
      return some (li, p)
    else return none

end Operations

/-- Rows and columns that DIM makes. -/
def dims (b1 : ℤ) (b2 : Option ℤ) : ℤ × ℤ :=
  (wrapInt (b1 + 1), match b2 with
    | none => 1
    | some b2 => wrapInt (b2 + 1))

def rank (b2 : Option ℤ) : ℕ := if b2.isSome then 2 else 1

theorem rank_ne (b2 : Option ℤ) : rank b2 ≠ 0 := by
  cases b2 <;> simp [rank]

/-- A DIM that the check lets pass has room for its cells. -/
def Fits (s : Interp ν) : ArrayOp → Prop
  | .dim name b1 b2 =>
    let d := dims b1 b2
    (findVar s name ≠ none ∨ s.nvar < nvarMax) → 1 ≤ d.1 → 1 ≤ d.2 →
      wrapInt (s.arrtop + wrapInt (d.1 * d.2)) ≤ arrPool → s.arrtop + d.1 * d.2 ≤ arrPool
  | _ => True

def AllFit (N : NumOps ν) : Interp ν → List ArrayOp → Prop
  | _, [] => True
  | s, op :: ops => Fits s op ∧ ∀ s', arrayStep N s op = some s' → AllFit N s' ops

section Steps

variable {N : NumOps ν} {s s' : Interp ν}

theorem varSlot_grows (name : Text) : Inspects Grows (varSlot N name) := varSlot_inspects N name

/-- The slot of a name, if it has one or there is room for it. -/
theorem varSlot_slot (N : NumOps ν) (name : Text) (s : Interp ν) :
    (∃ li u, (varSlot N name).run s = some (some li, u) ∧ li < u.nvar ∧ u.arrtop = s.arrtop ∧
      (findVar s name ≠ none ∨ s.nvar < nvarMax)) ∨
    (¬ (findVar s name ≠ none ∨ s.nvar < nvarMax) ∧ ∃ u, (varSlot N name).run s = some (none, u)) := by
  obtain ⟨i, hi, hname, hrun⟩ | ⟨hno, ⟨hroom, hrun⟩ | ⟨hfull, hrun⟩⟩ := varSlot_cases N name s
  · refine .inl ⟨i, s, hrun, hi, rfl, .inl fun hnone => ?_⟩
    have hdiffers := List.find?_eq_none.mp hnone i (List.mem_range.mpr hi)
    simp [hname] at hdiffers
  · exact .inl ⟨_, _, hrun, Nat.lt_succ_self _, rfl, .inr hroom⟩
  · refine .inr ⟨?_, _, hrun⟩
    rintro (hfound | hroom)
    · obtain ⟨i, hi⟩ := Option.ne_none_iff_exists'.mp hfound
      have hname := List.find?_some hi
      exact hno i (List.mem_range.mp (List.mem_of_find?_eq_some hi)) (by simpa using hname)
    · omega

theorem varSlot_lt {name : Text} {li : ℕ} (h : (varSlot N name).run s = some (some li, s')) :
    li < s'.nvar := by
  obtain ⟨lj, u, hslot, hlt, -⟩ | ⟨-, u, hslot⟩ := varSlot_slot N name s
  · obtain ⟨hsame, rfl⟩ := Prod.mk.inj (Option.some.inj (hslot.symm.trans h))
    rwa [← Option.some.inj hsame]
  · rw [hslot] at h
    cases h

/-- The state in which DIM has written the new array down. -/
def written (s : Interp ν) (li : ℕ) (d : ℤ × ℤ) (nd : ℕ) : Interp ν :=
  { s with varr := Function.update s.varr li { base := s.arrtop, d1 := d.1, d2 := d.2, ndim := nd } }

theorem dimArray_none (d1 d2 : ℤ) (nd : ℕ) (s : Interp ν) :
    (dimArray N none d1 d2 nd (return ())).run s =
      some ((), { s with err := s.err <|> some "array space" }) := rfl

theorem dimArray_some (li : ℕ) (d : ℤ × ℤ) (nd : ℕ) (s : Interp ν) :
    (dimArray N (some li) d.1 d.2 nd (return ())).run s =
      if d.1 < 1 ∨ d.2 < 1 ∨ arrPool < wrapInt (s.arrtop + wrapInt (d.1 * d.2)) then
        some ((), { s with err := s.err <|> some "array space" })
      else (clearCells N (wrapInt (d.1 * d.2))).run (written s li d nd) := by
  rw [dimArray, StateT.run_bind]
  change StateT.run (if d.1 < 1 ∨ d.2 < 1 ∨ arrPool < wrapInt (s.arrtop + wrapInt (d.1 * d.2)) then _
    else _) s = _
  split_ifs with hreject
  · rfl
  · rw [StateT.run_bind]
    change StateT.run (clearCells N (wrapInt (d.1 * d.2)) >>= fun _ => return ())
      (written s li d nd) = _
    rw [bind_pure_unit]

theorem dimItem_run (name : Text) (b1 : ℤ) (b2 : Option ℤ) (s : Interp ν) :
    (dimItem N name b1 b2).run s = ((varSlot N name).run s).bind fun r =>
      (dimArray N r.1 (dims b1 b2).1 (dims b1 b2).2 (rank b2) (return ())).run r.2 := by
  cases b2 <;> rfl

theorem clearCells_defined {n : ℤ} (hbottom : 0 ≤ s.arrtop) (hroom : s.arrtop + n ≤ arrPool) :
    ∃ cells, (clearCells N n).run s =
      some ((), { s with arrpool := cells, arrtop := s.arrtop + n }) := by
  have hrun : (clearCells N n).run s = (if (n ≤ 0 ∨ 0 ≤ s.arrtop) ∧ s.arrtop + n ≤ arrPool then
      modify fun s => { s with
        arrpool := fun i => if s.arrtop ≤ i ∧ i < s.arrtop + n then N.lit 0 else s.arrpool i
        arrtop := s.arrtop + n }
    else failure : BasicM ν Unit).run s := rfl
  rw [hrun, if_pos ⟨.inr hbottom, hroom⟩]
  exact ⟨_, rfl⟩

/-- DIM with room for what it declares. -/
theorem dimItem_fits (h : s.Laid) {name : Text} {b1 : ℤ} {b2 : Option ℤ}
    (hfit : Fits s (.dim name b1 b2)) :
    ∃ s', (dimItem N name b1 b2).run s = some ((), s') ∧ s.Extends s' := by
  rw [dimItem_run]
  obtain ⟨li, u, hslot, hli, htop, hroomy⟩ | ⟨-, u, hslot⟩ := varSlot_slot N name s
  · have hu : s.Extends u := varSlot_grows name s _ _ hslot h
    rw [hslot, Option.bind_some, dimArray_some]
    by_cases hreject : (dims b1 b2).1 < 1 ∨ (dims b1 b2).2 < 1 ∨
        arrPool < wrapInt (u.arrtop + wrapInt ((dims b1 b2).1 * (dims b1 b2).2))
    · rw [if_pos hreject]
      exact ⟨_, rfl, hu.trans (Grows.of_same rfl rfl rfl hu.laid)⟩
    · rw [if_neg hreject]
      simp only [not_or, not_lt] at hreject
      obtain ⟨hd1, hd2, hpass⟩ := hreject
      have hroom : u.arrtop + (dims b1 b2).1 * (dims b1 b2).2 ≤ arrPool := by
        rw [htop] at hpass ⊢
        exact hfit hroomy hd1 hd2 hpass
      have hpool : (arrPool : ℤ) = 4096 := rfl
      have hbottom := hu.laid.bottom
      have hcells : 1 ≤ (dims b1 b2).1 * (dims b1 b2).2 := one_le_mul_of_one_le_of_one_le hd1 hd2
      rw [wrapInt_eq (by omega) (by omega)]
      obtain ⟨cells, hclear⟩ := clearCells_defined (N := N)
        (s := written u li (dims b1 b2) (rank b2)) hbottom hroom
      refine ⟨_, hclear, hu.trans ?_⟩
      have hbase : VArr.base ⟨u.arrtop, (dims b1 b2).1, (dims b1 b2).2, rank b2⟩ = u.arrtop := rfl
      exact hu.laid.declare hbase hd1 hd2 hroom rfl rfl rfl
  · rw [hslot, Option.bind_some, dimArray_none]
    have hu : s.Extends u := varSlot_grows name s _ _ hslot h
    exact ⟨_, rfl, hu.trans (Grows.of_same rfl rfl rfl hu.laid)⟩

/-- The arrays lie inside the pool, each pair of subscripts has a cell of its own. -/
structure Inside (s : Interp ν) : Prop where
  top : s.arrtop ≤ arrPool
  extent : ∀ li, s.HasArray li → (s.varr li).extent ⊆ Set.Ico 0 s.arrtop
  cells : ∀ li, s.HasArray li → Set.MapsTo (s.varr li).cell (s.varr li).pairs (s.varr li).extent
  distinct : ∀ li, s.HasArray li → Set.InjOn (s.varr li).cell (s.varr li).pairs

theorem Interp.Laid.inside (h : s.Laid) : Inside s where
  top := h.top
  extent li hli _ hi := ⟨(h.array li hli).1.trans hi.1, hi.2.trans_le (h.array li hli).2.2.2⟩
  cells _ hli _ hp := h.cell_mem hli hp
  distinct _ hli := h.cell_injOn hli

/-- DIM without room for what it declares. -/
theorem fits_of_inside {name : Text} {b1 : ℤ} {b2 : Option ℤ}
    (hrun : (dimItem N name b1 b2).run s = some ((), s')) (h : Inside s') :
    Fits s (.dim name b1 b2) := by
  intro hroomy hd1 hd2 hpass
  rw [dimItem_run] at hrun
  obtain ⟨li, u, hslot, hli, htop, -⟩ | ⟨hnone, -⟩ := varSlot_slot N name s
  · rw [hslot, Option.bind_some, dimArray_some] at hrun
    have haccept : ¬ ((dims b1 b2).1 < 1 ∨ (dims b1 b2).2 < 1 ∨
        arrPool < wrapInt (u.arrtop + wrapInt ((dims b1 b2).1 * (dims b1 b2).2))) := by
      rw [htop]
      simp only [not_or, not_lt]
      exact ⟨hd1, hd2, hpass⟩
    rw [if_neg haccept] at hrun
    obtain ⟨cells, -, rfl⟩ := clearCells_run N hrun
    have hnew : ∀ cells top, ({ written u li (dims b1 b2) (rank b2) with
        arrpool := cells, arrtop := top } : Interp ν).varr li =
          ⟨u.arrtop, (dims b1 b2).1, (dims b1 b2).2, rank b2⟩ :=
      fun _ _ => Function.update_self ..
    have hcells : 1 ≤ (dims b1 b2).1 * (dims b1 b2).2 := one_le_mul_of_one_le_of_one_le hd1 hd2
    have hinside := h.extent li ⟨hli, by rw [hnew]; exact rank_ne b2⟩
    rw [hnew] at hinside
    have hlast : u.arrtop + ((dims b1 b2).1 * (dims b1 b2).2 - 1) ∈
        VArr.extent ⟨u.arrtop, (dims b1 b2).1, (dims b1 b2).2, rank b2⟩ := by
      rw [VArr.extent, Set.mem_Ico]
      dsimp only
      omega
    have hbelow := (hinside hlast).2.trans_le h.top
    rw [← htop]
    omega
  · exact absurd hroomy hnone

theorem autoDim_true {li : ℕ} (h : (autoDim N li).run s = some (true, s')) :
    (s'.varr li).ndim ≠ 0 := by
  have hrun : (autoDim N li).run s = (if (s.varr li).ndim ≠ 0 then return true
      else if arrPool < s.arrtop + 11 then do
        berr "array space"
        return false
      else do
        modify fun s => { s with
          varr := Function.update s.varr li { base := s.arrtop, d1 := 11, d2 := 1, ndim := 1 }
          effects := s.effects + 1 }
        clearCells N 11
        return true : BasicM ν Bool).run s := rfl
  rw [hrun] at h
  by_cases hdim : (s.varr li).ndim ≠ 0
  · rw [if_pos hdim] at h
    obtain ⟨-, rfl⟩ := Prod.mk.inj (Option.some.inj h)
    exact hdim
  · rw [if_neg hdim] at h
    by_cases hfull : arrPool < s.arrtop + 11
    · rw [if_pos hfull] at h
      cases h
    · rw [if_neg hfull] at h
      obtain ⟨⟨⟩, u, hwrite, h⟩ := bind_run_iff.mp h
      obtain ⟨-, rfl⟩ := Prod.mk.inj (Option.some.inj hwrite)
      obtain ⟨⟨⟩, v, hclear, h⟩ := bind_run_iff.mp h
      obtain ⟨-, rfl⟩ := Prod.mk.inj (Option.some.inj h)
      obtain ⟨cells, -, rfl⟩ := clearCells_run N hclear
      simp

/-- The pointer that comes from the subscripts. -/
theorem subscripts_cell {E : Evals ν} {li : ℕ} {i : ℤ}
    (h : (subscripts N E li).run s = some (some i, s')) :
    ∃ p u, (subscriptPair N E).run s = some (p, u) ∧ s'.varr = u.varr ∧ s'.nvar = u.nvar ∧
      p ∈ (u.varr li).pairs ∧ i = (u.varr li).cell p := by
  obtain ⟨v, s₁, hexpr, h⟩ := bind_run_iff.mp h
  obtain ⟨⟨⟩, s₂, hskip, h⟩ := bind_run_iff.mp h
  obtain ⟨i2, u, hsecond, h⟩ := bind_run_iff.mp h
  refine ⟨(N.toInt v, i2), u, ?_, ?_⟩
  · exact bind_run_iff.mpr ⟨v, s₁, hexpr, bind_run_iff.mpr ⟨(), s₂, hskip,
      bind_run_iff.mpr ⟨i2, u, hsecond, rfl⟩⟩⟩
  · replace h : (if u.ip.rest.headD 0 = chr ')' then do
        advance
        let a := (← get).varr li
        if N.toInt v < 0 ∨ a.d1 ≤ N.toInt v ∨ i2 < 0 ∨ a.d2 ≤ i2 then
          berr "subscript"
          return none
        else return some (wrapInt (a.base + wrapInt (N.toInt v * a.d2) + i2))
      else do
        berr "array )"
        return none : BasicM ν (Option ℤ)).run u = some (some i, s') := h
    by_cases hclose : u.ip.rest.headD 0 = chr ')'
    · rw [if_pos hclose] at h
      replace h : (if N.toInt v < 0 ∨ (u.varr li).d1 ≤ N.toInt v ∨ i2 < 0 ∨ (u.varr li).d2 ≤ i2 then do
            berr "subscript"
            return none
          else return some ((u.varr li).cell (N.toInt v, i2)) : BasicM ν (Option ℤ)).run (advanced u) =
            some (some i, s') := h
      by_cases hbounds : N.toInt v < 0 ∨ (u.varr li).d1 ≤ N.toInt v ∨ i2 < 0 ∨ (u.varr li).d2 ≤ i2
      · rw [if_pos hbounds] at h
        cases h
      · rw [if_neg hbounds] at h
        obtain ⟨hi, rfl⟩ := Prod.mk.inj (Option.some.inj h)
        simp only [not_or, not_lt, not_le] at hbounds
        exact ⟨rfl, rfl, hbounds, (Option.some.inj hi).symm⟩
    · rw [if_neg hclose] at h
      cases h

theorem subscriptPair_inspects {R : Interp ν → Interp ν → Prop} [Observes R] {E : Evals ν}
    (hE : E.Inspect R) : Inspects R (subscriptPair N E) := by
  refine hE.expr.bind fun i => skipsp_inspects.bind fun _ => Inspects.bind ?second fun i2 => .pure _
  exact peek_inspects.bind fun _ => .cond (advance_inspects.bind fun _ =>
    hE.expr.bind fun _ => skipsp_inspects.bind fun _ => .pure _) (.pure _)

theorem element_cell {name t : Text} {i : ℤ}
    (h : (arrayOp N (.element name t)).run s = some (some i, s')) :
    ∃ li p, ((elementPair N name t).run s).map Prod.fst = some (some (li, p)) ∧ s'.HasArray li ∧
      p ∈ (s'.varr li).pairs ∧ i = (s'.varr li).cell p := by
  obtain ⟨li, u, hslot, h⟩ := bind_run_iff.mp h
  obtain ⟨⟨⟩, u₁, htext, h⟩ := bind_run_iff.mp h
  obtain ⟨n, u₂, hfuel, h⟩ := bind_run_iff.mp h
  cases li with
  | none => cases h
  | some li =>
    obtain ⟨b, u₃, hauto, h⟩ := bind_run_iff.mp h
    cases b with
    | false => cases h
    | true =>
      replace h : (if u₃.ip.rest.headD 0 = chr '(' then do
            advance
            subscripts N (evals N n) li
          else do
            berr "array ("
            return none : BasicM ν (Option ℤ)).run u₃ = some (some i, s') := h
      by_cases hopen : u₃.ip.rest.headD 0 = chr '('
      swap
      · rw [if_neg hopen] at h
        cases h
      rw [if_pos hopen] at h
      obtain ⟨p, v, hpair, hvarr, hnvar, hbounds, hcell⟩ := subscripts_cell (s := advanced u₃) h
      have hgrown : Spares u u₃ :=
        ((setRest_inspects t).bind fun _ => loopFuel_inspects.bind fun _ => autoDim_inspects N li)
          _ _ _ (bind_run_iff.mpr ⟨_, u₁, htext, bind_run_iff.mpr ⟨n, u₂, hfuel, hauto⟩⟩)
      have hlt : li < u₃.nvar := (varSlot_lt hslot).trans_le hgrown.nvar
      have hkept : Spares (advanced u₃) v := subscriptPair_inspects (evals_inspect N n) _ _ _ hpair
      have hdim := autoDim_true hauto
      have hsame : v.varr li = u₃.varr li := hkept.varr li hlt hdim
      refine ⟨li, p, ?_, ⟨?_, ?_⟩, ?_, ?_⟩
      · have hrun : (elementPair N name t).run s = some (some (li, p), v) :=
          bind_run_iff.mpr ⟨_, u, hslot, bind_run_iff.mpr ⟨_, u₁, htext, bind_run_iff.mpr ⟨n, u₂, hfuel,
            bind_run_iff.mpr ⟨true, u₃, hauto, bind_run_iff.mpr ⟨(), advanced u₃, rfl,
              bind_run_iff.mpr ⟨p, v, hpair, rfl⟩⟩⟩⟩⟩⟩
        rw [hrun]
        rfl
      · rw [hnvar]
        exact lt_of_lt_of_le hlt hkept.nvar
      · rw [hvarr, hsame]
        exact hdim
      · rw [hvarr]
        exact hbounds
      · rw [hvarr]
        exact hcell

theorem element_grows (name t : Text) : Inspects Grows (arrayOp N (.element name t)) :=
  (varSlot_inspects N name).bind fun li => (setRest_inspects t).bind fun _ =>
    loopFuel_inspects.bind fun n => arrElem_inspects N (evals_inspect N n) li

theorem arrayStep_extends (h : s.Laid) {op : ArrayOp} (hfit : Fits s op)
    (hstep : arrayStep N s op = some s') : s.Extends s' := by
  obtain ⟨⟨i, u⟩, hrun, rfl⟩ := Option.map_eq_some_iff.mp hstep
  cases op with
  | slot name =>
    have hgrows : Inspects Grows (arrayOp N (.slot name)) :=
      (varSlot_inspects N name).bind fun _ => .pure _
    exact hgrows _ _ _ hrun h
  | dim name b1 b2 =>
    obtain ⟨u', hdim, hext⟩ := dimItem_fits (N := N) h hfit
    obtain ⟨⟨⟩, v, hitem, hret⟩ := bind_run_iff.mp hrun
    obtain ⟨-, rfl⟩ := Prod.mk.inj (Option.some.inj hret)
    obtain ⟨-, rfl⟩ := Prod.mk.inj (Option.some.inj (hitem.symm.trans hdim))
    exact hext
  | element name t => exact element_grows name t _ _ _ hrun h

theorem exec_extends {ops : List ArrayOp} (h : s.Laid) (hfit : AllFit N s ops)
    (hrun : exec (arrayStep N) s ops = some s') : s.Extends s' := by
  induction ops generalizing s with
  | nil =>
    obtain rfl := Option.some.inj hrun
    exact h.refl
  | cons op ops ih =>
    obtain ⟨t, hstep, hrest⟩ := Option.bind_eq_some_iff.mp hrun
    have hfirst := arrayStep_extends h hfit.1 hstep
    exact hfirst.trans (ih hfirst.laid (hfit.2 t hstep) hrest)

theorem allFit_of_each {ops : List ArrayOp} (h : ∀ pre op post t, ops = pre ++ op :: post →
    exec (arrayStep N) s pre = some t → Fits t op) : AllFit N s ops := by
  induction ops generalizing s with
  | nil => trivial
  | cons op ops ih =>
    refine ⟨h [] op ops s rfl rfl, fun t hstep => ih fun pre op' post u hsplit hrun => ?_⟩
    refine h (op :: pre) op' post u (by rw [hsplit]; rfl) ?_
    rw [exec, hstep]
    exact hrun

theorem allFit_append {ops ops' : List ArrayOp} :
    AllFit N s (ops ++ ops') ↔ AllFit N s ops ∧
      ∀ t, exec (arrayStep N) s ops = some t → AllFit N t ops' := by
  induction ops generalizing s with
  | nil => simp [AllFit, exec]
  | cons op ops ih =>
    simp only [List.cons_append, AllFit, exec, Option.bind_eq_some_iff, ih]
    constructor
    · rintro ⟨hfit, hrest⟩
      refine ⟨⟨hfit, fun t ht => (hrest t ht).1⟩, fun u hu => ?_⟩
      obtain ⟨t, ht, hu⟩ := hu
      exact (hrest t ht).2 u hu
    · rintro ⟨⟨hfit, hrest⟩, hbehind⟩
      exact ⟨hfit, fun t ht => ⟨hrest t ht, fun u hu => hbehind u ⟨t, ht, hu⟩⟩⟩

end Steps

/-- The variables and arrays are cleared. -/
def cleared (s : Interp ν) : Interp ν := { s with nvar := 0, arrtop := 0 }

/-- Arrays that were not declared by the same DIM have no cell in common. -/
def Apart (s s' : Interp ν) : Prop :=
  ∀ li lj, s.HasArray li → s'.HasArray lj → (li ≠ lj ∨ s.varr li ≠ s'.varr lj) →
    Disjoint (s.varr li).extent (s'.varr lj).extent

theorem Interp.Extends.apart {s s' : Interp ν} (h : s.Laid) (hext : s.Extends s') : Apart s s' := by
  intro li lj hli hlj hne
  obtain ⟨hold, hsame⟩ | hnew := hext.fresh lj hlj
  · rw [hsame] at hne ⊢
    have hdiffers : li ≠ lj := by
      obtain hdiffers | hvarr := hne
      · exact hdiffers
      · rintro rfl
        exact hvarr rfl
    exact h.apart li lj hli hold hdiffers
  · exact disjoint_extent ((h.array li hli).2.2.2.trans hnew)

/-- What the storage of arrays promises for a sequence of operations on cleared variables. -/
structure StorageSafe (N : NumOps ν) (s₀ : Interp ν) (ops : List ArrayOp) : Prop where
  inside : ∀ pre post s, ops = pre ++ post → exec (arrayStep N) s₀ pre = some s → Inside s
  apart : ∀ pre mid post s s', ops = pre ++ mid ++ post → exec (arrayStep N) s₀ pre = some s →
    exec (arrayStep N) s mid = some s' → Apart s s'
  dim : ∀ pre name b1 b2 post s, ops = pre ++ .dim name b1 b2 :: post →
    exec (arrayStep N) s₀ pre = some s → (arrayStep N s (.dim name b1 b2)).isSome
  element : ∀ pre name t post s i s', ops = pre ++ .element name t :: post →
    exec (arrayStep N) s₀ pre = some s → (arrayOp N (.element name t)).run s = some (some i, s') →
    ∃ li p, ((elementPair N name t).run s).map Prod.fst = some (some (li, p)) ∧ s'.HasArray li ∧
      p ∈ (s'.varr li).pairs ∧ i = (s'.varr li).cell p ∧ i ∈ (s'.varr li).extent

theorem cleared_laid (s : Interp ν) : (cleared s).Laid where
  bottom := le_rfl
  top := Int.natCast_nonneg _
  array li hli := absurd hli.1 (Nat.not_lt_zero li)
  apart li _ hli := absurd hli.1 (Nat.not_lt_zero li)

/-- Between two clears the storage is safe if and only if each DIM that the check lets pass has
room for its cells. -/
theorem storageSafe_iff (N : NumOps ν) (s : Interp ν) (ops : List ArrayOp) :
    StorageSafe N (cleared s) ops ↔ AllFit N (cleared s) ops := by
  constructor
  · intro h
    refine allFit_of_each fun pre op post t hsplit hrun => ?_
    cases op with
    | slot name => trivial
    | element name text => trivial
    | dim name b1 b2 =>
      obtain ⟨t', hstep⟩ := Option.isSome_iff_exists.mp (h.dim pre name b1 b2 post t hsplit hrun)
      have hinside : Inside t' := by
        refine h.inside (pre ++ [ArrayOp.dim name b1 b2]) post t' (by simpa using hsplit) ?_
        rw [exec_append, hrun, Option.bind_some, exec, hstep]
        rfl
      obtain ⟨⟨i, u⟩, hop, rfl⟩ := Option.map_eq_some_iff.mp hstep
      obtain ⟨⟨⟩, v, hitem, hret⟩ := bind_run_iff.mp hop
      obtain ⟨-, rfl⟩ := Prod.mk.inj (Option.some.inj hret)
      exact fits_of_inside hitem hinside
  · intro h
    have hlaid : ∀ pre post t, ops = pre ++ post → exec (arrayStep N) (cleared s) pre = some t →
        t.Laid ∧ AllFit N t post := by
      intro pre post t hsplit hrun
      obtain ⟨hpre, hpost⟩ := allFit_append.mp (hsplit ▸ h)
      exact ⟨(exec_extends (cleared_laid s) hpre hrun).laid, hpost t hrun⟩
    refine ⟨fun pre post t hsplit hrun => (hlaid pre post t hsplit hrun).1.inside,
      fun pre mid post t t' hsplit hrun hmid => ?_, fun pre name b1 b2 post t hsplit hrun => ?_,
      fun pre name text post t i t' hsplit hrun hop => ?_⟩
    · obtain ⟨ht, hfit⟩ := hlaid pre (mid ++ post) t (by rw [hsplit, List.append_assoc]) hrun
      exact (exec_extends ht (allFit_append.mp hfit).1 hmid).apart ht
    · obtain ⟨ht, hfit⟩ := hlaid pre _ t hsplit hrun
      obtain ⟨t', hitem, -⟩ := dimItem_fits (N := N) ht hfit.1
      have hop : (arrayOp N (.dim name b1 b2)).run t = some (none, t') :=
        bind_run_iff.mpr ⟨(), t', hitem, rfl⟩
      rw [arrayStep, hop]
      rfl
    · obtain ⟨ht, -⟩ := hlaid pre _ t hsplit hrun
      obtain ⟨li, p, hpair, hli, hbounds, hcell⟩ := element_cell hop
      have hext : t.Extends t' := element_grows name text _ _ _ hop ht
      exact ⟨li, p, hpair, hli, hbounds, hcell, hcell ▸ hext.laid.cell_mem hli hbounds⟩

/-- `DIM A(65535,65535)` passes the check with a product of 0. -/
theorem wide_array_unstored : ¬ ∀ (s : Interp ℚ) (ops : List ArrayOp),
    StorageSafe ratOps (cleared s) ops := by
  intro hall
  have hdim : (arrayStep ratOps (cleared (basicInit ratOps))
      (.dim (bytes "A") 65535 (some 65535))).map (fun s => (s.nvar, s.varr 0, s.arrtop)) =
        some (1, ⟨0, 65536, 65536, 2⟩, 0) := by decide
  obtain ⟨t, hstep, ht⟩ := Option.map_eq_some_iff.mp hdim
  obtain ⟨hnvar, harray, htop⟩ : t.nvar = 1 ∧ t.varr 0 = ⟨0, 65536, 65536, 2⟩ ∧ t.arrtop = 0 := by
    simpa using ht
  have hrun : exec (arrayStep ratOps) (cleared (basicInit ratOps))
      [.dim (bytes "A") 65535 (some 65535)] = some t := by
    rw [exec, hstep]
    rfl
  have hinside := (hall (basicInit ratOps) [.dim (bytes "A") 65535 (some 65535)]).inside _ [] t
    (List.append_nil _).symm hrun
  have hfirst : (0 : ℤ) ∈ (t.varr 0).extent := by
    rw [harray]
    exact ⟨le_rfl, by decide⟩
  have hbelow := (hinside.extent 0 ⟨by omega, by rw [harray]; decide⟩ hfirst).2
  rw [htop] at hbelow
  exact absurd hbelow (lt_irrefl 0)

end XinuRpi4.Basic
