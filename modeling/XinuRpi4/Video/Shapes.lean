import XinuRpi4.Foundation.ByteWords
import XinuRpi4.Foundation.DigitalCurves

/-!
# Lines and circles on the framebuffer

`gfx_seg` and `gfx_ring` follow a line and a circle with an error term of type `int`, and
`gfx_pix` clips each of their points to the content of a window and to the screen.
-/

namespace XinuRpi4.Video

open XinuRpi4.Foundation

/-- Content of a window that is drawn into. -/
structure Clip where
  clx : Int32
  cly : Int32
  clw : Int32
  clh : Int32

/-- The memory from `fb_draw` on, and where the screen is in it and in the virtual plane. -/
structure Screen where
  draw : ℕ → UInt8
  width : UInt32
  height : UInt32
  pitch : UInt32
  viewX : Int32
  viewY : Int32

/-- `(unsigned int *)(fb_draw + sy * fb_pitch) + sx` -/
def Screen.pixel (s : Screen) (sx sy : Int32) : ℕ :=
  (sy.toUInt32 * s.pitch).toNat + 4 * sx.toNatClampNeg

section Int

variable {a b : Int32}

theorem toInt_add_of (h : -2 ^ 31 ≤ a.toInt + b.toInt ∧ a.toInt + b.toInt < 2 ^ 31) :
    (a + b).toInt = a.toInt + b.toInt := by
  rw [Int32.toInt_add, Int.bmod_eq_of_le (by omega) (by omega)]

theorem toInt_sub_of (h : -2 ^ 31 ≤ a.toInt - b.toInt ∧ a.toInt - b.toInt < 2 ^ 31) :
    (a - b).toInt = a.toInt - b.toInt := by
  rw [Int32.toInt_sub, Int.bmod_eq_of_le (by omega) (by omega)]

theorem toInt_double_of (h : -2 ^ 30 ≤ a.toInt ∧ a.toInt < 2 ^ 30) : (2 * a).toInt = 2 * a.toInt := by
  have htwo : (2 : Int32).toInt = 2 := by decide
  rw [Int32.toInt_mul, htwo, Int.bmod_eq_of_le (by omega) (by omega)]

end Int

section Line

/-- A point of the segment: `u` and `v` steps from the first one on, in the directions `a`
and `b`. -/
structure SegPoint (x₀ y₀ a b D E : ℤ) (m : ℕ) (p : Int32 × Int32) : Prop where
  exists_line : ∃ u v, OnLine D E m u v ∧ p.1.toInt = x₀ + a * u ∧ p.2.toInt = y₀ + b * v

/-- What `gfx_seg` starts from. -/
structure SegSetup (x0 y0 x1 y1 dx dy sx sy : Int32) (a b D E : ℤ) : Prop where
  a_unit : a = 1 ∨ a = -1
  b_unit : b = 1 ∨ b = -1
  D_bounds : 0 ≤ D ∧ D ≤ 8191
  E_bounds : 0 ≤ E ∧ E ≤ 8191
  x1_eq : x1.toInt = x0.toInt + a * D
  y1_eq : y1.toInt = y0.toInt + b * E
  dx_eq : dx.toInt = D
  dy_eq : dy.toInt = -E
  sx_eq : sx.toInt = a
  sy_eq : sy.toInt = b

variable {x0 y0 x1 y1 dx dy sx sy : Int32} {a b D E : ℤ}

/-- Where the loop stands. -/
structure SegState (x0 y0 : Int32) (a b D E : ℤ) (m : ℕ) (u v : ℤ) (x y err : Int32) : Prop where
  line : OnLine D E m u v
  x_eq : x.toInt = x0.toInt + a * u
  y_eq : y.toInt = y0.toInt + b * v
  err_eq : err.toInt = lineError D E u v

theorem unit_mul_bounds {a u D : ℤ} (ha : a = 1 ∨ a = -1) (hu : 0 ≤ u) (huD : u ≤ D)
    {x₀ x₁ : Int32} (h₁ : x₁.toInt = x₀.toInt + a * D) :
    -2 ^ 31 ≤ x₀.toInt + a * u ∧ x₀.toInt + a * u < 2 ^ 31 := by
  have hlo := x₀.le_toInt
  have hhi := x₀.toInt_lt
  have hlo' := x₁.le_toInt
  have hhi' := x₁.toInt_lt
  rcases ha with rfl | rfl <;> omega

theorem OnLine.error_bounds {m : ℕ} {u v : ℤ} (h : OnLine D E m u v) (hD : D ≤ 8191)
    (hE : E ≤ 8191) (hD0 : 0 ≤ D) (hE0 : 0 ≤ E) :
    -20000 ≤ lineError D E u v ∧ lineError D E u v ≤ 20000 := by
  have hnear := h.near
  have hmax : max D E ≤ 8191 := max_le hD hE
  obtain ⟨hlo, hhi⟩ := abs_le.mp (le_refl |D * v - E * u|)
  have herr : lineError D E u v = (D * v - E * u) + D - E := by
    unfold lineError
    ring
  omega

/-- One turn of the loop. -/
theorem SegState.step (hs : SegSetup x0 y0 x1 y1 dx dy sx sy a b D E) {m : ℕ} {u v : ℤ}
    {x y err : Int32} (h : SegState x0 y0 a b D E (m + 1) u v x y err) :
    ∃ u' v', |u' - u| ≤ 1 ∧ |v' - v| ≤ 1 ∧
      SegState x0 y0 a b D E m u' v' (if 2 * err ≥ dy then x + sx else x)
        (if 2 * err ≤ dx then y + sy else y)
        (if 2 * err ≤ dx then (if 2 * err ≥ dy then err + dy else err) + dx
          else if 2 * err ≥ dy then err + dy else err) := by
  obtain ⟨ha, hb, ⟨hD0, hD⟩, ⟨hE0, hE⟩, hx1, hy1, hdx, hdy, hsx, hsy⟩ := hs
  obtain ⟨hline, hx, hy, herr⟩ := h
  have hbound := OnLine.error_bounds hline hD hE hD0 hE0
  have hnext := hline.step
  have he2 : (2 * err).toInt = 2 * lineError D E u v := by
    rw [toInt_double_of (by omega), herr]
  have hcx : 2 * err ≥ dy ↔ -E ≤ 2 * lineError D E u v := by
    rw [ge_iff_le, Int32.le_iff_toInt_le, he2, hdy]
  have hcy : 2 * err ≤ dx ↔ 2 * lineError D E u v ≤ D := by
    rw [Int32.le_iff_toInt_le, he2, hdx]
  refine ⟨_, _, ?_, ?_, hnext, ?_, ?_, ?_⟩
  · split_ifs <;> simp
  · split_ifs <;> simp
  · have hin := unit_mul_bounds ha hnext.u_nonneg hnext.u_le hx1
    simp only [hcx]
    split_ifs at hin ⊢
    · have hmul : a * (u + 1) = a * u + a := by ring
      rw [toInt_add_of (by omega), hx, hsx]
      omega
    · exact hx
  · have hin := unit_mul_bounds hb hnext.v_nonneg hnext.v_le hy1
    simp only [hcy]
    split_ifs at hin ⊢
    · have hmul : b * (v + 1) = b * v + b := by ring
      rw [toInt_add_of (by omega), hy, hsy]
      omega
    · exact hy
  · simp only [hcx, hcy]
    unfold lineError at *
    have hv' : D * (v + 1 + 1) = D * (v + 1) + D := by ring
    have hu' : E * (u + 1 + 1) = E * (u + 1) + E := by ring
    have hx' : (err + dy).toInt = err.toInt + dy.toInt := toInt_add_of (by omega)
    split_ifs
    · rw [toInt_add_of (by omega), hx']
      omega
    · rw [toInt_add_of (by omega)]
      omega
    · rw [hx']
      omega
    · exact herr

theorem SegPoint.between (hs : SegSetup x0 y0 x1 y1 dx dy sx sy a b D E) {m : ℕ}
    {p : Int32 × Int32} (h : SegPoint x0.toInt y0.toInt a b D E m p) :
    (x1.toInt = x0.toInt → p.1.toInt = x0.toInt) ∧ (y1.toInt = y0.toInt → p.2.toInt = y0.toInt) := by
  obtain ⟨u, v, hline, hpx, hpy⟩ := h
  have hu := hline.u_nonneg
  have huD := hline.u_le
  have hv := hline.v_nonneg
  have hvE := hline.v_le
  have hx1 := hs.x1_eq
  have hy1 := hs.y1_eq
  constructor
  · intro hx
    rcases hs.a_unit with rfl | rfl <;> omega
  · intro hy
    rcases hs.b_unit with rfl | rfl <;> omega

end Line

section Ring

variable {r X Y : ℤ} {x y err : Int32}

/-- Where the loop stands. -/
structure RingState (r X Y : ℤ) (x y err : Int32) : Prop where
  x_eq : x.toInt = X
  y_eq : y.toInt = Y
  err_eq : err.toInt = circleError r X Y

/-- One turn of the loop, from a point of the octant. -/
theorem RingState.step (hr : r < 2 ^ 29) (hpoint : OnOctant r X Y) (h : RingState r X Y x y err) :
    RingState r (if circleError r X Y < 0 then X else X - 1) (Y + 1)
      (if err < 0 then x else x - 1) (y + 1)
      (if err < 0 then err + (2 * (y + 1) + 1)
        else err + (2 * (y + 1 - (if err < 0 then x else x - 1)) + 1)) := by
  obtain ⟨hx, hy, herr⟩ := h
  have hbounds := hpoint.error_bounds
  have hY := hpoint.y_nonneg
  have hYX := hpoint.y_le
  have hXr := hpoint.x_le
  have hone : (1 : Int32).toInt = 1 := by decide
  have hneg : err < 0 ↔ circleError r X Y < 0 := by
    have hzero : (0 : Int32).toInt = 0 := by decide
    rw [Int32.lt_iff_toInt_lt, herr, hzero]
  have hy' : (y + 1).toInt = Y + 1 := by rw [toInt_add_of (by omega), hy, hone]
  have hx' : (x - 1).toInt = X - 1 := by rw [toInt_sub_of (by omega), hx, hone]
  refine ⟨?_, hy', ?_⟩
  · simp only [hneg]
    split_ifs
    · exact hx
    · exact hx'
  · simp only [hneg]
    split_ifs with hc
    · have htwo : (2 * (y + 1)).toInt = 2 * (Y + 1) := by rw [toInt_double_of (by omega), hy']
      have hinc : (2 * (y + 1) + 1).toInt = 2 * (Y + 1) + 1 := by
        rw [toInt_add_of (by omega), htwo, hone]
      rw [toInt_add_of (by omega), herr, hinc, OnOctant.error_keep, add_assoc]
    · have hdiff : (y + 1 - (x - 1)).toInt = Y + 1 - (X - 1) := by
        rw [toInt_sub_of (by omega), hy', hx']
      have htwo : (2 * (y + 1 - (x - 1))).toInt = 2 * (Y + 1 - (X - 1)) := by
        rw [toInt_double_of (by omega), hdiff]
      have hinc : (2 * (y + 1 - (x - 1)) + 1).toInt = 2 * (Y + 1 - (X - 1)) + 1 := by
        rw [toInt_add_of (by omega), htwo, hone]
      rw [toInt_add_of (by omega), herr, hinc, OnOctant.error_inward, add_assoc]

/-- Points of the octant from the row `Y` on, one for each row up to the diagonal. -/
structure RingTrace (r Y : ℤ) (ps : List (Int32 × Int32)) : Prop where
  rows : ps.map (fun p => p.2.toInt) = (List.range ps.length).map fun i : ℕ => Y + i
  octant : ∀ p ∈ ps, p.2.toInt ≤ p.1.toInt
  near : ∀ p ∈ ps, |p.1.toInt ^ 2 + p.2.toInt ^ 2 - r ^ 2| ≤ p.1.toInt
  last : ∃ p, ps.getLast? = some p ∧ p.1.toInt ≤ p.2.toInt + 1

theorem RingTrace.cons {p : Int32 × Int32} {ps : List (Int32 × Int32)} (hY : p.2.toInt = Y)
    (hp : OnOctant r p.1.toInt p.2.toInt) (h : RingTrace r (Y + 1) ps) : RingTrace r Y (p :: ps) := by
  obtain ⟨hrows, hoct, hnear, q, hlast, hq⟩ := h
  refine ⟨?_, ?_, ?_, q, ?_, hq⟩
  · rw [List.map_cons, hrows, hY, List.length_cons, List.range_succ_eq_map, List.map_cons,
      List.map_map]
    simp only [Function.comp_def, Nat.cast_zero, add_zero, Nat.cast_succ, List.cons.injEq,
      true_and]
    exact List.map_congr_left fun i _ => by ring
  · exact List.forall_mem_cons.mpr ⟨hp.y_le, hoct⟩
  · exact List.forall_mem_cons.mpr ⟨hp.near, hnear⟩
  · rw [List.getLast?_cons, hlast]
    rfl

theorem RingTrace.single {p : Int32 × Int32} (hY : p.2.toInt = Y)
    (hp : OnOctant r p.1.toInt p.2.toInt) (hlast : p.1.toInt ≤ p.2.toInt + 1) :
    RingTrace r Y [p] where
  rows := by simp [hY]
  octant := by simpa using hp.y_le
  near := by simpa using hp.near
  last := ⟨p, rfl, hlast⟩

end Ring

/-- A point inside the rectangle. -/
def Clip.Inside (c : Clip) (x y : Int32) : Prop :=
  c.clx.toInt ≤ x.toInt ∧ x.toInt < c.clx.toInt + c.clw.toInt ∧
  c.cly.toInt ≤ y.toInt ∧ y.toInt < c.cly.toInt + c.clh.toInt

/-- Bytes of a pixel that is on the screen and shows a point inside the rectangle. -/
def Screen.Shows (s : Screen) (c : Clip) (i : ℕ) : Prop :=
  ∃ x y, c.Inside x y ∧
    (0 ≤ (x - s.viewX).toInt ∧ (x - s.viewX).toInt < s.width.toInt32.toInt) ∧
    (0 ≤ (y - s.viewY).toInt ∧ (y - s.viewY).toInt < s.height.toInt32.toInt) ∧
    s.pixel (x - s.viewX) (y - s.viewY) ≤ i ∧ i < s.pixel (x - s.viewX) (y - s.viewY) + 4

/-- Nothing else has changed. -/
structure DrawsIn (c : Clip) (s s' : Screen) : Prop where
  screen : { s' with draw := s.draw } = s
  pixels : ∀ i, s'.draw i ≠ s.draw i → s.Shows c i

theorem DrawsIn.refl (c : Clip) (s : Screen) : DrawsIn c s s := ⟨rfl, fun _ h => absurd rfl h⟩

theorem DrawsIn.trans {c : Clip} {s s' s'' : Screen} (h : DrawsIn c s s') (h' : DrawsIn c s' s'') :
    DrawsIn c s s'' := by
  obtain ⟨hscreen, hpixels⟩ := h
  obtain ⟨hscreen', hpixels'⟩ := h'
  have hsame : ∀ i, s'.Shows c i → s.Shows c i := by
    intro i hi
    rw [← hscreen]
    exact hi
  refine ⟨?_, fun i hi => ?_⟩
  · rw [← hscreen, ← hscreen']
  · by_cases hmid : s'.draw i = s.draw i
    · exact hsame i (hpixels' i (by rwa [hmid]))
    · exact hpixels i hmid

end XinuRpi4.Video
