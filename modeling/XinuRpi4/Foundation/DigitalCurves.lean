import Mathlib.Tactic

/-!
# Lines and circles on a grid

A line and an octant of a circle are followed from one point of the grid to the next by an
error term, which says how far the next point is off the curve.
-/

namespace XinuRpi4.Foundation

/-- The point `(u, v)` of a line from the origin to `(D, E)`, and how many steps are left. -/
structure OnLine (D E : ℤ) (m : ℕ) (u v : ℤ) : Prop where
  u_nonneg : 0 ≤ u
  u_le : u ≤ D
  v_nonneg : 0 ≤ v
  v_le : v ≤ E
  near : 2 * |D * v - E * u| ≤ max D E
  left_u : E ≤ D → u + m = D
  left_v : D ≤ E → v + m = E

/-- The error term at a point. -/
def lineError (D E u v : ℤ) : ℤ := D * (v + 1) - E * (u + 1)

namespace OnLine

variable {D E u v : ℤ} {m : ℕ}

theorem start (hD : 0 ≤ D) (hE : 0 ≤ E) : OnLine D E (max D E).toNat 0 0 where
  u_nonneg := le_rfl
  u_le := hD
  v_nonneg := le_rfl
  v_le := hE
  near := by simp [hD]
  left_u h := by rw [max_eq_left h]; omega
  left_v h := by rw [max_eq_right h]; omega

theorem swap (h : OnLine D E m u v) : OnLine E D m v u where
  u_nonneg := h.v_nonneg
  u_le := h.v_le
  v_nonneg := h.u_nonneg
  v_le := h.u_le
  near := by rw [abs_sub_comm, max_comm]; exact h.near
  left_u := h.left_v
  left_v := h.left_u

/-- Where the line is flat, each step goes on along it. -/
theorem step_flat (h : OnLine D E (m + 1) u v) (hflat : E ≤ D) :
    -E ≤ 2 * lineError D E u v ∧
    OnLine D E m (u + 1) (if 2 * lineError D E u v ≤ D then v + 1 else v) := by
  obtain ⟨hu, huD, hv, hvE, hnear, hleft, hleft'⟩ := h
  have hu' : u + 1 + m = D := by
    have hm := hleft hflat
    push_cast at hm
    omega
  rw [max_eq_left hflat] at hnear
  have herr : lineError D E u v = (D * v - E * u) + D - E := by
    unfold lineError
    ring
  obtain ⟨hlo, hhi⟩ := abs_le.mp (le_refl |D * v - E * u|)
  rw [herr]
  refine ⟨by omega, by omega, by omega, by split_ifs <;> omega, ?_, ?_, fun _ => hu', fun hsteep => ?_⟩
  · -- a point above the line by more than half a pixel is not reached
    split_ifs with hc
    · by_contra hE
      obtain rfl : v = E := by omega
      have hup : D * v - v * u = v * (D - u) := by ring
      have hge : v ≤ v * (D - u) := le_mul_of_one_le_right hv (by omega)
      omega
    · exact hvE
  · rw [max_eq_left hflat]
    split_ifs with hc
    · have hnew : D * (v + 1) - E * (u + 1) = (D * v - E * u) + D - E := by ring
      rw [hnew]
      have habs : |D * v - E * u + D - E| ≤ D / 2 := abs_le.mpr ⟨by omega, by omega⟩
      omega
    · have hnew : D * v - E * (u + 1) = (D * v - E * u) - E := by ring
      rw [hnew]
      have habs : |D * v - E * u - E| ≤ D / 2 := abs_le.mpr ⟨by omega, by omega⟩
      omega
  · have hDE : D = E := le_antisymm hsteep hflat
    have hm' := hleft' hsteep
    push_cast at hm'
    have huv : u = v := by omega
    rw [if_pos]
    · omega
    · subst hDE huv
      have hzero : D * u - D * u = 0 := sub_self _
      omega

theorem lineError_swap : lineError E D v u = -lineError D E u v := by
  unfold lineError
  ring

/-- A step on either axis is taken when the error term says so. -/
theorem step (h : OnLine D E (m + 1) u v) :
    OnLine D E m (if -E ≤ 2 * lineError D E u v then u + 1 else u)
      (if 2 * lineError D E u v ≤ D then v + 1 else v) := by
  rcases le_total E D with hflat | hsteep
  · obtain ⟨hc, hnext⟩ := h.step_flat hflat
    rwa [if_pos hc]
  · obtain ⟨hc, hnext⟩ := h.swap.step_flat hsteep
    rw [lineError_swap] at hc hnext
    have hu : (2 * -lineError D E u v ≤ E) = (-E ≤ 2 * lineError D E u v) :=
      propext (by constructor <;> intro <;> omega)
    rw [if_pos (show 2 * lineError D E u v ≤ D by omega)]
    simp only [hu] at hnext
    exact hnext.swap

end OnLine

/-- What a point is off the circle of radius `r`. -/
def offCircle (r x y : ℤ) : ℤ := x ^ 2 + y ^ 2 - r ^ 2

/-- The error term at a point. -/
def circleError (r x y : ℤ) : ℤ := offCircle r x y + 2 * y + 1 - x

/-- A point of the octant from the point `(r, 0)` to the diagonal. -/
structure OnOctant (r x y : ℤ) : Prop where
  y_nonneg : 0 ≤ y
  y_le : y ≤ x
  x_le : x ≤ r
  inside : -x ≤ offCircle r x y
  outside : offCircle r x y < x ∨ x = 0 ∧ offCircle r x y = 0

namespace OnOctant

variable {r x y : ℤ}

theorem offCircle_start (r : ℤ) : offCircle r r 0 = 0 := by
  unfold offCircle
  ring

theorem start (hr : 0 ≤ r) : OnOctant r r 0 where
  y_nonneg := le_rfl
  y_le := hr
  x_le := le_rfl
  inside := by rw [offCircle_start]; omega
  outside := by rw [offCircle_start]; omega

theorem near (h : OnOctant r x y) : |x ^ 2 + y ^ 2 - r ^ 2| ≤ x := by
  obtain ⟨hy, hyx, -, hin, hout⟩ := h
  rw [offCircle] at hin hout
  exact abs_le.mpr ⟨hin, by omega⟩

theorem error_keep : circleError r x (y + 1) = circleError r x y + 2 * (y + 1) + 1 := by
  unfold circleError offCircle
  ring

theorem error_inward :
    circleError r (x - 1) (y + 1) = circleError r x y + 2 * (y + 1 - (x - 1)) + 1 := by
  unfold circleError offCircle
  ring

theorem error_bounds (h : OnOctant r x y) :
    -(2 * x) ≤ circleError r x y ∧ circleError r x y ≤ 2 * y + 1 := by
  obtain ⟨hy, hyx, -, hin, hout⟩ := h
  unfold circleError
  omega

/-- The next point, as long as it is not beyond the diagonal. -/
theorem step (h : OnOctant r x y)
    (hnext : y + 1 ≤ if circleError r x y < 0 then x else x - 1) :
    OnOctant r (if circleError r x y < 0 then x else x - 1) (y + 1) := by
  obtain ⟨hy, hyx, hxr, hin, hout⟩ := h
  split_ifs at hnext ⊢ with herr
  · have hoff : offCircle r x (y + 1) = offCircle r x y + 2 * y + 1 := by
      unfold offCircle
      ring
    unfold circleError at herr
    exact ⟨by omega, hnext, hxr, by omega, by omega⟩
  · have hoff : offCircle r (x - 1) (y + 1) = offCircle r x y + 2 * y + 1 - 2 * x + 1 := by
      unfold offCircle
      ring
    unfold circleError at herr
    exact ⟨by omega, hnext, by omega, by omega, by omega⟩

end OnOctant

end XinuRpi4.Foundation
