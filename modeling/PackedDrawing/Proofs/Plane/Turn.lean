import PackedDrawing.Proofs.Reals.Scalar
import PackedDrawing.Proofs.Outcome
import PackedDrawing.Placement.Pose

/-!
# Turning is a rotation

Turning a point goes through polar form: the angle is added to the point's own one. In exact
arithmetic this is the linear rotation about the origin, at every point including the origin, where
the own angle is arbitrary.

## Main statements

* `Point.turn_eq_rotate`: turning never fails and rotates.
* `Point.distance_carry`: a rotation followed by a translation keeps distances.
* `Pose.rotate_upright`: the turn that a normal asks for takes the normal to the negative y axis.
-/

namespace PackedDrawing

namespace Point

/-- A point rotated about the origin. -/
noncomputable def rotate (angle : ℝ) (p : Point ℝ) : Point ℝ :=
  ⟨p.x * Real.cos angle - p.y * Real.sin angle, p.x * Real.sin angle + p.y * Real.cos angle⟩

/-- A point rotated about the origin and then moved by a vector. -/
noncomputable def carry (angle : ℝ) (vector p : Point ℝ) : Point ℝ := p.rotate angle + vector

/-- How far two points are apart. -/
noncomputable def distance (p q : Point ℝ) : ℝ := Scalar.hypot (p.x - q.x) (p.y - q.y)

theorem ext_iff {p q : Point ℝ} : p = q ↔ p.x = q.x ∧ p.y = q.y := by
  cases p
  cases q
  simp

theorem sum_sq_eq_zero {x y : ℝ} (h : x ^ 2 + y ^ 2 = 0) : x = 0 ∧ y = 0 := by
  have hx : x ^ 2 = 0 := by nlinarith [sq_nonneg x, sq_nonneg y]
  have hy : y ^ 2 = 0 := by nlinarith [sq_nonneg x, sq_nonneg y]
  exact ⟨pow_eq_zero_iff two_ne_zero |>.mp hx, pow_eq_zero_iff two_ne_zero |>.mp hy⟩

theorem sum_sq_sub_pos {p q : Point ℝ} (h : p ≠ q) : 0 < (p.x - q.x) ^ 2 + (p.y - q.y) ^ 2 := by
  refine lt_of_le_of_ne (by positivity) fun hzero => h (ext_iff.mpr ?_)
  obtain ⟨hx, hy⟩ := sum_sq_eq_zero hzero.symm
  exact ⟨sub_eq_zero.mp hx, sub_eq_zero.mp hy⟩

theorem turn_eq_rotate (p : Point ℝ) (angle : ℝ) : p.turn angle = .ok (p.rotate angle) := by
  have hnorm : ‖(⟨p.x, p.y⟩ : ℂ)‖ = Real.sqrt (p.x ^ 2 + p.y ^ 2) :=
    Complex.norm_eq_sqrt_sq_add_sq _
  have hx := Complex.norm_mul_cos_arg ⟨p.x, p.y⟩
  have hy := Complex.norm_mul_sin_arg ⟨p.x, p.y⟩
  rw [hnorm] at hx hy
  change Except.ok (Point.mk (Real.cos (Complex.arg ⟨p.x, p.y⟩ + angle) * Real.sqrt (p.x ^ 2 + p.y ^ 2))
    (Real.sin (Complex.arg ⟨p.x, p.y⟩ + angle) * Real.sqrt (p.x ^ 2 + p.y ^ 2))) = _
  rw [Except.ok.injEq, ext_iff, Real.cos_add, Real.sin_add, rotate]
  constructor
  · linear_combination Real.cos angle * hx - Real.sin angle * hy
  · linear_combination Real.cos angle * hy + Real.sin angle * hx

theorem rotate_add (a b : ℝ) (p : Point ℝ) : p.rotate (a + b) = (p.rotate a).rotate b := by
  rw [ext_iff]
  simp only [rotate, Real.cos_add, Real.sin_add]
  constructor <;> ring

/-- A quarter turn. -/
theorem rotate_add_half_pi (a : ℝ) (p : Point ℝ) :
    p.rotate (a + Real.pi / 2) = ⟨-(p.rotate a).y, (p.rotate a).x⟩ := by
  rw [rotate_add, ext_iff]
  simp [rotate]

/-- Moving by a vector first only changes the vector that is moved by afterwards. -/
theorem carry_sub (angle : ℝ) (vector p c : Point ℝ) :
    carry angle vector (p - c) = carry angle (vector - c.rotate angle) p := by
  rw [ext_iff]
  simp only [carry, rotate, add_x, add_y, sub_x, sub_y]
  constructor <;> ring

theorem distance_carry (angle : ℝ) (vector p q : Point ℝ) :
    (carry angle vector p).distance (carry angle vector q) = p.distance q := by
  have hpyth := Real.sin_sq_add_cos_sq angle
  have hsquares : ((carry angle vector p).x - (carry angle vector q).x) ^ 2 +
      ((carry angle vector p).y - (carry angle vector q).y) ^ 2 =
        (p.x - q.x) ^ 2 + (p.y - q.y) ^ 2 := by
    simp only [carry, rotate, add_x, add_y]
    linear_combination ((p.x - q.x) ^ 2 + (p.y - q.y) ^ 2) * hpyth
  exact congrArg Real.sqrt hsquares

end Point

namespace Pose

/-- The turn of a unit normal takes the direction of the normal to the negative y axis, and that
along the edge to the positive x axis. -/
theorem rotate_upright {n : Point ℝ} (hn : n.x ^ 2 + n.y ^ 2 = 1) (p : Point ℝ) :
    p.rotate (upright n) = ⟨p.dot (Rectangle.along n), -(p.dot n)⟩ := by
  have hnorm : ‖(⟨n.x, n.y⟩ : ℂ)‖ = 1 := by
    rw [Complex.norm_eq_sqrt_sq_add_sq, hn, Real.sqrt_one]
  have hx := Complex.norm_mul_cos_arg ⟨n.x, n.y⟩
  have hy := Complex.norm_mul_sin_arg ⟨n.x, n.y⟩
  rw [hnorm, one_mul] at hx hy
  have hangle : upright n = 3 * Real.pi / 2 - Complex.arg ⟨n.x, n.y⟩ := by
    change -(Complex.arg ⟨n.x, n.y⟩) + 1.5 * Real.pi = _
    ring
  have hturn : 3 * Real.pi / 2 = Real.pi / 2 + Real.pi := by ring
  have hcos : Real.cos (upright n) = -n.y := by
    rw [hangle, Real.cos_sub, hturn, Real.cos_add_pi, Real.sin_add_pi, Real.cos_pi_div_two,
      Real.sin_pi_div_two, hy]
    ring
  have hsin : Real.sin (upright n) = -n.x := by
    rw [hangle, Real.sin_sub, hturn, Real.cos_add_pi, Real.sin_add_pi, Real.cos_pi_div_two,
      Real.sin_pi_div_two, hx]
    ring
  rw [Point.ext_iff]
  simp only [Point.rotate, Point.dot, Rectangle.along, hcos, hsin]
  constructor <;> ring

end Pose

end PackedDrawing
