import PackedDrawing.Proofs.Plane.Rectangle
import PackedDrawing.Proofs.Plane.Span

/-!
# The area of a rectangle as it is turned

How far points extend along a direction is a continuous function of the direction, and proportional
to its length. So is the area of the rectangle around them, to the square of the length, and there
is an orientation in which it is least.

## Main definitions

* `Rectangle.sweep`: the area of the rectangle across a direction, times the square of the length of
  the direction.

## Main statements

* `Rectangle.extent_scale`, `Rectangle.continuous_extent`: extents as functions of the direction.
* `Rectangle.exists_least`: there is an orientation of least area.
-/

namespace PackedDrawing

namespace Rectangle

open Point

section Directions

variable {vs : List (Point ℝ)}

theorem extent_eq {start d : Point ℝ} {low high : ℝ} (h : Ranges (form d.x d.y) vs low high) :
    extent vs start d = high - low := by
  have hvalue : ∀ p : Point ℝ, (p - start).dot d = form d.x d.y p - form d.x d.y start := by
    intro p
    simp only [form, dot, sub_x, sub_y]
    ring
  have hshift : Monotone fun t => t - form d.x d.y start := fun _ _ hle => sub_le_sub_right hle _
  have hshifted := (h.monotone_comp hshift).congr fun p _ => hvalue p
  rw [extent, hshifted.spread_eq, sub_sub_sub_cancel_right]

/-- The extent along a multiple of a direction. -/
theorem extent_scale (hne : vs ≠ []) (start start' d : Point ℝ) (c : ℝ) :
    extent vs start ⟨c * d.x, c * d.y⟩ = |c| * extent vs start' d := by
  obtain ⟨low, high, h⟩ := exists_ranges (form d.x d.y) hne
  have hvalue : ∀ p : Point ℝ, form (c * d.x) (c * d.y) p = c * form d.x d.y p := by
    intro p
    simp only [form]
    ring
  rw [extent_eq h]
  rcases le_total 0 c with hc | hc
  · have hscaled := (h.monotone_comp (monotone_mul_left_of_nonneg hc)).congr fun p _ => hvalue p
    rw [extent_eq hscaled, abs_of_nonneg hc, mul_sub]
  · have hscaled := (h.antitone_comp (antitone_mul_left hc)).congr fun p _ => hvalue p
    rw [extent_eq hscaled, abs_of_nonpos hc, neg_mul, mul_sub, neg_sub]

/-- It does not matter from where an extent is seen. -/
theorem extent_start (hne : vs ≠ []) (start start' d : Point ℝ) :
    extent vs start d = extent vs start' d := by
  have h := extent_scale hne start start' d 1
  rwa [abs_one, one_mul, one_mul, one_mul] at h

theorem extent_neg (hne : vs ≠ []) (start d : Point ℝ) :
    extent vs start ⟨-d.x, -d.y⟩ = extent vs start d := by
  have h := extent_scale hne start start d (-1)
  rwa [abs_neg, abs_one, neg_one_mul, neg_one_mul, one_mul] at h

theorem continuous_foldl {γ : Type} [TopologicalSpace γ] {select : ℝ → ℝ → ℝ}
    (hselect : Continuous fun q : ℝ × ℝ => select q.1 q.2) {fs : List (γ → ℝ)}
    (hfs : ∀ f ∈ fs, Continuous f) {g : γ → ℝ} (hg : Continuous g) :
    Continuous fun x => (fs.map (· x)).foldl select (g x) := by
  induction fs generalizing g with
  | nil => exact hg
  | cons f rest ih =>
      have hf := hfs f List.mem_cons_self
      exact ih (fun f' hf' => hfs f' (List.mem_cons_of_mem f hf'))
        (hselect.comp (hg.prodMk hf))

theorem continuous_extent (vs : List (Point ℝ)) (start : Point ℝ) :
    Continuous fun q : ℝ × ℝ => extent vs start ⟨q.1, q.2⟩ := by
  have hvalue : ∀ p : Point ℝ, Continuous fun q : ℝ × ℝ => (p - start).dot ⟨q.1, q.2⟩ := by
    intro p
    unfold dot
    fun_prop
  cases vs with
  | nil => exact continuous_const
  | cons p ps =>
      have hfs : ∀ f ∈ ps.map (fun r (q : ℝ × ℝ) => (r - start).dot ⟨q.1, q.2⟩), Continuous f := by
        intro f hf
        obtain ⟨r, _, rfl⟩ := List.mem_map.mp hf
        exact hvalue r
      have hmax := continuous_foldl continuous_max hfs (hvalue p)
      have hmin := continuous_foldl continuous_min hfs (hvalue p)
      simp only [List.map_map, Function.comp_def] at hmax hmin
      simp only [extent, List.map_cons, spread, Scalar.greatest_eq_foldl, Scalar.least_eq_foldl]
      exact hmax.sub hmin

/-- The area of the rectangle across a direction, times the square of the length of the
direction. -/
noncomputable def sweep (vs : List (Point ℝ)) (d : Point ℝ) : ℝ :=
  extent vs origin d * extent vs origin (along d)

theorem sweep_eq (hne : vs ≠ []) (start d : Point ℝ) :
    extent vs start d * extent vs start (along d) = sweep vs d := by
  rw [sweep, extent_start hne start origin, extent_start hne start origin]

theorem sweep_scale (hne : vs ≠ []) (d : Point ℝ) (c : ℝ) :
    sweep vs ⟨c * d.x, c * d.y⟩ = c ^ 2 * sweep vs d := by
  have hquarter : along (⟨c * d.x, c * d.y⟩ : Point ℝ) = ⟨c * (along d).x, c * (along d).y⟩ := by
    rw [ext_iff, along, along]
    constructor
    · ring
    · rfl
  rw [sweep, hquarter, extent_scale hne origin origin, extent_scale hne origin origin, sweep,
    ← sq_abs c]
  ring

/-- A rectangle is as large after a quarter turn. -/
theorem sweep_along (hne : vs ≠ []) (d : Point ℝ) : sweep vs (along d) = sweep vs d := by
  have htwice : along (along d) = ⟨-1 * d.x, -1 * d.y⟩ := by
    rw [ext_iff, along, along]
    constructor
    · ring
    · ring
  rw [sweep, htwice, extent_scale hne origin origin, sweep, abs_neg, abs_one]
  ring

theorem isCompact_circle : IsCompact {q : ℝ × ℝ | q.1 ^ 2 + q.2 ^ 2 = 1} := by
  have hclosed : IsClosed {q : ℝ × ℝ | q.1 ^ 2 + q.2 ^ 2 = 1} :=
    isClosed_eq (by fun_prop) continuous_const
  have hsub : {q : ℝ × ℝ | q.1 ^ 2 + q.2 ^ 2 = 1} ⊆ Set.Icc (-1, -1) (1, 1) := by
    intro q hq
    have hsum : q.1 ^ 2 + q.2 ^ 2 = 1 := hq
    have hx := abs_le_of_sq_le_sq' (a := q.1) (b := 1) (by nlinarith [sq_nonneg q.2]) zero_le_one
    have hy := abs_le_of_sq_le_sq' (a := q.2) (b := 1) (by nlinarith [sq_nonneg q.1]) zero_le_one
    exact ⟨⟨hx.1, hy.1⟩, ⟨hx.2, hy.2⟩⟩
  exact isCompact_Icc.of_isClosed_subset hclosed hsub

/-- There is an orientation of least area. -/
theorem exists_least (hne : vs ≠ []) :
    ∃ d : Point ℝ, d.x ^ 2 + d.y ^ 2 = 1 ∧
      ∀ e : Point ℝ, sweep vs d * (e.x ^ 2 + e.y ^ 2) ≤ sweep vs e := by
  have hcontinuous : Continuous fun q : ℝ × ℝ => sweep vs ⟨q.1, q.2⟩ := by
    have hquarter : Continuous fun q : ℝ × ℝ => ((-q.2, q.1) : ℝ × ℝ) := by fun_prop
    exact (continuous_extent vs origin).mul ((continuous_extent vs origin).comp hquarter)
  obtain ⟨q, hq, hleast⟩ := isCompact_circle.exists_isMinOn ⟨(1, 0), by simp⟩
    hcontinuous.continuousOn
  refine ⟨⟨q.1, q.2⟩, hq, ?_⟩
  intro e
  by_cases hzero : e.x ^ 2 + e.y ^ 2 = 0
  · have hscaled := sweep_scale hne e 0
    rw [zero_mul, zero_mul] at hscaled
    have he : e = ⟨0, 0⟩ := ext_iff.mpr (sum_sq_eq_zero hzero)
    rw [hzero, mul_zero, he, hscaled]
    simp
  · have hpos : 0 < e.x ^ 2 + e.y ^ 2 := lt_of_le_of_ne (by positivity) (Ne.symm hzero)
    -- the direction of the same orientation on the circle
    have hroot := Real.sq_sqrt hpos.le
    have hrootpos := Real.sqrt_pos.mpr hpos
    generalize Real.sqrt (e.x ^ 2 + e.y ^ 2) = r at hroot hrootpos
    have hon : (e.x / r) ^ 2 + (e.y / r) ^ 2 = 1 := by
      rw [div_pow, div_pow, ← add_div, hroot, div_self hzero]
    have hle : sweep vs ⟨q.1, q.2⟩ ≤ sweep vs ⟨e.x / r, e.y / r⟩ :=
      @hleast (e.x / r, e.y / r) hon
    have hscaled := sweep_scale hne ⟨e.x / r, e.y / r⟩ r
    simp only [mul_div_cancel₀ _ hrootpos.ne'] at hscaled
    rw [hroot] at hscaled
    have he : sweep vs e = (e.x ^ 2 + e.y ^ 2) * sweep vs ⟨e.x / r, e.y / r⟩ := hscaled
    rw [he, mul_comm]
    exact mul_le_mul_of_nonneg_left hle hpos.le

end Directions

end Rectangle

end PackedDrawing
