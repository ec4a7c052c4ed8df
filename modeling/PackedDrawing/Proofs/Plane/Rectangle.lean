import PackedDrawing.Proofs.Plane.Turn
import PackedDrawing.Proofs.Reals.Ranges

/-!
# The smallest rectangle covers its polygon

Whatever rectangle the search over the edges ends with, the polygon fits into it once it is turned
by the angle of the rectangle. Edges without length have no rectangle; where all edges are such, the
polygon is one point and fits into the unit square.

## Main definitions

* `Rectangle.Covers`: turned points fit into a width and a height.

## Main statements

* `Rectangle.covers_flat`: the polygon, turned flat, fits into the width and the height of its
  smallest rectangle, and `Rectangle.flat_bounds`: these are in order and at least one.
-/

namespace PackedDrawing

namespace Point

theorem hypot_eq_sqrt (x y : ℝ) : Scalar.hypot x y = Real.sqrt (x ^ 2 + y ^ 2) := rfl

theorem hypot_sub_eq_zero {p q : Point ℝ} :
    Scalar.hypot (p.x - q.x) (p.y - q.y) = 0 ↔ p = q := by
  rw [hypot_eq_sqrt, Real.sqrt_eq_zero (by positivity), ext_iff]
  constructor
  · intro h
    obtain ⟨hx, hy⟩ := sum_sq_eq_zero h
    exact ⟨sub_eq_zero.mp hx, sub_eq_zero.mp hy⟩
  · rintro ⟨hx, hy⟩
    rw [hx, hy]
    ring

theorem outwardNormal_self (p : Point ℝ) : outwardNormal p p = origin := by
  have hzero := hypot_sub_eq_zero.mpr (Eq.refl p)
  rw [outwardNormal, rightOf, sub_x, sub_y, hzero, Scalar.eq_eq_decide, Scalar.zero_eq]
  simp

theorem outwardNormal_eq {p q : Point ℝ} (h : p ≠ q) :
    outwardNormal p q = ⟨(q.y - p.y) / Scalar.hypot (q.x - p.x) (q.y - p.y),
      -(q.x - p.x) / Scalar.hypot (q.x - p.x) (q.y - p.y)⟩ := by
  have hlength : Scalar.hypot (q.x - p.x) (q.y - p.y) ≠ 0 := fun hz =>
    h (hypot_sub_eq_zero.mp hz).symm
  rw [outwardNormal, rightOf, sub_x, sub_y, Scalar.eq_eq_decide, Scalar.zero_eq]
  simp [hlength]

theorem outwardNormal_unit {p q : Point ℝ} (h : p ≠ q) :
    (outwardNormal p q).x ^ 2 + (outwardNormal p q).y ^ 2 = 1 := by
  have hlength : Scalar.hypot (q.x - p.x) (q.y - p.y) ≠ 0 := fun hz =>
    h (hypot_sub_eq_zero.mp hz).symm
  have hsquare : Scalar.hypot (q.x - p.x) (q.y - p.y) ^ 2 =
      (q.x - p.x) ^ 2 + (q.y - p.y) ^ 2 := Real.sq_sqrt (by positivity)
  rw [outwardNormal_eq h, div_pow, div_pow, ← add_div, hsquare, neg_sq, add_comm]
  exact div_self (hsquare ▸ pow_ne_zero 2 hlength)

/-- The normal of an edge is across it. -/
theorem outwardNormal_across {p q : Point ℝ} (h : p ≠ q) :
    (outwardNormal p q).x * (q.x - p.x) + (outwardNormal p q).y * (q.y - p.y) = 0 := by
  rw [outwardNormal_eq h]
  ring

theorem nonzero_outwardNormal_iff {p q : Point ℝ} :
    (outwardNormal p q).nonzero = true ↔ p ≠ q := by
  constructor
  · rintro hn rfl
    rw [outwardNormal_self] at hn
    simp [nonzero, origin] at hn
  · intro h
    have hunit := outwardNormal_unit h
    by_contra hn
    simp only [nonzero, Scalar.eq_eq_decide, Scalar.zero_eq, Bool.not_eq_true, Bool.not_eq_false',
      Bool.and_eq_true, decide_eq_true_eq] at hn
    rw [hn.1, hn.2] at hunit
    norm_num at hunit

end Point

namespace Polygon

theorem eq_of_edges_degenerate {v w : Point ℝ} {vs : List (Point ℝ)}
    (h : ∀ e ∈ (v :: vs).zip (vs ++ [w]), e.1 = e.2) : ∀ u ∈ v :: vs, u = v := by
  induction vs generalizing v with
  | nil =>
      intro u hu
      exact List.mem_singleton.mp hu
  | cons v' rest ih =>
      rw [List.cons_append, List.zip_cons_cons] at h
      have hv : v = v' := h (v, v') List.mem_cons_self
      have hrest := ih fun e he => h e (List.mem_cons_of_mem _ he)
      intro u hu
      rcases List.mem_cons.mp hu with rfl | hu
      · rfl
      · exact (hrest u hu).trans hv.symm

/-- A polygon all of whose edges are without length is one point. -/
theorem eq_of_no_edge {p : Polygon ℝ} (h : ∀ e ∈ p.edges, e.1 = e.2) :
    ∀ u ∈ p.vertices, ∀ v ∈ p.vertices, u = v := by
  obtain ⟨vertices⟩ := p
  cases vertices with
  | nil =>
      intro u hu
      cases hu
  | cons v vs =>
      have hall := eq_of_edges_degenerate h
      intro u hu u' hu'
      exact (hall u hu).trans (hall u' hu').symm

end Polygon

namespace Rectangle

open Point

/-- Points, turned by an angle, fit into a width and a height. -/
structure Covers (points : List (Point ℝ)) (angle width height : ℝ) : Prop where
  wide : ∀ p ∈ points, ∀ q ∈ points, (p.rotate angle).x - (q.rotate angle).x ≤ width
  tall : ∀ p ∈ points, ∀ q ∈ points, (p.rotate angle).y - (q.rotate angle).y ≤ height

theorem dot_sub_le_extent {points : List (Point ℝ)} (start direction : Point ℝ) {p q : Point ℝ}
    (hp : p ∈ points) (hq : q ∈ points) :
    p.dot direction - q.dot direction ≤ extent points start direction := by
  obtain ⟨low, high, h⟩ := exists_ranges (fun r : Point ℝ => (r - start).dot direction)
    (List.ne_nil_of_mem hp)
  have hhigh := h.le_high p hp
  have hlow := h.low_le q hq
  rw [extent, h.spread_eq]
  simp only [dot, sub_x, sub_y] at hhigh hlow ⊢
  linarith

theorem mem_candidates_iff {p : Polygon ℝ} {r : Rectangle ℝ} :
    r ∈ candidates p ↔
      ∃ e ∈ p.edges, e.1 ≠ e.2 ∧ r = around p.vertices e.1 (outwardNormal e.1 e.2) := by
  rw [candidates, List.mem_filterMap]
  constructor
  · rintro ⟨e, he, h⟩
    by_cases hn : (outwardNormal e.1 e.2).nonzero = true
    · rw [if_pos hn] at h
      exact ⟨e, he, nonzero_outwardNormal_iff.mp hn, (Option.some.inj h).symm⟩
    · rw [if_neg hn] at h
      cases h
  · rintro ⟨e, he, hne, rfl⟩
    exact ⟨e, he, if_pos (nonzero_outwardNormal_iff.mpr hne)⟩

theorem width_around (points : List (Point ℝ)) (start n : Point ℝ) :
    (around points start n).width = max (extent points start (along n)) 1 := by
  change Scalar.larger _ _ = _
  rw [Scalar.larger_eq_max]
  norm_num

theorem height_around (points : List (Point ℝ)) (start n : Point ℝ) :
    (around points start n).height = max (extent points start n) 1 := by
  change Scalar.larger _ _ = _
  rw [Scalar.larger_eq_max]
  norm_num

theorem covers_around {points : List (Point ℝ)} {n : Point ℝ} (hn : n.x ^ 2 + n.y ^ 2 = 1)
    (start : Point ℝ) :
    Covers points (Pose.upright n) (around points start n).width (around points start n).height := by
  constructor
  · intro p hp q hq
    rw [Pose.rotate_upright hn, Pose.rotate_upright hn, width_around]
    exact (dot_sub_le_extent start (along n) hp hq).trans (le_max_left _ _)
  · intro p hp q hq
    have hle := dot_sub_le_extent start n hq hp
    rw [Pose.rotate_upright hn, Pose.rotate_upright hn, height_around]
    refine le_trans ?_ (le_max_left _ _)
    linarith

/-- Points that are all the same fit into anything. -/
theorem covers_of_eq {points : List (Point ℝ)} (h : ∀ p ∈ points, ∀ q ∈ points, p = q)
    (angle : ℝ) {width height : ℝ} (hw : 0 ≤ width) (hh : 0 ≤ height) :
    Covers points angle width height := by
  constructor
  · intro p hp q hq
    rw [h p hp q hq, sub_self]
    exact hw
  · intro p hp q hq
    rw [h p hp q hq, sub_self]
    exact hh

/-- The best rectangle is one of those it was chosen from. -/
theorem foldl_choose_mem (rs : List (Rectangle ℝ)) (best : Option ℝ × Rectangle ℝ) :
    (rs.foldl choose best).2 = best.2 ∧ (rs = [] ∨ best.1.isSome) ∨
      (rs.foldl choose best).2 ∈ rs := by
  induction rs generalizing best with
  | nil => exact Or.inl ⟨rfl, Or.inl rfl⟩
  | cons r rest ih =>
      rcases ih (choose best r) with ⟨heq, _⟩ | hmem
      · rw [List.foldl_cons, heq]
        cases hbest : best.1 with
        | none =>
            refine Or.inr ?_
            rw [choose, hbest]
            exact List.mem_cons_self
        | some a =>
            rw [choose, hbest]
            by_cases hle : Scalar.le r.area a = true
            · simp [hle]
            · exact Or.inl ⟨by simp [hle], Or.inr rfl⟩
      · exact Or.inr (List.mem_cons_of_mem r hmem)

/-- The smallest rectangle is on an edge, unless the polygon is a single point. -/
theorem smallest_cases (p : Polygon ℝ) :
    smallest p ∈ candidates p ∨
      smallest p = unit ∧ ∀ u ∈ p.vertices, ∀ v ∈ p.vertices, u = v := by
  by_cases hsize : p.size ≤ 1
  · refine Or.inr ⟨if_pos hsize, ?_⟩
    intro u hu v hv
    obtain ⟨i, hi, rfl⟩ := List.getElem_of_mem hu
    obtain ⟨j, hj, rfl⟩ := List.getElem_of_mem hv
    have hsame : i = j := by
      change p.vertices.length ≤ 1 at hsize
      omega
    simp only [hsame]
  · have hsmallest : smallest p = ((candidates p).foldl choose (none, unit)).2 := if_neg hsize
    rw [hsmallest]
    rcases foldl_choose_mem (candidates p) (none, unit) with ⟨heq, hnil | hsome⟩ | hmem
    · refine Or.inr ⟨heq, ?_⟩
      apply Polygon.eq_of_no_edge
      intro e he
      by_contra hne
      have hmem := mem_candidates_iff.mpr ⟨e, he, hne, rfl⟩
      rw [hnil] at hmem
      cases hmem
    · cases hsome
    · exact Or.inl hmem

/-- A polygon, turned by the angle of its smallest rectangle, fits into it. -/
theorem covers_smallest (p : Polygon ℝ) :
    Covers p.vertices (Pose.upright (smallest p).normal) (smallest p).width (smallest p).height := by
  rcases smallest_cases p with hmem | ⟨heq, hsame⟩
  · obtain ⟨e, _, hne, heq⟩ := mem_candidates_iff.mp hmem
    rw [heq]
    exact covers_around (outwardNormal_unit hne) e.1
  · rw [heq]
    apply covers_of_eq hsame
    · norm_num [unit]
    · norm_num [unit]

theorem one_le_smallest (p : Polygon ℝ) : 1 ≤ (smallest p).width ∧ 1 ≤ (smallest p).height := by
  rcases smallest_cases p with hmem | ⟨heq, _⟩
  · obtain ⟨e, _, _, heq⟩ := mem_candidates_iff.mp hmem
    rw [heq, width_around, height_around]
    exact ⟨le_max_right _ _, le_max_right _ _⟩
  · rw [heq]
    norm_num [unit]

/-- After a further quarter turn width and height are exchanged. -/
theorem Covers.quarter {points : List (Point ℝ)} {angle width height : ℝ}
    (h : Covers points angle width height) :
    Covers points (angle + Real.pi / 2) height width := by
  constructor
  · intro p hp q hq
    have hle := h.tall q hq p hp
    rw [rotate_add_half_pi, rotate_add_half_pi]
    linarith
  · intro p hp q hq
    rw [rotate_add_half_pi, rotate_add_half_pi]
    exact h.wide p hp q hq

theorem flat_cases (r : Rectangle ℝ) :
    r.width < r.height ∧
        Pose.flat r = (Pose.upright r.normal + Real.pi / 2, r.height, r.width) ∨
      r.height ≤ r.width ∧ Pose.flat r = (Pose.upright r.normal, r.width, r.height) := by
  have hhalf : (0.5 * Scalar.pi : ℝ) = Real.pi / 2 := by
    change 0.5 * Real.pi = Real.pi / 2
    ring
  unfold Pose.flat
  rw [Scalar.lt_eq_decide, hhalf]
  by_cases h : r.width < r.height
  · exact Or.inl ⟨h, by simp [h]⟩
  · exact Or.inr ⟨not_lt.mp h, by simp [h]⟩

/-- A polygon, turned flat, fits into the width and the height of its smallest rectangle. -/
theorem covers_flat (p : Polygon ℝ) {angle width height : ℝ}
    (h : Pose.flat (smallest p) = (angle, width, height)) :
    Covers p.vertices angle width height := by
  rcases flat_cases (smallest p) with ⟨_, heq⟩ | ⟨_, heq⟩
  · obtain ⟨rfl, rfl, rfl⟩ := heq.symm.trans h
    exact (covers_smallest p).quarter
  · obtain ⟨rfl, rfl, rfl⟩ := heq.symm.trans h
    exact covers_smallest p

/-- The smallest rectangle lies flat, and none of its sides is below one. -/
theorem flat_bounds (p : Polygon ℝ) {angle width height : ℝ}
    (h : Pose.flat (smallest p) = (angle, width, height)) : 1 ≤ height ∧ height ≤ width := by
  have hone := one_le_smallest p
  rcases flat_cases (smallest p) with ⟨hlt, heq⟩ | ⟨hle, heq⟩
  · obtain ⟨rfl, rfl, rfl⟩ := heq.symm.trans h
    exact ⟨hone.1, hlt.le⟩
  · obtain ⟨rfl, rfl, rfl⟩ := heq.symm.trans h
    exact ⟨hone.2, hle⟩

end Rectangle

end PackedDrawing
