import Mathlib.Analysis.Calculus.LocalExtr.Basic
import Mathlib.Analysis.Calculus.Deriv.Mul
import Mathlib.Analysis.Calculus.Deriv.Pow
import PackedDrawing.Proofs.Plane.Extreme
import PackedDrawing.Proofs.Plane.Sweep

/-!
# The smallest rectangle is on an edge

While each of the four sides of a rectangle around points touches them at one point only, the area
has no local minimum as the rectangle is turned. So where the area is least a side touches two
points. The points being the vertices of a convex polygon, that side is then on an edge, and its
rectangle is one of those searched.

## Main definitions

* `Point.Foremost`, `Point.Tied`: a side touches the points at one point, or at two.

## Main statements

* `Rectangle.exists_tied`: at least area a side touches two points.
* `Point.exists_edge_of_tied`: a side that touches two vertices is on an edge.
* `Rectangle.smallest_area_le`: the smallest rectangle on an edge is no larger than the rectangle
  around the points in any orientation.
-/

namespace PackedDrawing

namespace Point

variable {vs : List (Point ℝ)} {a b : ℝ} {v : Point ℝ}

/-- A point is the only farthest one in a direction. -/
def Foremost (vs : List (Point ℝ)) (a b : ℝ) (v : Point ℝ) : Prop :=
  v ∈ vs ∧ ∀ u ∈ vs, u ≠ v → form a b u < form a b v

/-- Two different points are farthest in a direction. -/
def Tied (vs : List (Point ℝ)) (a b : ℝ) : Prop :=
  ∃ v ∈ vs, ∃ u ∈ vs, u ≠ v ∧ form a b u = form a b v ∧ ∀ w ∈ vs, form a b w ≤ form a b v

theorem foremost_or_tied (hne : vs ≠ []) (a b : ℝ) : (∃ v, Foremost vs a b v) ∨ Tied vs a b := by
  obtain ⟨low, high, h⟩ := exists_ranges (form a b) hne
  obtain ⟨v, hv, rfl⟩ := h.high_mem
  by_cases hunique : ∀ u ∈ vs, u ≠ v → form a b u < form a b v
  · exact Or.inl ⟨v, hv, hunique⟩
  · rw [not_forall] at hunique
    obtain ⟨u, hu⟩ := hunique
    rw [Classical.not_imp, Classical.not_imp, not_lt] at hu
    obtain ⟨hmem, huv, hle⟩ := hu
    exact Or.inr ⟨v, hv, u, hmem, huv, le_antisymm (h.le_high u hmem) hle, h.le_high⟩

theorem Foremost.le (h : Foremost vs a b v) {u : Point ℝ} (hu : u ∈ vs) :
    form a b u ≤ form a b v := by
  by_cases huv : u = v
  · rw [huv]
  · exact (h.2 u hu huv).le

/-- The farthest points both ways give the range. -/
theorem Foremost.ranges {w : Point ℝ} (h : Foremost vs a b v) (h' : Foremost vs (-a) (-b) w) :
    Ranges (form a b) vs (form a b w) (form a b v) := by
  refine ⟨?_, fun u hu => h.le hu, ⟨w, h'.1, rfl⟩, ⟨v, h.1, rfl⟩⟩
  intro u hu
  have hle := h'.le hu
  simp only [form] at hle ⊢
  linarith

/-- Different points extend in a direction in which single ones are farthest both ways. -/
theorem Foremost.lt {w : Point ℝ} (h : Foremost vs a b v) (h' : Foremost vs (-a) (-b) w)
    (hdifferent : ∃ p ∈ vs, ∃ q ∈ vs, p ≠ q) : form a b w < form a b v := by
  have hrange := h.ranges h'
  obtain ⟨p, hp, q, hq, hpq⟩ := hdifferent
  by_cases hpv : p = v
  · have hqv : q ≠ v := fun heq => hpq (hpv.trans heq.symm)
    exact (hrange.low_le q hq).trans_lt (h.2 q hq hqv)
  · exact (hrange.low_le p hp).trans_lt (h.2 p hp hpv)

/-- What is the only farthest point remains so while the direction is turned a little. -/
theorem Foremost.eventually (h : Foremost vs a b v) :
    ∀ᶠ t in nhds (0 : ℝ), Foremost vs (a - t * b) (b + t * a) v := by
  have hothers : ∀ᶠ t in nhds (0 : ℝ), ∀ u ∈ {u | u ∈ vs ∧ u ≠ v},
      form (a - t * b) (b + t * a) u < form (a - t * b) (b + t * a) v := by
    rw [Filter.eventually_all_finite ((List.finite_toSet vs).subset fun u hu => hu.1)]
    rintro u ⟨hu, huv⟩
    have hcontinuous : ∀ p : Point ℝ,
        Continuous fun t : ℝ => form (a - t * b) (b + t * a) p := by
      intro p
      unfold form
      fun_prop
    refine (hcontinuous u).continuousAt.eventually_lt (hcontinuous v).continuousAt ?_
    simpa using h.2 u hu huv
  filter_upwards [hothers] with t ht
  exact ⟨h.1, fun u hu huv => ht u ⟨hu, huv⟩⟩

/-- A side that touches two vertices of a polygon that turns left is on an edge. -/
theorem exists_edge_of_tied (hturn : LeftTurning vs) (hnodup : vs.Nodup) (h : Tied vs a b) :
    ∃ e ∈ (⟨vs⟩ : Polygon ℝ).edges, e.1 ≠ e.2 ∧ form a b e.1 = form a b e.2 := by
  obtain ⟨v, hv, u, hu, huv, heq, hfar⟩ := h
  obtain ⟨others, hrotated⟩ := Polygon.exists_isRotated_of_mem hv
  have hturn' := hturn.of_isRotated hrotated
  have hnodup' := hrotated.nodup_iff.mp hnodup
  have hlen := hrotated.perm.length_eq
  have hmem := (List.mem_cons.mp (hrotated.mem_iff.mp hu)).resolve_left huv
  obtain ⟨q, rest, rfl⟩ := List.exists_cons_of_ne_nil (List.ne_nil_of_mem hmem)
  have htwo : 2 ≤ vs.length := by
    rw [hlen, List.length_cons, List.length_cons]
    omega
  by_cases hq : form a b q = form a b v
  · have hvq : v ≠ q := fun heq' =>
      (List.nodup_cons.mp hnodup').1 (heq' ▸ List.mem_cons_self)
    exact ⟨(v, q), (Polygon.mem_edges_iff htwo).mpr ⟨rest, hrotated⟩, hvq, hq.symm⟩
  have hrest : u ∈ rest :=
    (List.mem_cons.mp hmem).resolve_left fun huq => hq (huq ▸ heq)
  obtain ⟨between, w, rfl⟩ : ∃ between w, rest = between ++ [w] :=
    ⟨_, _, (List.dropLast_append_getLast (List.ne_nil_of_mem hrest)).symm⟩
  by_cases hw : form a b w = form a b v
  · have hwv : w ≠ v := fun heq' => (List.nodup_cons.mp hnodup').1 (by simp [heq'])
    have happend : (v :: q :: between ++ [w]).IsRotated (w :: v :: q :: between) :=
      List.isRotated_append
    have hback : vs.IsRotated (w :: v :: q :: between) := hrotated.trans happend
    exact ⟨(w, v), (Polygon.mem_edges_iff htwo).mpr ⟨_, hback⟩, hwv, hw⟩
  -- between two neighbours that are nearer, all vertices are nearer
  have hbetween : u ∈ between := by
    rcases List.mem_append.mp hrest with hu' | hu'
    · exact hu'
    · rw [List.mem_singleton.mp hu'] at heq
      exact absurd heq hw
  have hqless : form a b q < form a b v :=
    lt_of_le_of_ne (hfar q (hrotated.mem_iff.mpr (by simp))) hq
  have hwless : form a b w < form a b v :=
    lt_of_le_of_ne (hfar w (hrotated.mem_iff.mpr (by simp))) hw
  exact absurd heq (hturn'.form_lt_between hqless hwless hbetween).ne

end Point

namespace Rectangle

open Point

section Touching

variable {vs : List (Point ℝ)}

/-- A parabola through zero that is nowhere below it nearby has its vertex there. -/
theorem eq_zero_of_eventually_nonneg {m k : ℝ}
    (h : ∀ᶠ t in nhds (0 : ℝ), 0 ≤ m * t + k * t ^ 2) : m = 0 ∧ 0 ≤ k := by
  have hslope : HasDerivAt (fun t : ℝ => m * t + k * t ^ 2) m 0 := by
    have hlinear := (hasDerivAt_id (0 : ℝ)).const_mul m
    have hsquare := (hasDerivAt_pow 2 (0 : ℝ)).const_mul k
    refine (hlinear.add hsquare).congr_deriv ?_
    ring
  have hlocal : IsLocalMin (fun t : ℝ => m * t + k * t ^ 2) 0 := by
    filter_upwards [h] with t ht
    simpa using ht
  have hzero : m = 0 := hlocal.hasDerivAt_eq_zero hslope
  refine ⟨hzero, ?_⟩
  obtain ⟨r, hr, hnear⟩ := Metric.eventually_nhds_iff.mp h
  have hhalf := @hnear (r / 2) (by rw [Real.dist_eq, sub_zero, abs_of_pos (by linarith)]; linarith)
  rw [hzero, zero_mul, zero_add] at hhalf
  exact nonneg_of_mul_nonneg_left hhalf (by positivity)

/-- The area of a turned rectangle, as a product of linear functions, is not least where both are
positive. -/
theorem product_not_least {u v u' v' : ℝ} (hu : 0 < u) (hv : 0 < v) :
    ¬ ∀ᶠ t in nhds (0 : ℝ), u * v * (1 + t ^ 2) ≤ (u + t * u') * (v - t * v') := by
  intro h
  have hparabola : ∀ᶠ t in nhds (0 : ℝ),
      0 ≤ (u' * v - u * v') * t + (-u' * v' - u * v) * t ^ 2 := by
    filter_upwards [h] with t ht
    linarith
  obtain ⟨hslope, hcurve⟩ := eq_zero_of_eventually_nonneg hparabola
  -- with its vertex here the parabola would open downward
  have hdown : u * v * (-u' * v' - u * v) = -((u * v') ^ 2 + (u * v) ^ 2) := by
    linear_combination -(u * v') * hslope
  have hup : 0 ≤ u * v * (-u' * v' - u * v) := mul_nonneg (mul_pos hu hv).le hcurve
  have hpos : 0 < (u * v') ^ 2 + (u * v) ^ 2 := by positivity
  linarith

/-- While each of its sides touches one point, the width and the height of a rectangle that is
turned a little are linear in the turn. -/
theorem sweep_turned {d p q r s : Point ℝ} (hp : Foremost vs d.x d.y p)
    (hq : Foremost vs (-d.x) (-d.y) q) (hr : Foremost vs (-d.y) d.x r)
    (hs : Foremost vs (- -d.y) (-d.x) s) :
    ∀ᶠ t in nhds (0 : ℝ), sweep vs ⟨d.x - t * d.y, d.y + t * d.x⟩ =
      (form d.x d.y p - form d.x d.y q + t * (form (-d.y) d.x p - form (-d.y) d.x q)) *
        (form (-d.y) d.x r - form (-d.y) d.x s - t * (form d.x d.y r - form d.x d.y s)) := by
  filter_upwards [hp.eventually, hq.eventually, hr.eventually, hs.eventually] with t hp' hq' hr' hs'
  have hback : Foremost vs (-(d.x - t * d.y)) (-(d.y + t * d.x)) q := by
    convert hq' using 1 <;> ring
  have hup : Foremost vs (-(d.y + t * d.x)) (d.x - t * d.y) r := by
    convert hr' using 1 <;> ring
  have hdown : Foremost vs (- -(d.y + t * d.x)) (-(d.x - t * d.y)) s := by
    convert hs' using 1 <;> ring
  rw [sweep, extent_eq (hp'.ranges hback), extent_eq (hup.ranges hdown)]
  simp only [form]
  ring

/-- Where the area is least, a side touches two points. -/
theorem exists_tied (hdifferent : ∃ p ∈ vs, ∃ q ∈ vs, p ≠ q) {d : Point ℝ}
    (hunit : d.x ^ 2 + d.y ^ 2 = 1)
    (hleast : ∀ e : Point ℝ, sweep vs d * (e.x ^ 2 + e.y ^ 2) ≤ sweep vs e) :
    ∃ e : Point ℝ, e.x ^ 2 + e.y ^ 2 = 1 ∧ sweep vs e = sweep vs d ∧ Tied vs e.x e.y := by
  have hne : vs ≠ [] := by
    obtain ⟨p, hp, _⟩ := hdifferent
    exact List.ne_nil_of_mem hp
  by_contra hnone
  -- otherwise each of the four sides touches one point
  have hside : ∀ e : Point ℝ, e.x ^ 2 + e.y ^ 2 = 1 → sweep vs e = sweep vs d →
      ∃ v, Foremost vs e.x e.y v := fun e he hsame =>
    (foremost_or_tied hne e.x e.y).resolve_right fun htied => hnone ⟨e, he, hsame, htied⟩
  have hback : ∀ e : Point ℝ, sweep vs ⟨-e.x, -e.y⟩ = sweep vs e := by
    intro e
    have h := sweep_scale hne e (-1)
    rwa [neg_one_mul, neg_one_mul, neg_one_sq, one_mul] at h
  have hopposite : ∀ e : Point ℝ, e.x ^ 2 + e.y ^ 2 = 1 → (-e.x) ^ 2 + (-e.y) ^ 2 = 1 := by
    intro e he
    rwa [neg_sq, neg_sq]
  have hquarter : (along d).x ^ 2 + (along d).y ^ 2 = 1 := by
    rw [along, neg_sq, add_comm, hunit]
  obtain ⟨p, hp⟩ := hside d hunit rfl
  obtain ⟨q, hq⟩ := hside ⟨-d.x, -d.y⟩ (hopposite d hunit) (hback d)
  obtain ⟨r, hr⟩ := hside (along d) hquarter (sweep_along hne d)
  obtain ⟨s, hs⟩ := hside ⟨-(along d).x, -(along d).y⟩ (hopposite (along d) hquarter)
    ((hback (along d)).trans (sweep_along hne d))
  have hhere : sweep vs d = (form d.x d.y p - form d.x d.y q) *
      (form (-d.y) d.x r - form (-d.y) d.x s) := by
    rw [sweep, extent_eq (hp.ranges hq), extent_eq (hr.ranges hs)]
    rfl
  apply product_not_least (sub_pos.mpr (hp.lt hq hdifferent)) (sub_pos.mpr (hr.lt hs hdifferent))
  filter_upwards [sweep_turned hp hq hr hs] with t hturned
  have hlength : (d.x - t * d.y) ^ 2 + (d.y + t * d.x) ^ 2 = 1 + t ^ 2 := by
    linear_combination (1 + t ^ 2) * hunit
  have hle := hleast ⟨d.x - t * d.y, d.y + t * d.x⟩
  rwa [hturned, hhere, hlength] at hle

end Touching

/-- One step of the search for a rectangle of least area. -/
theorem choose_spec {best : Option ℝ × Rectangle ℝ} (hbest : ∀ a, best.1 = some a → best.2.area = a)
    (r : Rectangle ℝ) :
    ∃ a, (choose best r).1 = some a ∧ (choose best r).2.area = a ∧ a ≤ r.area ∧
      ∀ b, best.1 = some b → a ≤ b := by
  obtain ⟨bound, found⟩ := best
  cases bound with
  | none => exact ⟨r.area, rfl, rfl, le_rfl, fun b hb => by cases hb⟩
  | some b =>
      by_cases hle : r.area ≤ b
      · have hchoose : choose (some b, found) r = (some r.area, r) := if_pos (by simpa using hle)
        rw [hchoose]
        refine ⟨r.area, rfl, rfl, le_rfl, ?_⟩
        intro b' hb'
        exact Option.some.inj hb' ▸ hle
      · have hchoose : choose (some b, found) r = (some b, found) := if_neg (by simpa using hle)
        rw [hchoose]
        refine ⟨b, rfl, hbest b rfl, (not_le.mp hle).le, ?_⟩
        intro b' hb'
        exact (Option.some.inj hb').le

/-- The search for a rectangle of least area ends with one. -/
theorem foldl_choose_le {rs : List (Rectangle ℝ)} {best : Option ℝ × Rectangle ℝ}
    (hbest : ∀ a, best.1 = some a → best.2.area = a) :
    (∀ a, best.1 = some a → (rs.foldl choose best).2.area ≤ a) ∧
      ∀ r ∈ rs, (rs.foldl choose best).2.area ≤ r.area := by
  induction rs generalizing best with
  | nil => exact ⟨fun a ha => (hbest a ha).le, fun r hr => absurd hr List.not_mem_nil⟩
  | cons r rest ih =>
      obtain ⟨a, ha, harea, hr, hbetter⟩ := choose_spec hbest r
      obtain ⟨hfirst, hrest⟩ := @ih (choose best r) fun b hb =>
        harea.trans (Option.some.inj (ha.symm.trans hb))
      refine ⟨fun b hb => (hfirst a ha).trans (hbetter b hb), ?_⟩
      intro r' hr'
      rcases List.mem_cons.mp hr' with rfl | hr'
      · exact (hfirst a ha).trans hr
      · exact hrest r' hr'

theorem smallest_le {p : Polygon ℝ} (hsize : 2 ≤ p.size) {r : Rectangle ℝ}
    (hr : r ∈ candidates p) : (smallest p).area ≤ r.area := by
  rw [smallest, if_neg (by omega)]
  exact (foldl_choose_le fun a ha => by cases ha).2 r hr

/-- A direction across an edge is a multiple of the normal of the edge. -/
theorem eq_scaled_normal {p q d : Point ℝ} (hpq : p ≠ q) (hunit : d.x ^ 2 + d.y ^ 2 = 1)
    (hacross : form d.x d.y p = form d.x d.y q) :
    ∃ c : ℝ, c ^ 2 = 1 ∧ d = ⟨c * (outwardNormal p q).x, c * (outwardNormal p q).y⟩ := by
  have hnormal := outwardNormal_unit hpq
  have hedge := outwardNormal_across hpq
  generalize outwardNormal p q = n at *
  simp only [form] at hacross
  -- in the plane two directions across the same edge are parallel
  have hparallel : d.x * n.y - d.y * n.x = 0 := by
    have hx : (d.x * n.y - d.y * n.x) * (q.x - p.x) = 0 := by
      linear_combination -n.y * hacross - d.y * hedge
    have hy : (d.x * n.y - d.y * n.x) * (q.y - p.y) = 0 := by
      linear_combination n.x * hacross + d.x * hedge
    by_contra hne
    have hqx := (mul_eq_zero.mp hx).resolve_left hne
    have hqy := (mul_eq_zero.mp hy).resolve_left hne
    exact hpq (ext_iff.mpr ⟨by linarith, by linarith⟩)
  refine ⟨d.x * n.x + d.y * n.y, ?_, ext_iff.mpr ⟨?_, ?_⟩⟩
  · linear_combination (d.x ^ 2 + d.y ^ 2) * hnormal + hunit -
      (d.x * n.y - d.y * n.x) * hparallel
  · change d.x = (d.x * n.x + d.y * n.y) * n.x
    linear_combination -d.x * hnormal + n.y * hparallel
  · change d.y = (d.x * n.x + d.y * n.y) * n.y
    linear_combination -d.y * hnormal - n.x * hparallel

section Hulls

variable {points : List (Point ℝ)}

/-- Points extend as far as the corners of their hull. -/
theorem extent_corners (hne : points ≠ []) (start d : Point ℝ) :
    extent (Hull.corners points) start d = extent points start d := by
  obtain ⟨low, high, h⟩ := exists_ranges (form d.x d.y) (Hull.corners_ne_nil hne)
  rw [extent_eq h, extent_eq ((Hull.sameHull_corners points).ranges h)]

/-- A polygon that extends along the normals of its edges has two different vertices. -/
theorem exists_ne_of_extent {p : Polygon ℝ} (hne : p.vertices ≠ [])
    (hwide : ∀ e ∈ p.edges, 1 ≤ extent p.vertices e.1 (outwardNormal e.1 e.2)) :
    ∃ u ∈ p.vertices, ∃ v ∈ p.vertices, u ≠ v := by
  obtain ⟨e, he⟩ := List.exists_mem_of_length_pos (l := p.edges) (by
    rw [Polygon.length_edges]
    exact List.length_pos_of_ne_nil hne)
  obtain ⟨hfirst, hsecond⟩ := Polygon.mem_vertices_of_mem_edges he
  refine ⟨e.1, hfirst, e.2, hsecond, ?_⟩
  intro heq
  have hone := hwide e he
  have hzero := extent_scale hne e.1 e.1 origin 0
  rw [← heq, outwardNormal_self] at hone
  rw [abs_zero, zero_mul, zero_mul, zero_mul] at hzero
  have horigin : (origin : Point ℝ) = ⟨0, 0⟩ := ext_iff.mpr ⟨Scalar.zero_eq, Scalar.zero_eq⟩
  rw [horigin, hzero] at hone
  norm_num at hone

/-- The smallest rectangle on an edge of the hull of points is no larger than the rectangle around
the points in any orientation, unless an extent had to be raised to one. -/
theorem smallest_area_le
    (hwide : ∀ e ∈ (Polygon.hull points).edges,
      1 ≤ extent (Polygon.hull points).vertices e.1 (along (outwardNormal e.1 e.2)) ∧
        1 ≤ extent (Polygon.hull points).vertices e.1 (outwardNormal e.1 e.2))
    {start : Point ℝ} (hstart : start ∈ points) {d : Point ℝ} (hd : d ≠ origin) :
    (smallest (Polygon.hull points)).width * (smallest (Polygon.hull points)).height ≤
      extent points start d * extent points start (along d) / (d.x ^ 2 + d.y ^ 2) := by
  have hpoints : points ≠ [] := List.ne_nil_of_mem hstart
  have hne := Hull.corners_ne_nil hpoints
  have hdifferent : ∃ u ∈ Hull.corners points, ∃ v ∈ Hull.corners points, u ≠ v :=
    exists_ne_of_extent hne fun e he => (hwide e he).2
  have hsize : 2 ≤ (Polygon.hull points).size := by
    obtain ⟨u, hu, v, hv, huv⟩ := hdifferent
    exact Hull.two_le_length_of_ne hu hv huv
  -- where the area is least, a side is on an edge, whose rectangle is a candidate
  obtain ⟨least, hunit, hleast⟩ := exists_least hne
  obtain ⟨side, hside, hsame, htied⟩ := exists_tied hdifferent hunit hleast
  obtain ⟨e, he, hlength, hacross⟩ := exists_edge_of_tied (Hull.leftTurning_corners points)
    (Hull.nodup_corners points) htied
  obtain ⟨c, hc, heq⟩ := eq_scaled_normal hlength hside hacross
  have hcandidate := mem_candidates_iff.mpr ⟨e, he, hlength, rfl⟩
  have hnormal : sweep (Hull.corners points) (outwardNormal e.1 e.2) =
      sweep (Hull.corners points) least := by
    rw [← hsame, heq, sweep_scale hne, hc, one_mul]
  have harea : (around (Polygon.hull points).vertices e.1 (outwardNormal e.1 e.2)).area =
      sweep (Hull.corners points) least := by
    rw [area, height_around, width_around, max_eq_left (hwide e he).1, max_eq_left (hwide e he).2,
      ← hnormal]
    exact sweep_eq hne e.1 _
  have hpos : 0 < d.x ^ 2 + d.y ^ 2 := by
    simpa only [origin, Scalar.zero_eq, sub_zero] using sum_sq_sub_pos hd
  rw [le_div_iff₀ hpos, ← extent_corners hpoints, ← extent_corners hpoints, sweep_eq hne]
  calc
    (smallest (Polygon.hull points)).width * (smallest (Polygon.hull points)).height *
        (d.x ^ 2 + d.y ^ 2) = (smallest (Polygon.hull points)).area * (d.x ^ 2 + d.y ^ 2) := by
      rw [area, mul_comm (smallest _).width]
    _ ≤ sweep (Hull.corners points) least * (d.x ^ 2 + d.y ^ 2) := by
      exact mul_le_mul_of_nonneg_right ((smallest_le hsize hcandidate).trans_eq harea) hpos.le
    _ ≤ sweep (Hull.corners points) d := hleast d

end Hulls

/-- The corners of the unit square, in lexicographic order. -/
def unitSquare : List (Point ℝ) := [⟨0, 0⟩, ⟨0, 1⟩, ⟨1, 0⟩, ⟨1, 1⟩]

theorem hull_unitSquare :
    Polygon.hull unitSquare = ⟨[⟨0, 0⟩, ⟨1, 0⟩, ⟨1, 1⟩, ⟨0, 1⟩]⟩ := by
  have horder : unitSquare.Pairwise Before := by
    simp [unitSquare, Before]
  rw [Polygon.hull, Hull.corners, Hull.ordered_eq_self horder]
  norm_num [unitSquare, Hull.chain, Hull.extend, cross]

theorem one_le_extent_unitSquare (start : Point ℝ) {d : Point ℝ}
    (hd : |d.x| = 1 ∧ d.y = 0 ∨ d.x = 0 ∧ |d.y| = 1) : 1 ≤ extent unitSquare start d := by
  have hextent : ∀ p ∈ unitSquare, ∀ q ∈ unitSquare,
      p.dot d - q.dot d ≤ extent unitSquare start d := fun p hp q hq =>
    dot_sub_le_extent start d hp hq
  have hright := hextent ⟨1, 0⟩ (by simp [unitSquare]) ⟨0, 0⟩ (by simp [unitSquare])
  have hleft := hextent ⟨0, 0⟩ (by simp [unitSquare]) ⟨1, 0⟩ (by simp [unitSquare])
  have hup := hextent ⟨0, 1⟩ (by simp [unitSquare]) ⟨0, 0⟩ (by simp [unitSquare])
  have hdown := hextent ⟨0, 0⟩ (by simp [unitSquare]) ⟨0, 1⟩ (by simp [unitSquare])
  simp only [dot] at hright hleft hup hdown
  rcases hd with ⟨hx, _⟩ | ⟨_, hy⟩
  · rcases eq_or_eq_neg_of_abs_eq hx with h | h <;> rw [h] at hright hleft <;> linarith
  · rcases eq_or_eq_neg_of_abs_eq hy with h | h <;> rw [h] at hup hdown <;> linarith

theorem smallest_area_le_unitSquare :
    (∀ e ∈ (Polygon.hull unitSquare).edges,
      1 ≤ extent (Polygon.hull unitSquare).vertices e.1 (along (outwardNormal e.1 e.2)) ∧
        1 ≤ extent (Polygon.hull unitSquare).vertices e.1 (outwardNormal e.1 e.2)) ∧
      (⟨0, 0⟩ : Point ℝ) ∈ unitSquare ∧ (⟨1, 1⟩ : Point ℝ) ≠ origin ∧
      (smallest (Polygon.hull unitSquare)).width * (smallest (Polygon.hull unitSquare)).height ≤
        extent unitSquare ⟨0, 0⟩ ⟨1, 1⟩ * extent unitSquare ⟨0, 0⟩ (along ⟨1, 1⟩) /
          ((1 : ℝ) ^ 2 + 1 ^ 2) := by
  have hwide : ∀ e ∈ (Polygon.hull unitSquare).edges,
      1 ≤ extent (Polygon.hull unitSquare).vertices e.1 (along (outwardNormal e.1 e.2)) ∧
        1 ≤ extent (Polygon.hull unitSquare).vertices e.1 (outwardNormal e.1 e.2) := by
    intro e he
    have hnormal : |(outwardNormal e.1 e.2).x| = 1 ∧ (outwardNormal e.1 e.2).y = 0 ∨
        (outwardNormal e.1 e.2).x = 0 ∧ |(outwardNormal e.1 e.2).y| = 1 := by
      rw [hull_unitSquare] at he
      simp only [Polygon.edges, List.zip_cons_cons, List.cons_append, List.nil_append,
        List.zip_nil_right, List.mem_cons, List.not_mem_nil, or_false] at he
      rcases he with rfl | rfl | rfl | rfl <;> norm_num [outwardNormal, rightOf, hypot_eq_sqrt]
    have hcorners : ∀ d : Point ℝ,
        extent (Polygon.hull unitSquare).vertices e.1 d = extent unitSquare e.1 d :=
      extent_corners (List.cons_ne_nil _ _) e.1
    rw [hcorners, hcorners]
    refine ⟨one_le_extent_unitSquare e.1 ?_, one_le_extent_unitSquare e.1 hnormal⟩
    rcases hnormal with ⟨hx, hy⟩ | ⟨hx, hy⟩
    · exact Or.inr ⟨by rw [along, hy, neg_zero], hx⟩
    · exact Or.inl ⟨by rw [along, abs_neg, hy], hx⟩
  have hstart : (⟨0, 0⟩ : Point ℝ) ∈ unitSquare := List.mem_cons_self
  have hd : (⟨1, 1⟩ : Point ℝ) ≠ origin := by
    rw [ne_eq, ext_iff, origin]
    norm_num
  exact ⟨hwide, hstart, hd, smallest_area_le hwide hstart hd⟩

end Rectangle

end PackedDrawing
