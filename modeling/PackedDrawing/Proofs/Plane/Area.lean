import PackedDrawing.Proofs.Plane.Calipers

/-!
# The area of the smallest rectangle

The search over the edges of a polygon ends with the least area of all rectangles on edges. Which
vertex comes first, in which direction the polygon is read and how often in a row a vertex is listed
does not matter to it. For a hull it is the least area across a direction in which two different
points are farthest, which says it of the points alone.

## Main definitions

* `Rectangle.across`: the area of the rectangle across a direction.
* `Rectangle.SameSides`: polygons with the same vertices and the same edges.

## Main statements

* `Rectangle.isLeast_area`, `Rectangle.isLeast_area_hull`: the area is the least of those.
* `Rectangle.area_rotate`, `Rectangle.area_reverse`, `Rectangle.area_repeated`: lists of the same
  vertices.
-/

namespace PackedDrawing

namespace Point

/-- The normal of an edge that is read the other way. -/
theorem outwardNormal_swap {p q : Point ℝ} (h : p ≠ q) :
    outwardNormal q p = ⟨-(outwardNormal p q).x, -(outwardNormal p q).y⟩ := by
  have hlength : Scalar.hypot (p.x - q.x) (p.y - q.y) = Scalar.hypot (q.x - p.x) (q.y - p.y) := by
    rw [hypot_eq_sqrt, hypot_eq_sqrt]
    congr 1
    ring
  rw [outwardNormal_eq h, outwardNormal_eq h.symm, hlength, ext_iff]
  constructor
  · ring
  · ring

end Point

namespace Rectangle

open Point

section Across

variable {vs ws : List (Point ℝ)}

/-- The area of the rectangle across a direction of unit length, no side of which is below one. -/
noncomputable def across (vs : List (Point ℝ)) (d : Point ℝ) : ℝ :=
  max (extent vs origin d) 1 * max (extent vs origin (along d)) 1

theorem area_around (hne : vs ≠ []) (start n : Point ℝ) :
    (around vs start n).area = across vs n := by
  rw [area, height_around, width_around, extent_start hne start origin,
    extent_start hne start origin, across]

theorem across_neg (hne : vs ≠ []) (d : Point ℝ) : across vs ⟨-d.x, -d.y⟩ = across vs d := by
  have halong : along (⟨-d.x, -d.y⟩ : Point ℝ) = ⟨-(along d).x, -(along d).y⟩ := rfl
  rw [across, halong, extent_neg hne, extent_neg hne, across]

/-- Extents depend on which points there are. -/
theorem extent_congr (h : ∀ p, p ∈ vs ↔ p ∈ ws) (start d : Point ℝ) :
    extent vs start d = extent ws start d := by
  rcases eq_or_ne ws [] with rfl | hne
  · have hnil : vs = [] := List.eq_nil_iff_forall_not_mem.mpr fun p hp => nomatch (h p).mp hp
    rw [hnil]
  · obtain ⟨low, high, hrange⟩ := exists_ranges (form d.x d.y) hne
    have hrange' := (sameHull_of_mem_iff fun p => (h p).symm).ranges hrange
    rw [extent_eq hrange, extent_eq hrange']

theorem across_congr (h : ∀ p, p ∈ vs ↔ p ∈ ws) (d : Point ℝ) : across vs d = across ws d := by
  rw [across, extent_congr h, extent_congr h, across]

end Across

section Sides

variable {p q : Polygon ℝ}

/-- The area of the smallest rectangle is the least area across an edge. -/
theorem isLeast_area (hdifferent : ∃ u ∈ p.vertices, ∃ v ∈ p.vertices, u ≠ v) :
    IsLeast {a | ∃ e ∈ p.edges, e.1 ≠ e.2 ∧ across p.vertices (outwardNormal e.1 e.2) = a}
      (smallest p).area := by
  obtain ⟨u, hu, v, hv, huv⟩ := hdifferent
  have hne := List.ne_nil_of_mem hu
  constructor
  · rcases smallest_cases p with hmem | ⟨_, hsame⟩
    · obtain ⟨e, he, hlength, heq⟩ := mem_candidates_iff.mp hmem
      refine ⟨e, he, hlength, ?_⟩
      rw [heq, area_around hne]
    · exact absurd (hsame u hu v hv) huv
  · rintro _ ⟨e, he, hlength, rfl⟩
    rw [← area_around hne e.1]
    apply smallest_le (Hull.two_le_length_of_ne hu hv huv)
    exact mem_candidates_iff.mpr ⟨e, he, hlength, rfl⟩

/-- The smallest rectangle around a single point is the unit square. -/
theorem area_of_single (h : ∀ u ∈ p.vertices, ∀ v ∈ p.vertices, u = v) :
    (smallest p).area = 1 := by
  rcases smallest_cases p with hmem | ⟨heq, _⟩
  · obtain ⟨e, he, hlength, _⟩ := mem_candidates_iff.mp hmem
    obtain ⟨hfirst, hsecond⟩ := Polygon.mem_vertices_of_mem_edges he
    exact absurd (h _ hfirst _ hsecond) hlength
  · rw [heq]
    norm_num [area, unit]

/-- Two polygons have the same vertices, and the same edges of some length, which may be read in
different directions. -/
structure SameSides (p q : Polygon ℝ) : Prop where
  vertex : ∀ v, v ∈ p.vertices ↔ v ∈ q.vertices
  edge : ∀ e ∈ p.edges, e.1 ≠ e.2 → e ∈ q.edges ∨ e.swap ∈ q.edges
  edge_back : ∀ e ∈ q.edges, e.1 ≠ e.2 → e ∈ p.edges ∨ e.swap ∈ p.edges

theorem SameSides.symm (h : SameSides p q) : SameSides q p :=
  ⟨fun v => (h.vertex v).symm, h.edge_back, h.edge⟩

/-- An edge of one of two polygons with the same sides gives the other one the same area. -/
theorem SameSides.exists_across (h : SameSides p q) {e : Point ℝ × Point ℝ} (he : e ∈ p.edges)
    (hlength : e.1 ≠ e.2) :
    ∃ e' ∈ q.edges, e'.1 ≠ e'.2 ∧ across q.vertices (outwardNormal e'.1 e'.2) =
      across p.vertices (outwardNormal e.1 e.2) := by
  rcases h.edge e he hlength with hmem | hmem
  · exact ⟨e, hmem, hlength, (across_congr h.vertex _).symm⟩
  · refine ⟨e.swap, hmem, hlength.symm, ?_⟩
    have hne := List.ne_nil_of_mem (Polygon.mem_vertices_of_mem_edges hmem).1
    rw [Prod.fst_swap, Prod.snd_swap, outwardNormal_swap hlength, across_neg hne,
      across_congr h.vertex]

/-- The area of the smallest rectangle is said by the sides. -/
theorem SameSides.area_eq (h : SameSides p q) : (smallest p).area = (smallest q).area := by
  by_cases hdifferent : ∃ u ∈ p.vertices, ∃ v ∈ p.vertices, u ≠ v
  · have hdifferent' : ∃ u ∈ q.vertices, ∃ v ∈ q.vertices, u ≠ v := by
      obtain ⟨u, hu, v, hv, huv⟩ := hdifferent
      exact ⟨u, (h.vertex u).mp hu, v, (h.vertex v).mp hv, huv⟩
    have hp := isLeast_area hdifferent
    have hq := isLeast_area hdifferent'
    apply le_antisymm
    · obtain ⟨e, he, hlength, heq⟩ := hq.1
      obtain ⟨e', he', hlength', heq'⟩ := h.symm.exists_across he hlength
      exact hp.2 ⟨e', he', hlength', heq'.trans heq⟩
    · obtain ⟨e, he, hlength, heq⟩ := hp.1
      obtain ⟨e', he', hlength', heq'⟩ := h.exists_across he hlength
      exact hq.2 ⟨e', he', hlength', heq'.trans heq⟩
  · have hsame : ∀ u ∈ p.vertices, ∀ v ∈ p.vertices, u = v := by
      intro u hu v hv
      by_contra huv
      exact hdifferent ⟨u, hu, v, hv, huv⟩
    rw [area_of_single hsame, area_of_single]
    intro u hu v hv
    exact hsame u ((h.vertex u).mpr hu) v ((h.vertex v).mpr hv)

end Sides

section Listings

variable (vs : List (Point ℝ))

/-- A polygon may be listed from any vertex on. -/
theorem area_rotate (n : Nat) :
    (smallest ⟨vs.rotate n⟩).area = (smallest (⟨vs⟩ : Polygon ℝ)).area := by
  apply SameSides.area_eq
  have hedges : ∀ e, e ∈ (⟨vs.rotate n⟩ : Polygon ℝ).edges ↔ e ∈ (⟨vs⟩ : Polygon ℝ).edges := by
    intro e
    rw [Polygon.edges_rotate, List.mem_rotate]
  exact ⟨fun v => List.mem_rotate, fun e he _ => Or.inl ((hedges e).mp he),
    fun e he _ => Or.inl ((hedges e).mpr he)⟩

theorem area_of_isRotated {vs ws : List (Point ℝ)} (h : vs.IsRotated ws) :
    (smallest (⟨vs⟩ : Polygon ℝ)).area = (smallest (⟨ws⟩ : Polygon ℝ)).area := by
  obtain ⟨n, rfl⟩ := h
  exact (area_rotate vs n).symm

/-- An edge of a polygon is one of the reversed polygon, the other way. -/
theorem swap_mem_edges_reverse {vs : List (Point ℝ)} {e : Point ℝ × Point ℝ}
    (he : e ∈ (⟨vs⟩ : Polygon ℝ).edges) (hlength : e.1 ≠ e.2) :
    e.swap ∈ (⟨vs.reverse⟩ : Polygon ℝ).edges := by
  obtain ⟨hfirst, hsecond⟩ := Polygon.mem_vertices_of_mem_edges he
  have hsize := Hull.two_le_length_of_ne hfirst hsecond hlength
  obtain ⟨rest, hrotated⟩ := (Polygon.mem_edges_iff hsize).mp he
  apply (Polygon.mem_edges_iff (by rwa [List.length_reverse])).mpr
  refine ⟨rest.reverse, ?_⟩
  have hback := hrotated.reverse
  rw [List.reverse_cons, List.reverse_cons, List.append_assoc] at hback
  exact hback.trans List.isRotated_append

/-- A polygon may be listed in either direction. -/
theorem area_reverse : (smallest ⟨vs.reverse⟩).area = (smallest (⟨vs⟩ : Polygon ℝ)).area := by
  apply SameSides.area_eq
  constructor
  case vertex => exact fun v => List.mem_reverse
  case edge =>
    intro e he hlength
    have hswap := swap_mem_edges_reverse he hlength
    rw [List.reverse_reverse] at hswap
    exact Or.inr hswap
  case edge_back => exact fun e he hlength => Or.inr (swap_mem_edges_reverse he hlength)

/-- A vertex may be listed twice in a row. -/
theorem area_twice (before : List (Point ℝ)) (v : Point ℝ) (after : List (Point ℝ)) :
    (smallest ⟨before ++ v :: v :: after⟩).area =
      (smallest (⟨before ++ v :: after⟩ : Polygon ℝ)).area := by
  have hfront : (smallest ⟨v :: v :: (after ++ before)⟩).area =
      (smallest (⟨v :: (after ++ before)⟩ : Polygon ℝ)).area := by
    have hedges : (⟨v :: v :: (after ++ before)⟩ : Polygon ℝ).edges =
        (v, v) :: (⟨v :: (after ++ before)⟩ : Polygon ℝ).edges := rfl
    apply SameSides.area_eq
    constructor
    case vertex =>
      intro w
      simp only [List.mem_cons]
      tauto
    case edge =>
      intro e he hlength
      rw [hedges] at he
      rcases List.mem_cons.mp he with rfl | he
      · exact absurd rfl hlength
      · exact Or.inl he
    case edge_back =>
      intro e he _
      rw [hedges]
      exact Or.inl (List.mem_cons_of_mem _ he)
  have hback : (before ++ v :: after).IsRotated (v :: (after ++ before)) := List.isRotated_append
  calc
    (smallest ⟨before ++ v :: v :: after⟩).area
      = (smallest (⟨v :: v :: (after ++ before)⟩ : Polygon ℝ)).area :=
        area_of_isRotated List.isRotated_append
    _ = (smallest (⟨v :: (after ++ before)⟩ : Polygon ℝ)).area := hfront
    _ = (smallest (⟨before ++ v :: after⟩ : Polygon ℝ)).area := (area_of_isRotated hback).symm

/-- The vertices, each repeated in a row as often as is said. -/
def repeated (vs : List (Point ℝ)) (counts : List Nat) : List (Point ℝ) :=
  (vs.zip counts).flatMap fun x => List.replicate (x.2 + 1) x.1

theorem area_replicate (before : List (Point ℝ)) (v : Point ℝ) (after : List (Point ℝ)) (k : Nat) :
    (smallest ⟨before ++ (List.replicate (k + 1) v ++ after)⟩).area =
      (smallest (⟨before ++ v :: after⟩ : Polygon ℝ)).area := by
  induction k with
  | zero => rfl
  | succ k ih =>
      rw [← ih]
      exact area_twice before v (List.replicate k v ++ after)

theorem area_append_repeated (before : List (Point ℝ)) {vs : List (Point ℝ)} {counts : List Nat}
    (h : counts.length = vs.length) :
    (smallest ⟨before ++ repeated vs counts⟩).area =
      (smallest (⟨before ++ vs⟩ : Polygon ℝ)).area := by
  induction vs generalizing before counts with
  | nil => rfl
  | cons v rest ih =>
      obtain ⟨k, counts, rfl⟩ := List.exists_cons_of_length_eq_add_one h
      have hrest := ih (before ++ [v]) (Nat.succ.inj h)
      rw [List.append_assoc, List.append_assoc] at hrest
      have hsplit : repeated (v :: rest) (k :: counts) =
          List.replicate (k + 1) v ++ repeated rest counts := rfl
      rw [hsplit, area_replicate]
      exact hrest

/-- Vertices may be listed any number of times in a row. -/
theorem area_repeated {counts : List Nat} (h : counts.length = vs.length) :
    (smallest ⟨repeated vs counts⟩).area = (smallest (⟨vs⟩ : Polygon ℝ)).area :=
  area_append_repeated [] h

end Listings

section Hulls

variable {points : List (Point ℝ)} {a b : ℝ}

theorem across_corners (hne : points ≠ []) (d : Point ℝ) :
    across (Hull.corners points) d = across points d := by
  rw [across, extent_corners hne, extent_corners hne, across]

/-- Different points have different corners. -/
theorem exists_ne_corners (hdifferent : ∃ p ∈ points, ∃ q ∈ points, p ≠ q) :
    ∃ u ∈ Hull.corners points, ∃ v ∈ Hull.corners points, u ≠ v := by
  obtain ⟨p, hp, q, hq, hpq⟩ := hdifferent
  -- the corners that are farthest along the way from one point to the other and back
  obtain ⟨u, hu, hpu⟩ := Hull.corners_support (p.x - q.x) (p.y - q.y) hp
  obtain ⟨v, hv, hqv⟩ := Hull.corners_support (q.x - p.x) (q.y - p.y) hq
  refine ⟨u, hu, v, hv, ?_⟩
  rintro rfl
  have hpos := sum_sq_sub_pos hpq
  simp only [form] at hpu hqv
  linarith

/-- Where a corner is the only farthest one, it is the only farthest point. -/
theorem eq_of_foremost_corners {c p : Point ℝ} (h : Foremost (Hull.corners points) a b c)
    (hp : p ∈ points) (hfar : form a b c ≤ form a b p) : p = c := by
  obtain ⟨others, hrotated⟩ := Polygon.exists_isRotated_of_mem h.1
  have hnodup := List.nodup_cons.mp (hrotated.nodup_iff.mp (Hull.nodup_corners points))
  have hothers : ∀ u ∈ others, form a b u < form a b c := by
    intro u hu
    apply h.2 u (hrotated.mem_iff.mpr (List.mem_cons_of_mem c hu))
    rintro rfl
    exact hnodup.1 hu
  have hsame : hullSet points = hullSet (c :: others) :=
    (Hull.sameHull_corners points).symm.trans (sameHull_of_mem_iff fun _ => hrotated.mem_iff)
  rcases eq_or_form_lt hothers (hsame ▸ pair_mem_hullSet hp) with heq | hlt
  · exact ext_iff.mpr (Prod.ext_iff.mp heq)
  · exact absurd hlt (not_lt.mpr hfar)

/-- Where two points are farthest, two corners are. -/
theorem tied_corners (h : Tied points a b) : Tied (Hull.corners points) a b := by
  obtain ⟨v, hv, u, hu, huv, heq, hfar⟩ := h
  have hne := Hull.corners_ne_nil (List.ne_nil_of_mem hv)
  apply (foremost_or_tied hne a b).resolve_left
  rintro ⟨c, hc⟩
  have hcv := hfar c (Hull.mem_of_mem_corners hc.1)
  have hv' := eq_of_foremost_corners hc hv hcv
  have hu' := eq_of_foremost_corners hc hu (hcv.trans heq.ge)
  exact huv (hu'.trans hv'.symm)

/-- The ends of an edge of a hull are farthest across the edge. -/
theorem tied_of_edge {e : Point ℝ × Point ℝ} (he : e ∈ (Polygon.hull points).edges)
    (hlength : e.1 ≠ e.2) :
    Tied points (outwardNormal e.1 e.2).x (outwardNormal e.1 e.2).y := by
  obtain ⟨hfirst, hsecond⟩ := Polygon.mem_vertices_of_mem_edges he
  have hsize := Hull.two_le_length_of_ne hfirst hsecond hlength
  obtain ⟨rest, hrotated⟩ := (Polygon.mem_edges_iff hsize).mp he
  refine ⟨e.1, Hull.mem_of_mem_corners hfirst, e.2, Hull.mem_of_mem_corners hsecond, hlength.symm,
    ?_, ?_⟩
  · have hacross := outwardNormal_across hlength
    simp only [form]
    linarith
  · intro w hw
    have hleft := Hull.cross_nonneg_of_edge hrotated hw
    have hlen : 0 ≤ Scalar.hypot (e.2.x - e.1.x) (e.2.y - e.1.y) := Real.sqrt_nonneg _
    have hdiff : form (outwardNormal e.1 e.2).x (outwardNormal e.1 e.2).y e.1 -
        form (outwardNormal e.1 e.2).x (outwardNormal e.1 e.2).y w =
          cross e.1 e.2 w / Scalar.hypot (e.2.x - e.1.x) (e.2.y - e.1.y) := by
      rw [outwardNormal_eq hlength]
      simp only [form, cross]
      ring
    have hquotient := div_nonneg hleft hlen
    linarith

/-- The area of the smallest rectangle on an edge of a hull, said by the points. -/
theorem isLeast_area_hull (hdifferent : ∃ p ∈ points, ∃ q ∈ points, p ≠ q) :
    IsLeast {a | ∃ d : Point ℝ, d.x ^ 2 + d.y ^ 2 = 1 ∧ Tied points d.x d.y ∧ across points d = a}
      (smallest (Polygon.hull points)).area := by
  have hleast := isLeast_area (p := Polygon.hull points) (exists_ne_corners hdifferent)
  have hne : points ≠ [] := by
    obtain ⟨p, hp, _⟩ := hdifferent
    exact List.ne_nil_of_mem hp
  constructor
  · obtain ⟨e, he, hlength, heq⟩ := hleast.1
    refine ⟨outwardNormal e.1 e.2, outwardNormal_unit hlength, tied_of_edge he hlength, ?_⟩
    rw [← heq]
    exact (across_corners hne _).symm
  · rintro _ ⟨d, hunit, htied, rfl⟩
    obtain ⟨e, he, hlength, hacross⟩ := exists_edge_of_tied (Hull.leftTurning_corners points)
      (Hull.nodup_corners points) (tied_corners htied)
    apply hleast.2
    refine ⟨e, he, hlength, ?_⟩
    -- the direction is the normal of an edge, or the opposite one
    obtain ⟨c, hc, heq⟩ := eq_scaled_normal hlength hunit hacross
    have hvertices : across (Polygon.hull points).vertices (outwardNormal e.1 e.2) =
        across points (outwardNormal e.1 e.2) := across_corners hne _
    rw [hvertices, heq]
    rcases sq_eq_one_iff.mp hc with rfl | rfl
    · rw [one_mul, one_mul]
    · rw [neg_one_mul, neg_one_mul, across_neg hne]

/-- The rectangle around the hull of a single point. -/
theorem area_hull_of_single (h : ∀ p ∈ points, ∀ q ∈ points, p = q) :
    (smallest (Polygon.hull points)).area = 1 := by
  apply area_of_single
  intro u hu v hv
  exact h u (Hull.mem_of_mem_corners hu) v (Hull.mem_of_mem_corners hv)

end Hulls

end Rectangle

end PackedDrawing
