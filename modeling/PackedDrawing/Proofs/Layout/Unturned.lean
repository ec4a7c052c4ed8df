import PackedDrawing.Proofs.Layout.Area

/-!
# The chosen rectangle and the unturned one

The search over the edges of a hull raises a side below one to one before it compares areas. Were no
side raised, the least area would be found on an edge; with raised sides it may lie between two
edges, where the search does not look. So the chosen rectangle can be larger than the one around the
points as they lie, if points are thin across an edge. Then it is no larger than the longest line
across the points, and thereby at most as much larger as the diagonal of a square is than its side.

## Main definitions

* `Point.Thin`: a rectangle on an edge has a side below one.

## Main statements

* `Rectangle.exists_tied_least`: an edge has a rectangle of least area, before sides are raised.
* `Rectangle.area_hull_pair`: the rectangle around two points.
* `area_le_unturned`: how large the chosen rectangle is at most.
* `diagonalPair_exceeds`: two points for which it is larger than the unturned one.
-/

namespace PackedDrawing

open Record

namespace Point

/-- The rectangle across a direction in which two points are farthest has a side below one. -/
def Thin (ps : List (Point ℝ)) : Prop :=
  ∃ d : Point ℝ, d.x ^ 2 + d.y ^ 2 = 1 ∧ Tied ps d.x d.y ∧
    (Rectangle.extent ps origin d < 1 ∨ Rectangle.extent ps origin (Rectangle.along d) < 1)

end Point

namespace Rectangle

open Point

section Raised

variable {h w x y diagonal : ℝ}

theorem mul_le_mul_raised (hx : 0 ≤ x) (hy : 0 ≤ y) : x * y ≤ max 1 x * max 1 y :=
  mul_le_mul (le_max_right 1 x) (le_max_right 1 y) hy (hx.trans (le_max_right 1 x))

theorem one_le_mul_raised (x y : ℝ) : 1 ≤ max 1 x * max 1 y :=
  one_le_mul_of_one_le_of_one_le (le_max_left 1 x) (le_max_left 1 y)

/-- Sides that are raised to one make a rectangle no larger than another one with raised sides, or
no larger than the longest extent. -/
theorem raised_mul_le (hx : 0 ≤ x) (hy : 0 ≤ y) (harea : h * w ≤ x * y) (hh : h ≤ diagonal)
    (hw : w ≤ diagonal) : max h 1 * max w 1 ≤ max (max 1 x * max 1 y) diagonal := by
  rcases le_total 1 h with hlong | hshort
  · rcases le_total 1 w with hwide | hnarrow
    · calc max h 1 * max w 1 = h * w := by rw [max_eq_left hlong, max_eq_left hwide]
        _ ≤ x * y := harea
        _ ≤ max 1 x * max 1 y := mul_le_mul_raised hx hy
        _ ≤ max (max 1 x * max 1 y) diagonal := le_max_left _ _
    · calc max h 1 * max w 1 = h := by rw [max_eq_left hlong, max_eq_right hnarrow, mul_one]
        _ ≤ diagonal := hh
        _ ≤ max (max 1 x * max 1 y) diagonal := le_max_right _ _
  · rcases le_total 1 w with hwide | hnarrow
    · calc max h 1 * max w 1 = w := by rw [max_eq_right hshort, max_eq_left hwide, one_mul]
        _ ≤ diagonal := hw
        _ ≤ max (max 1 x * max 1 y) diagonal := le_max_right _ _
    · calc max h 1 * max w 1 = 1 := by rw [max_eq_right hshort, max_eq_right hnarrow, mul_one]
        _ ≤ max 1 x * max 1 y := one_le_mul_raised x y
        _ ≤ max (max 1 x * max 1 y) diagonal := le_max_left _ _

/-- The diagonal of a rectangle, compared with its area with raised sides. -/
theorem sqrt_le_raised (hx : 0 ≤ x) (hy : 0 ≤ y) :
    Real.sqrt (x ^ 2 + y ^ 2) ≤ Real.sqrt 2 * (max 1 x * max 1 y) := by
  have hpos : 0 ≤ max 1 x * max 1 y := zero_le_one.trans (one_le_mul_raised x y)
  have hxle : x ≤ max 1 x * max 1 y :=
    (le_max_right 1 x).trans (le_mul_of_one_le_right (by positivity) (le_max_left 1 y))
  have hyle : y ≤ max 1 x * max 1 y :=
    (le_max_right 1 y).trans (le_mul_of_one_le_left (by positivity) (le_max_left 1 x))
  calc Real.sqrt (x ^ 2 + y ^ 2) ≤ Real.sqrt (2 * (max 1 x * max 1 y) ^ 2) := by
        apply Real.sqrt_le_sqrt
        rw [two_mul]
        exact add_le_add (pow_le_pow_left₀ hx hxle 2) (pow_le_pow_left₀ hy hyle 2)
    _ = Real.sqrt 2 * (max 1 x * max 1 y) := by
        rw [Real.sqrt_mul zero_le_two, Real.sqrt_sq hpos]

end Raised

section Unturned

variable {ps : List (Point ℝ)} {west east north south : ℝ}

/-- Points extend in no direction farther than the diagonal of the rectangle around them. -/
theorem extent_le_diagonal (hx : Ranges Point.x ps west east) (hy : Ranges Point.y ps north south)
    (start : Point ℝ) {d : Point ℝ} (hunit : d.x ^ 2 + d.y ^ 2 = 1) :
    extent ps start d ≤ Real.sqrt ((east - west) ^ 2 + (south - north) ^ 2) := by
  obtain ⟨q, hq, _⟩ := hx.low_mem
  obtain ⟨low, high, hrange⟩ := exists_ranges (form d.x d.y) (List.ne_nil_of_mem hq)
  obtain ⟨u, hu, rfl⟩ := hrange.high_mem
  obtain ⟨v, hv, rfl⟩ := hrange.low_mem
  have hacross : (u.x - v.x) ^ 2 ≤ (east - west) ^ 2 := by
    apply sq_le_sq'
    · linarith [hx.low_le u hu, hx.le_high v hv]
    · linarith [hx.low_le v hv, hx.le_high u hu]
  have hdown : (u.y - v.y) ^ 2 ≤ (south - north) ^ 2 := by
    apply sq_le_sq'
    · linarith [hy.low_le u hu, hy.le_high v hv]
    · linarith [hy.low_le v hv, hy.le_high u hu]
  rw [extent_eq hrange]
  apply Real.le_sqrt_of_sq_le
  calc (form d.x d.y u - form d.x d.y v) ^ 2
      = (d.x * (u.x - v.x) + d.y * (u.y - v.y)) ^ 2 := by
        simp only [form]
        ring
    _ ≤ (d.x ^ 2 + d.y ^ 2) * ((u.x - v.x) ^ 2 + (u.y - v.y) ^ 2) := by
        linarith [sq_nonneg (d.x * (u.y - v.y) - d.y * (u.x - v.x))]
    _ = (u.x - v.x) ^ 2 + (u.y - v.y) ^ 2 := by rw [hunit, one_mul]
    _ ≤ (east - west) ^ 2 + (south - north) ^ 2 := add_le_add hacross hdown

/-- The area of the rectangle around points as they lie. -/
theorem sweep_unturned (hx : Ranges Point.x ps west east) (hy : Ranges Point.y ps north south) :
    sweep ps ⟨1, 0⟩ = (east - west) * (south - north) := by
  have hacross : Ranges (form 1 0) ps west east := by
    apply hx.congr
    intro p _
    simp [form]
  have hdown : Ranges (form (-0) 1) ps north south := by
    apply hy.congr
    intro p _
    simp [form]
  rw [sweep, extent_eq hacross, extent_eq hdown]

/-- Two points are farthest in a direction across which the area is least, before sides are
raised. -/
theorem exists_tied_least (hdifferent : ∃ p ∈ ps, ∃ q ∈ ps, p ≠ q) :
    ∃ d : Point ℝ, d.x ^ 2 + d.y ^ 2 = 1 ∧ Tied ps d.x d.y ∧
      ∀ e : Point ℝ, sweep ps d * (e.x ^ 2 + e.y ^ 2) ≤ sweep ps e := by
  have hne : ps ≠ [] := by
    obtain ⟨p, hp, _⟩ := hdifferent
    exact List.ne_nil_of_mem hp
  obtain ⟨least, hunit, hleast⟩ := exists_least hne
  obtain ⟨d, hd, hsame, htied⟩ := exists_tied hdifferent hunit hleast
  exact ⟨d, hd, htied, fun e => hsame ▸ hleast e⟩

/-- Some edge has a rectangle that is no larger than the one around the points as they lie, before
sides are raised, and the search ends with none that is larger once they are. -/
theorem exists_edge_le_unturned (hdifferent : ∃ p ∈ ps, ∃ q ∈ ps, p ≠ q)
    (hx : Ranges Point.x ps west east) (hy : Ranges Point.y ps north south) :
    ∃ d : Point ℝ, d.x ^ 2 + d.y ^ 2 = 1 ∧ Tied ps d.x d.y ∧
      extent ps origin d * extent ps origin (along d) ≤ (east - west) * (south - north) ∧
      (smallest (Polygon.hull ps)).area ≤ across ps d := by
  obtain ⟨d, hunit, htied, hleast⟩ := exists_tied_least hdifferent
  refine ⟨d, hunit, htied, ?_, (isLeast_area_hull hdifferent).2 ⟨d, hunit, htied, rfl⟩⟩
  have hle := hleast ⟨1, 0⟩
  rw [sweep_unturned hx hy] at hle
  simpa [sweep] using hle

/-- The smallest rectangle on an edge of the hull of points, compared with the one around the points
as they lie. -/
theorem area_hull_le_unturned (hx : Ranges Point.x ps west east)
    (hy : Ranges Point.y ps north south) :
    (¬ Thin ps → (smallest (Polygon.hull ps)).area ≤
        max 1 (east - west) * max 1 (south - north)) ∧
      (smallest (Polygon.hull ps)).area ≤ max (max 1 (east - west) * max 1 (south - north))
        (Real.sqrt ((east - west) ^ 2 + (south - north) ^ 2)) := by
  have hxpos : 0 ≤ east - west := sub_nonneg.mpr hx.low_le_high
  have hypos : 0 ≤ south - north := sub_nonneg.mpr hy.low_le_high
  by_cases hdifferent : ∃ p ∈ ps, ∃ q ∈ ps, p ≠ q
  · obtain ⟨d, hunit, htied, harea, hchosen⟩ := exists_edge_le_unturned hdifferent hx hy
    constructor
    · intro hthin
      have hlong : 1 ≤ extent ps origin d :=
        not_lt.mp fun hlt => hthin ⟨d, hunit, htied, Or.inl hlt⟩
      have hwide : 1 ≤ extent ps origin (along d) :=
        not_lt.mp fun hlt => hthin ⟨d, hunit, htied, Or.inr hlt⟩
      calc (smallest (Polygon.hull ps)).area ≤ across ps d := hchosen
        _ = extent ps origin d * extent ps origin (along d) := by
            rw [across, max_eq_left hlong, max_eq_left hwide]
        _ ≤ (east - west) * (south - north) := harea
        _ ≤ max 1 (east - west) * max 1 (south - north) := mul_le_mul_raised hxpos hypos
    · have hquarter : (along d).x ^ 2 + (along d).y ^ 2 = 1 := by
        rw [along, neg_sq, add_comm, hunit]
      exact hchosen.trans (raised_mul_le hxpos hypos harea (extent_le_diagonal hx hy origin hunit)
        (extent_le_diagonal hx hy origin hquarter))
  · have hsingle : ∀ p ∈ ps, ∀ q ∈ ps, p = q := by
      intro p hp q hq
      by_contra hpq
      exact hdifferent ⟨p, hp, q, hq, hpq⟩
    rw [area_hull_of_single hsingle]
    exact ⟨fun _ => one_le_mul_raised _ _, (one_le_mul_raised _ _).trans (le_max_left _ _)⟩

/-- The rectangle around two points is as long as they are apart, and one wide. -/
theorem area_hull_pair {p q : Point ℝ} (hpq : p ≠ q) :
    (smallest (Polygon.hull [p, q])).area = max (p.distance q) 1 := by
  have hdifferent : ∃ u ∈ [p, q], ∃ v ∈ [p, q], u ≠ v := ⟨p, by simp, q, by simp, hpq⟩
  obtain ⟨d, hunit, htied, harea⟩ := (isLeast_area_hull hdifferent).1
  have hpair : ∀ e : Point ℝ, extent [p, q] origin e = |form e.x e.y p - form e.x e.y q| := by
    intro e
    rcases le_total (form e.x e.y p) (form e.x e.y q) with hle | hle
    · have hrange : Ranges (form e.x e.y) [p, q] (form e.x e.y p) (form e.x e.y q) := by
        constructor <;> simp [hle]
      rw [extent_eq hrange, abs_sub_comm, abs_of_nonneg (sub_nonneg.mpr hle)]
    · have hrange : Ranges (form e.x e.y) [p, q] (form e.x e.y q) (form e.x e.y p) := by
        constructor <;> simp [hle]
      rw [extent_eq hrange, abs_of_nonneg (sub_nonneg.mpr hle)]
  -- both points are farthest, so the direction is across the line through them
  have hlevel : form d.x d.y p - form d.x d.y q = 0 := by
    obtain ⟨v, hv, u, hu, huv, heq, _⟩ := htied
    simp only [List.mem_cons, List.not_mem_nil, or_false] at hv hu
    rcases hv with rfl | rfl <;> rcases hu with rfl | rfl
    · exact absurd rfl huv
    · rw [heq, sub_self]
    · rw [heq, sub_self]
    · exact absurd rfl huv
  have hlength : (form (along d).x (along d).y p - form (along d).x (along d).y q) ^ 2 =
      (p.x - q.x) ^ 2 + (p.y - q.y) ^ 2 := by
    simp only [form, along] at hlevel ⊢
    linear_combination ((p.x - q.x) ^ 2 + (p.y - q.y) ^ 2) * hunit -
      (d.x * (p.x - q.x) + d.y * (p.y - q.y)) * hlevel
  calc (smallest (Polygon.hull [p, q])).area
      = max (extent [p, q] origin d) 1 * max (extent [p, q] origin (along d)) 1 := harea.symm
    _ = max |form (along d).x (along d).y p - form (along d).x (along d).y q| 1 := by
        rw [hpair, hpair, hlevel, abs_zero, max_eq_right zero_le_one, one_mul]
    _ = max (p.distance q) 1 := by
        rw [← Real.sqrt_sq_eq_abs, hlength]
        rfl

end Unturned

end Rectangle

/-- The chosen rectangle is no larger than the one around the points as they lie, no side of either
being below one, unless the points are thin across an edge. Then it is no larger than the diagonal
of the latter, if that is longer than the area is large, and thereby never larger than a square root
of two times the area. -/
theorem area_le_unturned {d : Drawing ℝ} {records : List Record} {ps : List (Point ℝ)}
    (hread : records.mapM (Record.point d) = .ok ps) (hne : ps ≠ []) (border : Int) :
    ∃ (pose : Pose ℝ Int) (u : Drawing ℝ) (west east north south : ℝ),
      orient records border Envelope.convex d = (.ok pose, u) ∧
      Ranges Point.x ps west east ∧ Ranges Point.y ps north south ∧
      (¬ Point.Thin ps →
        pose.width * pose.height ≤ max 1 (east - west) * max 1 (south - north)) ∧
      pose.width * pose.height ≤ max (max 1 (east - west) * max 1 (south - north))
        (Real.sqrt ((east - west) ^ 2 + (south - north) ^ 2)) ∧
      pose.width * pose.height ≤
        Real.sqrt 2 * (max 1 (east - west) * max 1 (south - north)) := by
  obtain ⟨pose, u, hpose, harea⟩ := Mosaic.exists_orient_convex border hread hne
  obtain ⟨west, east, hx⟩ := exists_ranges Point.x hne
  obtain ⟨north, south, hy⟩ := exists_ranges Point.y hne
  obtain ⟨hplain, hdiagonal⟩ := Rectangle.area_hull_le_unturned hx hy
  rw [← harea] at hplain hdiagonal
  refine ⟨pose, u, west, east, north, south, hpose, hx, hy, hplain, hdiagonal, ?_⟩
  apply hdiagonal.trans
  apply max_le
  · exact le_mul_of_one_le_left (zero_le_one.trans (Rectangle.one_le_mul_raised _ _))
      (Real.one_le_sqrt.mpr one_le_two)
  · exact Rectangle.sqrt_le_raised (sub_nonneg.mpr hx.low_le_high) (sub_nonneg.mpr hy.low_le_high)

/-- Two nodes at opposite corners of the unit square. -/
noncomputable def diagonalPair : Drawing ℝ :=
  { nodes := [{ Node.blank with x := .int 0, y := .int 0 },
      { Node.blank with x := .int 1, y := .int 1 }]
    links := [] }

theorem read_diagonalPair : [node 0, node 1].mapM (Record.point diagonalPair) =
    .ok [⟨(0 : Int), (0 : Int)⟩, ⟨(1 : Int), (1 : Int)⟩] := rfl

theorem ranges_diagonalPair :
    Ranges Point.x [⟨(0 : Int), (0 : Int)⟩, ⟨(1 : Int), (1 : Int)⟩] 0 1 ∧
      Ranges Point.y [⟨(0 : Int), (0 : Int)⟩, ⟨(1 : Int), (1 : Int)⟩] 0 1 := by
  constructor <;> constructor <;> simp

theorem area_le_unturned_diagonalPair :
    ∃ (pose : Pose ℝ Int) (u : Drawing ℝ),
      orient [node 0, node 1] 30 Envelope.convex diagonalPair = (.ok pose, u) ∧
      pose.width * pose.height ≤ Real.sqrt 2 := by
  obtain ⟨pose, u, west, east, north, south, hpose, hx, hy, _, _, hle⟩ :=
    area_le_unturned read_diagonalPair (List.cons_ne_nil _ _) 30
  obtain ⟨hwest, hsouth⟩ := ranges_diagonalPair
  obtain ⟨rfl, rfl⟩ := hx.unique hwest
  obtain ⟨rfl, rfl⟩ := hy.unique hsouth
  refine ⟨pose, u, hpose, ?_⟩
  simpa using hle

/-- Two nodes lie in the unit square, and get a rectangle that is larger. -/
theorem diagonalPair_exceeds :
    ∃ (pose : Pose ℝ Int) (u : Drawing ℝ) (ps : List (Point ℝ)),
      [node 0, node 1].mapM (Record.point diagonalPair) = .ok ps ∧
      orient [node 0, node 1] 30 Envelope.convex diagonalPair = (.ok pose, u) ∧
      Ranges Point.x ps 0 1 ∧ Ranges Point.y ps 0 1 ∧
      pose.width * pose.height = Real.sqrt 2 ∧
      ¬ pose.width * pose.height ≤ max 1 (1 - 0) * max 1 (1 - 0) := by
  obtain ⟨pose, u, hpose, harea⟩ :=
    Mosaic.exists_orient_convex 30 read_diagonalPair (List.cons_ne_nil _ _)
  have hone : 1 < Real.sqrt 2 := Real.lt_sqrt_of_sq_lt (by norm_num)
  have hdistance : (⟨(0 : Int), (0 : Int)⟩ : Point ℝ).distance ⟨(1 : Int), (1 : Int)⟩ =
      Real.sqrt 2 := by
    rw [Point.distance, Point.hypot_eq_sqrt]
    norm_num
  have hvalue : pose.width * pose.height = Real.sqrt 2 := by
    rw [harea, Rectangle.area_hull_pair (by simp), hdistance, max_eq_left hone.le]
  refine ⟨pose, u, _, read_diagonalPair, hpose, ranges_diagonalPair.1, ranges_diagonalPair.2,
    hvalue, ?_⟩
  rw [hvalue, max_eq_left (sub_zero (1 : ℝ)).le, one_mul]
  exact not_le.mpr hone

end PackedDrawing
