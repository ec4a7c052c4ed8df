import PackedDrawing.Proofs.Plane.Area

/-!
# Points that are turned, mirrored and moved

A map of the plane that keeps distances takes the origin somewhere and the two unit vectors to two
others that are across each other, and these three say what it does to all points: the values of a
linear form change by a constant when the form is carried along. So the points extend as far as
before along each direction that is carried along, and the area of the smallest rectangle is kept.

## Main definitions

* `Point.Isometric`: a map keeps distances.
* `Point.Carries`: what an isometric map does to linear forms.

## Main statements

* `Point.isometric_carry`, `Point.isometric_mirror`: rotations, translations and reflections.
* `Point.Isometric.exists_carries`: directions are carried along by an isometric map.
* `Rectangle.area_hull_of_image`: the area of the smallest rectangle is kept.
-/

namespace PackedDrawing

namespace Point

/-- A map keeps distances. -/
def Isometric (f : Point ℝ → Point ℝ) : Prop :=
  ∀ p q, (f p).distance (f q) = p.distance q

section Isometric

variable {f g : Point ℝ → Point ℝ}

theorem isometric_carry (angle : ℝ) (vector : Point ℝ) : Isometric (carry angle vector) :=
  distance_carry angle vector

/-- A point mirrored at the first axis. -/
def mirror (p : Point ℝ) : Point ℝ := ⟨p.x, -p.y⟩

theorem isometric_mirror : Isometric mirror := by
  intro p q
  rw [distance, distance, hypot_eq_sqrt, hypot_eq_sqrt]
  simp only [mirror]
  congr 1
  ring

/-- Points that are moved by a vector. -/
theorem isometric_sub (c : Point ℝ) : Isometric fun p => p - c := by
  intro p q
  rw [distance, distance]
  simp only [sub_x, sub_y, sub_sub_sub_cancel_right]

theorem Isometric.comp (hf : Isometric f) (hg : Isometric g) : Isometric (f ∘ g) :=
  fun p q => (hf (g p) (g q)).trans (hg p q)

theorem Isometric.distance_sq (h : Isometric f) (p q : Point ℝ) :
    ((f p).x - (f q).x) ^ 2 + ((f p).y - (f q).y) ^ 2 = (p.x - q.x) ^ 2 + (p.y - q.y) ^ 2 := by
  have hroot := h p q
  rw [distance, distance, hypot_eq_sqrt, hypot_eq_sqrt] at hroot
  exact (Real.sqrt_inj (by positivity) (by positivity)).mp hroot

end Isometric

/-- A map of points together with what it does to directions: linear forms are carried along up to
a constant, lengths are kept, and so is being across up to the sign. -/
structure Carries (f turn : Point ℝ → Point ℝ) : Prop where
  form : ∀ d, ∃ c, ∀ p, form (turn d).x (turn d).y (f p) = form d.x d.y p + c
  length : ∀ d, (turn d).x ^ 2 + (turn d).y ^ 2 = d.x ^ 2 + d.y ^ 2
  along : ∀ d, Rectangle.along (turn d) = turn (Rectangle.along d) ∨
    Rectangle.along (turn d) = ⟨-(turn (Rectangle.along d)).x, -(turn (Rectangle.along d)).y⟩
  onto : ∀ e, ∃ d, turn d = e

/-- Unit vectors that are across each other differ by a quarter turn, one way or the other. -/
theorem eq_quarter_or {u w : Point ℝ} (hu : u.x ^ 2 + u.y ^ 2 = 1) (hw : w.x ^ 2 + w.y ^ 2 = 1)
    (hacross : u.x * w.x + u.y * w.y = 0) : w = ⟨-u.y, u.x⟩ ∨ w = ⟨u.y, -u.x⟩ := by
  have hsquare : (u.x * w.y - u.y * w.x) ^ 2 = 1 := by
    linear_combination (w.x ^ 2 + w.y ^ 2) * hu + hw - (u.x * w.x + u.y * w.y) * hacross
  rcases sq_eq_one_iff.mp hsquare with hsign | hsign
  · left
    rw [ext_iff]
    constructor
    · linear_combination -w.x * hu + u.x * hacross - u.y * hsign
    · linear_combination -w.y * hu + u.y * hacross + u.x * hsign
  · right
    rw [ext_iff]
    constructor
    · linear_combination -w.x * hu + u.x * hacross - u.y * hsign
    · linear_combination -w.y * hu + u.y * hacross + u.x * hsign

/-- A direction, given by its coordinates along two unit vectors. -/
def spanned (u w d : Point ℝ) : Point ℝ := ⟨d.x * u.x + d.y * w.x, d.x * u.y + d.y * w.y⟩

theorem carries_spanned {f : Point ℝ → Point ℝ} {u w : Point ℝ} (hu : u.x ^ 2 + u.y ^ 2 = 1)
    (hw : w.x ^ 2 + w.y ^ 2 = 1) (hacross : u.x * w.x + u.y * w.y = 0)
    (hx : ∃ c, ∀ p, form u.x u.y (f p) = p.x + c) (hy : ∃ c, ∀ p, form w.x w.y (f p) = p.y + c) :
    Carries f (spanned u w) := by
  constructor
  case form =>
    intro d
    obtain ⟨b, hx⟩ := hx
    obtain ⟨c, hy⟩ := hy
    refine ⟨d.x * b + d.y * c, ?_⟩
    intro p
    have hxp := hx p
    have hyp := hy p
    simp only [Point.form, spanned] at hxp hyp ⊢
    linear_combination d.x * hxp + d.y * hyp
  case length =>
    intro d
    simp only [spanned]
    linear_combination d.x ^ 2 * hu + d.y ^ 2 * hw + 2 * d.x * d.y * hacross
  case along =>
    intro d
    simp only [ext_iff, Rectangle.along, spanned]
    rcases eq_quarter_or hu hw hacross with rfl | rfl
    · left
      constructor <;> ring
    · right
      constructor <;> ring
  case onto =>
    intro e
    refine ⟨⟨form u.x u.y e, form w.x w.y e⟩, ?_⟩
    rw [ext_iff]
    rcases eq_quarter_or hu hw hacross with rfl | rfl
    · simp only [Point.form, spanned]
      constructor
      · linear_combination e.x * hu
      · linear_combination e.y * hu
    · simp only [Point.form, spanned]
      constructor
      · linear_combination e.x * hu
      · linear_combination e.y * hu

/-- An isometric map is given by where it takes the origin and the ends of two unit vectors. -/
theorem Isometric.exists_carries {f : Point ℝ → Point ℝ} (h : Isometric f) :
    ∃ turn, Carries f turn := by
  have hright := h.distance_sq ⟨1, 0⟩ ⟨0, 0⟩
  have hup := h.distance_sq ⟨0, 1⟩ ⟨0, 0⟩
  have hslant := h.distance_sq ⟨1, 0⟩ ⟨0, 1⟩
  have hfromOrigin := fun p => h.distance_sq p ⟨0, 0⟩
  have hfromRight := fun p => h.distance_sq p ⟨1, 0⟩
  have hfromUp := fun p => h.distance_sq p ⟨0, 1⟩
  generalize f ⟨0, 0⟩ = o at *
  generalize f ⟨1, 0⟩ = a at *
  generalize f ⟨0, 1⟩ = b at *
  refine ⟨spanned (a - o) (b - o), ?_⟩
  apply carries_spanned
  · simp only [sub_x, sub_y]
    linarith
  · simp only [sub_x, sub_y]
    linarith
  · simp only [sub_x, sub_y]
    linear_combination (hright + hup - hslant) / 2
  -- a coordinate is said by the distances from the origin and from the end of the unit vector
  · refine ⟨form (a.x - o.x) (a.y - o.y) o, ?_⟩
    intro p
    simp only [form, sub_x, sub_y]
    linear_combination (hfromOrigin p + hright - hfromRight p) / 2
  · refine ⟨form (b.x - o.x) (b.y - o.y) o, ?_⟩
    intro p
    simp only [form, sub_x, sub_y]
    linear_combination (hfromOrigin p + hup - hfromUp p) / 2

theorem Carries.injective {f turn : Point ℝ → Point ℝ} (h : Carries f turn) :
    Function.Injective f := by
  intro p q hpq
  obtain ⟨b, hx⟩ := h.form ⟨1, 0⟩
  obtain ⟨c, hy⟩ := h.form ⟨0, 1⟩
  have hxpq := (hx p).symm.trans (hpq ▸ hx q)
  have hypq := (hy p).symm.trans (hpq ▸ hy q)
  simp only [Point.form] at hxpq hypq
  exact ext_iff.mpr ⟨by linarith, by linarith⟩

end Point

namespace Rectangle

open Point

section Images

variable {f turn : Point ℝ → Point ℝ} {ps qs : List (Point ℝ)}

/-- Points extend along a direction as far as their images do along the direction carried along. -/
theorem extent_image (h : Carries f turn) (himage : ∀ q, q ∈ qs ↔ ∃ p ∈ ps, f p = q)
    (hne : ps ≠ []) (start start' d : Point ℝ) :
    extent qs start (turn d) = extent ps start' d := by
  obtain ⟨low, high, hrange⟩ := exists_ranges (form d.x d.y) hne
  obtain ⟨c, hc⟩ := h.form d
  have hshift : Monotone fun t : ℝ => t + c := fun _ _ hle => add_le_add_left hle c
  have hmoved : Ranges (form (turn d).x (turn d).y) (ps.map f) (low + c) (high + c) :=
    Ranges.map_iff.mpr ((hrange.monotone_comp hshift).congr fun p _ => hc p)
  have hmem : ∀ q, q ∈ ps.map f ↔ q ∈ qs := fun q => List.mem_map.trans (himage q).symm
  rw [extent_eq ((sameHull_of_mem_iff hmem).ranges hmoved), extent_eq hrange]
  ring

theorem across_image (h : Carries f turn) (himage : ∀ q, q ∈ qs ↔ ∃ p ∈ ps, f p = q)
    (hne : ps ≠ []) (d : Point ℝ) : across qs (turn d) = across ps d := by
  have hqs : qs ≠ [] := by
    obtain ⟨p, hp⟩ := List.exists_mem_of_ne_nil ps hne
    exact List.ne_nil_of_mem ((himage (f p)).mpr ⟨p, hp, rfl⟩)
  have hside := extent_image h himage hne origin origin
  have hlong : extent qs origin (along (turn d)) = extent ps origin (along d) := by
    rcases h.along d with heq | heq
    · rw [heq, hside]
    · rw [heq, extent_neg hqs, hside]
  rw [across, hside, hlong, across]

/-- Two points are farthest in a direction just if two images are in the direction carried
along. -/
theorem tied_image_iff (h : Carries f turn) (himage : ∀ q, q ∈ qs ↔ ∃ p ∈ ps, f p = q)
    (d : Point ℝ) : Tied qs (turn d).x (turn d).y ↔ Tied ps d.x d.y := by
  obtain ⟨c, hc⟩ := h.form d
  constructor
  · rintro ⟨_, hfv, _, hfu, huv, heq, hfar⟩
    obtain ⟨v, hv, rfl⟩ := (himage _).mp hfv
    obtain ⟨u, hu, rfl⟩ := (himage _).mp hfu
    refine ⟨v, hv, u, hu, fun huv' => huv (congrArg f huv'), ?_, ?_⟩
    · rw [hc, hc] at heq
      exact add_right_cancel heq
    · intro w hw
      have hle := hfar (f w) ((himage _).mpr ⟨w, hw, rfl⟩)
      rw [hc, hc] at hle
      exact le_of_add_le_add_right hle
  · rintro ⟨v, hv, u, hu, huv, heq, hfar⟩
    refine ⟨f v, (himage _).mpr ⟨v, hv, rfl⟩, f u, (himage _).mpr ⟨u, hu, rfl⟩,
      fun huv' => huv (h.injective huv'), ?_, ?_⟩
    · rw [hc, hc, heq]
    · intro _ hfw
      obtain ⟨w, hw, rfl⟩ := (himage _).mp hfw
      rw [hc, hc]
      exact add_le_add_left (hfar w hw) c

/-- The area of the smallest rectangle around the hull of points is that of their images. -/
theorem area_hull_of_image (hf : Isometric f) (himage : ∀ q, q ∈ qs ↔ ∃ p ∈ ps, f p = q) :
    (smallest (Polygon.hull qs)).area = (smallest (Polygon.hull ps)).area := by
  obtain ⟨turn, h⟩ := hf.exists_carries
  by_cases hdifferent : ∃ p ∈ ps, ∃ q ∈ ps, p ≠ q
  · obtain ⟨p, hp, q, hq, hpq⟩ := hdifferent
    have hne := List.ne_nil_of_mem hp
    have hleast := isLeast_area_hull ⟨p, hp, q, hq, hpq⟩
    have hleast' := isLeast_area_hull ⟨f p, (himage _).mpr ⟨p, hp, rfl⟩, f q,
      (himage _).mpr ⟨q, hq, rfl⟩, fun heq => hpq (h.injective heq)⟩
    -- the directions in which two points are farthest are carried along, with their areas
    have hsame : {a | ∃ d : Point ℝ, d.x ^ 2 + d.y ^ 2 = 1 ∧ Tied qs d.x d.y ∧ across qs d = a} =
        {a | ∃ d : Point ℝ, d.x ^ 2 + d.y ^ 2 = 1 ∧ Tied ps d.x d.y ∧ across ps d = a} := by
      ext a
      constructor
      · rintro ⟨e, hunit, htied, harea⟩
        obtain ⟨d, rfl⟩ := h.onto e
        rw [h.length] at hunit
        rw [tied_image_iff h himage] at htied
        rw [across_image h himage hne] at harea
        exact ⟨d, hunit, htied, harea⟩
      · rintro ⟨d, hunit, htied, harea⟩
        refine ⟨turn d, ?_, ?_, ?_⟩
        · rw [h.length, hunit]
        · exact (tied_image_iff h himage d).mpr htied
        · rw [across_image h himage hne, harea]
    exact hleast'.unique (hsame ▸ hleast)
  · have hsingle : ∀ p ∈ ps, ∀ q ∈ ps, p = q := by
      intro p hp q hq
      by_contra hpq
      exact hdifferent ⟨p, hp, q, hq, hpq⟩
    rw [area_hull_of_single hsingle]
    apply area_hull_of_single
    intro u hu v hv
    obtain ⟨p, hp, rfl⟩ := (himage u).mp hu
    obtain ⟨q, hq, rfl⟩ := (himage v).mp hv
    rw [hsingle p hp q hq]

end Images

end Rectangle

end PackedDrawing
