import PackedDrawing.Proofs.Plane.Rectangle
import PackedDrawing.Proofs.Plane.Support
import PackedDrawing.Placement.Motion

/-!
# The pose puts a component into its box

A polygon that spans what the centred points span extends as far as they do in every direction. So
the turned points reach exactly as far to the left and as far down as the turned vertices, which is
what the corrective of the pose is computed from, and they fit into its width and height.

## Main definitions

* `Pose.Holds`: placed points lie inside the border of the box, and touch it on the left and below.

## Main statements

* `Pose.place_eq_carry`: placing a point is a rotation followed by a translation.
* `Pose.exists_ofPolygon`: every polygon with a vertex has a pose that holds what the polygon spans.
* `Pose.boxed_boxOf`: the box is at most one wider than its contents with the border.
-/

namespace PackedDrawing

namespace Point

theorem rotate_x (angle : ℝ) (p : Point ℝ) :
    (p.rotate angle).x = form (Real.cos angle) (-Real.sin angle) p := by
  simp only [rotate, form]
  ring

theorem rotate_y (angle : ℝ) (p : Point ℝ) :
    (p.rotate angle).y = form (Real.sin angle) (Real.cos angle) p := by
  simp only [rotate, form]
  ring

theorem SameHull.ne_nil {vs ps : List (Point ℝ)} (h : SameHull vs ps) (hps : ps ≠ []) :
    vs ≠ [] := by
  rintro rfl
  obtain ⟨p, hp⟩ := List.exists_mem_of_ne_nil ps hps
  have hle : form 0 0 p ≤ -1 := h.form_le (fun v hv => nomatch hv) p hp
  norm_num [form] at hle

end Point

namespace Pose

open Point

variable {β : Type}

/-- How far a pose moves turned points. -/
noncomputable def vector (g : Pose ℝ β) (offset : Offset) : Point ℝ :=
  ⟨offset.x - g.corrective.x, offset.y - g.corrective.y⟩

/-- Placing a point is a rotation followed by a translation. -/
theorem place_eq_carry (g : Pose ℝ β) (offset : Offset) (p : Point ℝ) :
    g.place offset p = .ok (carry g.rotation (g.vector offset) p) := by
  rw [place, turn_eq_rotate]
  change Except.ok (p.rotate g.rotation + ⟨(offset.x : ℝ), (offset.y : ℝ)⟩ - g.corrective) = _
  rw [Except.ok.injEq, ext_iff]
  simp only [carry, vector, add_x, add_y, sub_x, sub_y]
  constructor <;> ring

/-- Placed points lie inside the border of their box, and touch it on the left and below. -/
structure Holds (g : Pose ℝ Int) (offset : Offset) (placed : List (Point ℝ)) : Prop where
  left_mem : ∃ q ∈ placed, q.x = offset.x + (g.border : ℝ) / 2
  bottom_mem : ∃ q ∈ placed, q.y = offset.y + (g.border : ℝ) / 2 + g.height
  left_le : ∀ q ∈ placed, offset.x + (g.border : ℝ) / 2 ≤ q.x
  le_right : ∀ q ∈ placed, q.x ≤ offset.x + (g.border : ℝ) / 2 + g.width
  top_le : ∀ q ∈ placed, offset.y + (g.border : ℝ) / 2 ≤ q.y
  le_bottom : ∀ q ∈ placed, q.y ≤ offset.y + (g.border : ℝ) / 2 + g.height

theorem ofPolygon_eq (outline : Polygon ℝ) (border : Int) {angle width height : ℝ}
    (h : flat (Rectangle.smallest outline) = (angle, width, height)) :
    ∃ g : Pose ℝ Int, ofPolygon outline border = .ok g ∧ g.rotation = angle ∧ g.width = width ∧
      g.height = height ∧ g.border = border ∧
      g.corrective = ⟨left (outline.vertices.map (Point.rotate angle)) - (border : ℝ) / 2,
        bottom (outline.vertices.map (Point.rotate angle)) - height - (border : ℝ) / 2⟩ := by
  have hturned : outline.vertices.mapM (Point.turn · angle) =
      .ok (outline.vertices.map (Point.rotate angle)) :=
    mapM_eq_map fun p _ => turn_eq_rotate p angle
  have hhalf : (0.5 * (border : ℝ)) = (border : ℝ) / 2 := by ring
  rw [← hhalf, ofPolygon, h]
  simp only [hturned, ok_bind]
  exact ⟨_, rfl, rfl, rfl, rfl, rfl, rfl⟩

/-- A pose holds points whose turned coordinates range over no more than its width and height, if
its corrective takes their ends to the border. -/
theorem holds_of_ranges {g : Pose ℝ Int} {ps : List (Point ℝ)} {west east north south : ℝ}
    (hx : Ranges (fun p : Point ℝ => (p.rotate g.rotation).x) ps west east)
    (hy : Ranges (fun p : Point ℝ => (p.rotate g.rotation).y) ps north south)
    (hwide : east - west ≤ g.width) (htall : south - north ≤ g.height)
    (hcorrective : g.corrective =
      ⟨west - (g.border : ℝ) / 2, south - g.height - (g.border : ℝ) / 2⟩)
    (offset : Offset) : g.Holds offset (ps.map (carry g.rotation (g.vector offset))) := by
  have hcarryx : ∀ p : Point ℝ, (carry g.rotation (g.vector offset) p).x =
      (p.rotate g.rotation).x - west + (offset.x + (g.border : ℝ) / 2) := by
    intro p
    rw [carry, vector, hcorrective, add_x]
    ring
  have hcarryy : ∀ p : Point ℝ, (carry g.rotation (g.vector offset) p).y =
      (p.rotate g.rotation).y - south + (offset.y + (g.border : ℝ) / 2 + g.height) := by
    intro p
    rw [carry, vector, hcorrective, add_y]
    ring
  constructor
  · obtain ⟨p, hp, heq⟩ := hx.low_mem
    exact ⟨_, List.mem_map_of_mem hp, by rw [hcarryx, heq, sub_self, zero_add]⟩
  · obtain ⟨p, hp, heq⟩ := hy.high_mem
    exact ⟨_, List.mem_map_of_mem hp, by rw [hcarryy, heq, sub_self, zero_add]⟩
  · rw [List.forall_mem_map]
    intro p hp
    have hle := hx.low_le p hp
    rw [hcarryx]
    linarith
  · rw [List.forall_mem_map]
    intro p hp
    have hle := hx.le_high p hp
    rw [hcarryx]
    linarith
  · rw [List.forall_mem_map]
    intro p hp
    have hle := hy.low_le p hp
    rw [hcarryy]
    linarith
  · rw [List.forall_mem_map]
    intro p hp
    have hle := hy.le_high p hp
    rw [hcarryy]
    linarith

/-- Every polygon with a vertex has a pose. It holds all points that span the same as the
polygon. -/
theorem exists_ofPolygon {outline : Polygon ℝ} {ps : List (Point ℝ)} (hps : ps ≠ [])
    (hull : SameHull outline.vertices ps) (border : Int) :
    ∃ g, ofPolygon outline border = .ok g ∧ g.border = border ∧ 1 ≤ g.height ∧
      g.height ≤ g.width ∧
      ∀ offset, g.Holds offset (ps.map (carry g.rotation (g.vector offset))) := by
  obtain ⟨⟨angle, width, height⟩, hflat⟩ : ∃ t, flat (Rectangle.smallest outline) = t := ⟨_, rfl⟩
  have hcovers := Rectangle.covers_flat outline hflat
  have hbounds := Rectangle.flat_bounds outline hflat
  have hvs := hull.ne_nil hps
  obtain ⟨west, east, hx⟩ := exists_ranges (fun p : Point ℝ => (p.rotate angle).x) hvs
  obtain ⟨north, south, hy⟩ := exists_ranges (fun p : Point ℝ => (p.rotate angle).y) hvs
  have hwide : east - west ≤ width := by
    obtain ⟨p, hp, hpx⟩ := hx.high_mem
    obtain ⟨q, hq, hqx⟩ := hx.low_mem
    rw [← hpx, ← hqx]
    exact hcovers.wide p hp q hq
  have htall : south - north ≤ height := by
    obtain ⟨p, hp, hpy⟩ := hy.high_mem
    obtain ⟨q, hq, hqy⟩ := hy.low_mem
    rw [← hpy, ← hqy]
    exact hcovers.tall p hp q hq
  -- the range of the vertices in either direction is that of the points
  have hpx : Ranges (fun p : Point ℝ => (p.rotate angle).x) ps west east :=
    (hull.ranges (hx.congr fun p _ => (rotate_x angle p).symm)).congr fun p _ => rotate_x angle p
  have hpy : Ranges (fun p : Point ℝ => (p.rotate angle).y) ps north south :=
    (hull.ranges (hy.congr fun p _ => (rotate_y angle p).symm)).congr fun p _ => rotate_y angle p
  obtain ⟨g, hg, rfl, rfl, rfl, rfl, hcorrective⟩ := ofPolygon_eq outline border hflat
  rw [left_eq (Ranges.map_iff.mpr hx), bottom_eq (Ranges.map_iff.mpr hy)] at hcorrective
  exact ⟨g, hg, rfl, hbounds.1, hbounds.2, holds_of_ranges hpx hpy hwide htall hcorrective⟩

/-- The side of a box is the least whole number that is no smaller than an extent, give or take the
slack, plus the border. -/
noncomputable def sideOf (border : Int) (extent : ℝ) : Int := ⌈extent - slack⌉ + border

theorem sideOf_bounds (border : Int) (extent : ℝ) :
    (border : ℝ) + extent - 1e-9 ≤ sideOf border extent ∧
      (sideOf border extent : ℝ) < border + extent + 1 := by
  rw [sideOf]
  constructor
  · have hle : extent - slack ≤ (⌈extent - slack⌉ : ℝ) := Int.le_ceil _
    rw [slack] at hle ⊢
    push_cast
    linarith
  · have hlt : (⌈extent - slack⌉ : ℝ) < extent - slack + 1 := Int.ceil_lt_add_one _
    have hslack : (0 : ℝ) < 1e-9 := by norm_num
    rw [slack] at hlt ⊢
    push_cast
    linarith

/-- The box of a pose. -/
noncomputable def boxOf (g : Pose ℝ Int) : Box :=
  ⟨sideOf g.border g.width, sideOf g.border g.height⟩

theorem box_eq_boxOf (g : Pose ℝ Int) : g.box = .ok g.boxOf := rfl

/-- What a box has to be for the width, the height and the border of a pose. -/
structure Boxed (g : Pose ℝ Int) (size : Box) : Prop where
  le_width : (g.border : ℝ) + g.width - 1e-9 ≤ size.x
  width_lt : (size.x : ℝ) < g.border + g.width + 1
  le_height : (g.border : ℝ) + g.height - 1e-9 ≤ size.y
  height_lt : (size.y : ℝ) < g.border + g.height + 1

theorem boxed_boxOf (g : Pose ℝ Int) : g.Boxed g.boxOf := by
  obtain ⟨hxle, hxlt⟩ := sideOf_bounds g.border g.width
  obtain ⟨hyle, hylt⟩ := sideOf_bounds g.border g.height
  exact ⟨hxle, hxlt, hyle, hylt⟩

end Pose

end PackedDrawing
