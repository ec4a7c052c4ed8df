import PackedDrawing.Proofs.Layout.Separated
import PackedDrawing.Proofs.Placement.Inverse
import PackedDrawing.Proofs.Svg.Sheet

/-!
# The canvas of a figure

In exact arithmetic, the canvas of a figure has room for the positions of all nodes and for all
bends, with the radius and the padding around them, and for the packed boxes.

## Main definitions

* `Drawing.points`: the positions and bends of a drawing.
* `Svg.Canvas.Shows`: a point keeps a margin to the edges of a canvas.
* `Svg.Part.region`: the points that a part covers.
* `Svg.Canvas.view`: the view of a figure, widened to the sides.

## Main statements

* `Svg.exists_framing`: what a canvas has room for.
-/

namespace PackedDrawing

namespace Bounds

/-- A point lies in bounds, with a margin to each side. -/
structure Surrounds (b : Bounds ℝ) (margin : ℝ) (q : Point ℝ) : Prop where
  left : b.least.x.exact + margin ≤ q.x
  right : q.x + margin ≤ b.greatest.x.exact
  top : b.least.y.exact + margin ≤ q.y
  bottom : q.y + margin ≤ b.greatest.y.exact

theorem ofCoordinates_spec {xs ys : List (Number ℝ)} {x y : Number ℝ} (hx : x ∈ xs)
    (hy : y ∈ ys) : (ofCoordinates xs ys).Surrounds 0 ⟨x.exact, y.exact⟩ := by
  cases xs with
  | nil => cases hx
  | cons x' xs =>
      cases ys with
      | nil => cases hy
      | cons y' ys =>
          refine ⟨?_, ?_, ?_, ?_⟩ <;> rw [add_zero]
          · exact Number.exact_least_le hx
          · exact Number.le_exact_greatest hx
          · exact Number.exact_least_le hy
          · exact Number.le_exact_greatest hy

/-- A node counts as a point when sizes do not count. -/
theorem exists_ofEntry {n : Node ℝ} {q : Point ℝ} (h : (Svg.spot n).Reads q) :
    ∃ xs ys, ofEntry false (.ready n) = .ok (xs, ys) ∧ (∃ x ∈ xs, x.exact = q.x) ∧
      ∃ y ∈ ys, y.exact = q.y := by
  have haround : ∀ {v : Value ℝ} {a : ℝ}, v.scalar = .ok a →
      ∃ xs, around v (.real 0.0) = .ok xs ∧ ∃ x ∈ xs, x.exact = a := by
    intro v a hv
    obtain ⟨c, hc, rfl⟩ := Value.scalar_eq_ok_iff.mp hv
    obtain ⟨z, hz, hexact⟩ := Number.exists_sub c (.real 0.0)
    obtain ⟨w, hw, _⟩ := Number.exists_add c (.real 0.0)
    refine ⟨[z, w], ?_, z, List.mem_cons_self, ?_⟩
    · rw [around, hc, ok_bind, hz, ok_bind, hw]
      rfl
    · rw [hexact, Number.exact_real, Scalar.zero_eq, sub_zero]
  obtain ⟨hx, hy⟩ := Point.reads_iff.mp h
  obtain ⟨xs, hxs, hxmem⟩ := haround hx
  obtain ⟨ys, hys, hymem⟩ := haround hy
  refine ⟨xs, ys, ?_, hxmem, hymem⟩
  change (around (Svg.spot n).x (.real 0.0) >>= fun xs =>
    around (Svg.spot n).y (.real 0.0) >>= fun ys => .ok (xs, ys)) = _
  rw [hxs, ok_bind, hys, ok_bind]

end Bounds

/-- The positions of the nodes and the bends of the links of a drawing. -/
def Drawing.points {α : Type} (d : Drawing α) : List (Point (Value α)) :=
  d.nodes.map Svg.spot ++ d.links.flatMap Link.bends

namespace Bounds

/-- The bounds of a drawing surround its nodes and bends. -/
theorem exists_of {d : Drawing ℝ} (h : ∀ p ∈ d.points, ∃ q, p.Reads q) :
    ∃ b, Bounds.of d.nodes d.links false = .ok b ∧
      ∀ p ∈ d.points, ∀ q, p.Reads q → b.Surrounds 0 q := by
  have hnodes : ∀ n ∈ d.nodes, ∃ q, (Svg.spot n).Reads q := fun n hn =>
    h _ (List.mem_append_left _ (List.mem_map_of_mem hn))
  obtain ⟨ends, hends⟩ :
      ∃ ends, (d.nodes.map NodeEntry.ready).mapM (ofEntry false) = .ok ends := by
    apply exists_mapM_eq_ok
    intro e he
    obtain ⟨n, hn, rfl⟩ := List.mem_map.mp he
    obtain ⟨q, hq⟩ := hnodes n hn
    obtain ⟨xs, ys, hentry, _⟩ := exists_ofEntry hq
    exact ⟨_, hentry⟩
  have hroutes : (d.links.map LinkEntry.ready).mapM LinkEntry.route =
      .ok (d.links.map Link.bends) := by
    rw [mapM_eq_ok_iff, List.forall₂_map_left_iff, List.forall₂_map_right_iff, List.forall₂_same]
    intro k _
    rfl
  obtain ⟨bends, hbends⟩ :
      ∃ bends, (d.links.map Link.bends).flatten.mapM (Point.mapM Value.number) = .ok bends := by
    apply exists_mapM_eq_ok
    intro p hp
    obtain ⟨q, hq⟩ := h p (List.mem_append_right _ (List.flatMap_def ▸ hp))
    obtain ⟨hx, hy⟩ := Point.reads_iff.mp hq
    obtain ⟨x, hx, _⟩ := Value.scalar_eq_ok_iff.mp hx
    obtain ⟨y, hy, _⟩ := Value.scalar_eq_ok_iff.mp hy
    exact ⟨⟨x, y⟩, bind_eq_ok.mpr ⟨x, hx, bind_eq_ok.mpr ⟨y, hy, rfl⟩⟩⟩
  refine ⟨_, bind_eq_ok.mpr ⟨ends, hends, bind_eq_ok.mpr ⟨_, hroutes,
    bind_eq_ok.mpr ⟨bends, hbends, rfl⟩⟩⟩, ?_⟩
  intro p hp q hq
  -- a node has its coordinates among those of the entries, and a bend among those of the bends
  obtain ⟨x, y, hx, hy, hxq, hyq⟩ : ∃ x y : Number ℝ,
      x ∈ ends.flatMap Prod.fst ++ bends.map Point.x ∧
      y ∈ ends.flatMap Prod.snd ++ bends.map Point.y ∧ x.exact = q.x ∧ y.exact = q.y := by
    rcases List.mem_append.mp hp with hp | hp
    · obtain ⟨n, hn, rfl⟩ := List.mem_map.mp hp
      obtain ⟨xs, ys, hentry, ⟨x, hx, hxq⟩, y, hy, hyq⟩ := exists_ofEntry hq
      have hmem := (mem_iff_of_mapM hends).mpr ⟨_, List.mem_map_of_mem hn, hentry⟩
      exact ⟨x, y, List.mem_append_left _ (List.mem_flatMap.mpr ⟨_, hmem, hx⟩),
        List.mem_append_left _ (List.mem_flatMap.mpr ⟨_, hmem, hy⟩), hxq, hyq⟩
    · obtain ⟨hx, hy⟩ := Point.reads_iff.mp hq
      obtain ⟨x, hx, hxq⟩ := Value.scalar_eq_ok_iff.mp hx
      obtain ⟨y, hy, hyq⟩ := Value.scalar_eq_ok_iff.mp hy
      have hmem := (mem_iff_of_mapM hbends).mpr ⟨p, List.flatMap_def ▸ hp,
        bind_eq_ok.mpr ⟨x, hx, bind_eq_ok.mpr ⟨y, hy, rfl⟩⟩⟩
      exact ⟨x, y, List.mem_append_right _ (List.mem_map_of_mem hmem),
        List.mem_append_right _ (List.mem_map_of_mem hmem), hxq, hyq⟩
  have hsurrounds := ofCoordinates_spec hx hy
  rwa [hxq, hyq] at hsurrounds

end Bounds

namespace Svg

section Framing

theorem exists_widen (b : Bounds ℝ) (amount : Number ℝ) :
    ∃ b', widen b amount = .ok b' ∧
      ∀ margin q, b.Surrounds margin q → b'.Surrounds (margin + amount.exact) q := by
  obtain ⟨left, hleft, hleftExact⟩ := Number.exists_sub b.least.x amount
  obtain ⟨top, htop, htopExact⟩ := Number.exists_sub b.least.y amount
  obtain ⟨right, hright, hrightExact⟩ := Number.exists_add b.greatest.x amount
  obtain ⟨bottom, hbottom, hbottomExact⟩ := Number.exists_add b.greatest.y amount
  refine ⟨⟨⟨left, top⟩, ⟨right, bottom⟩⟩, ?_, ?_⟩
  · rw [widen, hleft, ok_bind, htop, ok_bind, hright, ok_bind, hbottom, ok_bind]
    rfl
  · rintro margin q ⟨h₁, h₂, h₃, h₄⟩
    constructor <;> dsimp only <;> linarith

/-- One rectangle reaches as far as another to all sides. -/
structure Covers (b' b : Bounds ℝ) : Prop where
  left : b'.least.x.exact ≤ b.least.x.exact
  right : b.greatest.x.exact ≤ b'.greatest.x.exact
  top : b'.least.y.exact ≤ b.least.y.exact
  bottom : b.greatest.y.exact ≤ b'.greatest.y.exact

theorem Covers.trans {b₁ b₂ b₃ : Bounds ℝ} (h : Covers b₁ b₂) (h' : Covers b₂ b₃) :
    Covers b₁ b₃ :=
  ⟨h.left.trans h'.left, h'.right.trans h.right, h.top.trans h'.top, h'.bottom.trans h.bottom⟩

theorem Covers.surrounds {b' b : Bounds ℝ} {margin : ℝ} {q : Point ℝ} (h : Covers b' b)
    (hq : b.Surrounds margin q) : b'.Surrounds margin q :=
  ⟨(add_le_add_left h.left _).trans hq.left, hq.right.trans h.right,
    (add_le_add_left h.top _).trans hq.top, hq.bottom.trans h.bottom⟩

/-- The rectangle of a packed box. -/
def PlacedBox.bounds (p : PlacedBox) : Bounds ℝ :=
  ⟨⟨.int p.corner.x, .int p.corner.y⟩,
    ⟨.int (p.corner.x + p.size.x), .int (p.corner.y + p.size.y)⟩⟩

theorem covers_including (b : Bounds ℝ) (p : PlacedBox) :
    Covers (including b p) b ∧ Covers (including b p) p.bounds := by
  constructor <;> constructor <;>
    simp only [including, PlacedBox.bounds, Number.exact_smaller, Number.exact_larger,
      min_le_left, min_le_right, le_max_left, le_max_right]

/-- Bounds to which boxes are added reach as far as before, and around all of the boxes. -/
theorem covers_foldl_including (b : Bounds ℝ) (boxes : List PlacedBox) :
    Covers (boxes.foldl including b) b ∧
      ∀ p ∈ boxes, Covers (boxes.foldl including b) p.bounds := by
  induction boxes generalizing b with
  | nil => exact ⟨⟨le_rfl, le_rfl, le_rfl, le_rfl⟩, nofun⟩
  | cons p rest ih =>
      obtain ⟨hbefore, hrest⟩ := ih (including b p)
      obtain ⟨hb, hp⟩ := covers_including b p
      refine ⟨hbefore.trans hb, ?_⟩
      intro p' hp'
      rcases List.mem_cons.mp hp' with rfl | hp'
      · exact hbefore.trans hp
      · exact hrest p' hp'

/-- A canvas moves bounds to its upper left corner, and leaves the padding on every side. -/
theorem exists_canvas (b : Bounds ℝ) (padding : Number ℝ) :
    ∃ c, canvas b padding = .ok c ∧ c.shift.x.exact = padding.exact - b.least.x.exact ∧
      c.shift.y.exact = padding.exact - b.least.y.exact ∧
      c.width.exact = b.greatest.x.exact - b.least.x.exact + 2 * padding.exact ∧
      c.height.exact = b.greatest.y.exact - b.least.y.exact + 2 * padding.exact := by
  obtain ⟨twice, htwice, htwiceExact⟩ := Number.exists_mul (.int 2) padding
  obtain ⟨across, hacross, hacrossExact⟩ := Number.exists_sub b.greatest.x b.least.x
  obtain ⟨width, hwidth, hwidthExact⟩ := Number.exists_add across twice
  obtain ⟨down, hdown, hdownExact⟩ := Number.exists_sub b.greatest.y b.least.y
  obtain ⟨height, hheight, hheightExact⟩ := Number.exists_add down twice
  obtain ⟨x, hx, hxExact⟩ := Number.exists_sub padding b.least.x
  obtain ⟨y, hy, hyExact⟩ := Number.exists_sub padding b.least.y
  have hfactor : (Number.int 2 : Number ℝ).exact = 2 := Int.cast_ofNat 2
  refine ⟨⟨width, height, ⟨x, y⟩⟩, ?_, hxExact, hyExact, ?_, ?_⟩
  · rw [canvas, htwice, ok_bind, hacross, ok_bind, hwidth, ok_bind, hdown, ok_bind, hheight,
      ok_bind, hx, ok_bind, hy]
    rfl
  · rw [hwidthExact, hacrossExact, htwiceExact, hfactor]
  · rw [hheightExact, hdownExact, htwiceExact, hfactor]

/-- A point on a canvas keeps a margin to its edges. -/
structure Canvas.Shows (c : Canvas ℝ) (margin : ℝ) (p : Point (Number ℝ)) : Prop where
  left : margin ≤ p.x.exact
  right : p.x.exact + margin ≤ c.width.exact
  top : margin ≤ p.y.exact
  bottom : p.y.exact + margin ≤ c.height.exact

theorem exists_moved {p : Point (Value ℝ)} {q : Point ℝ} (h : p.Reads q)
    (shift : Point (Number ℝ)) :
    ∃ p', moved shift p = .ok p' ∧ p'.x.exact = q.x + shift.x.exact ∧
      p'.y.exact = q.y + shift.y.exact := by
  obtain ⟨hx, hy⟩ := Point.reads_iff.mp h
  obtain ⟨a, ha, haExact⟩ := Value.scalar_eq_ok_iff.mp hx
  obtain ⟨b, hb, hbExact⟩ := Value.scalar_eq_ok_iff.mp hy
  obtain ⟨x, hx, hxExact⟩ := Number.exists_add a shift.x
  obtain ⟨y, hy, hyExact⟩ := Number.exists_add b shift.y
  refine ⟨⟨x, y⟩, ?_, hxExact.trans (by rw [haExact]), hyExact.trans (by rw [hbExact])⟩
  rw [moved, ha, ok_bind, hx, ok_bind, hb, ok_bind, hy]
  rfl

/-- The points that a part covers. -/
def Part.region : Part ℝ → Set (Point ℝ)
  | box corner width height _ | rectangle corner width height _ _ _ =>
    {q | corner.x.exact ≤ q.x ∧ q.x ≤ corner.x.exact + width.exact ∧ corner.y.exact ≤ q.y ∧
      q.y ≤ corner.y.exact + height.exact}
  | circle centre radius _ _ _ =>
    {q | (q.x - centre.x.exact) ^ 2 + (q.y - centre.y.exact) ^ 2 ≤ radius.exact ^ 2}
  | polyline points _ _ => {q | ∃ p ∈ points, q = ⟨p.x.exact, p.y.exact⟩}
  | frame .. | background _ | groupStart _ | groupEnd | label .. | frameEnd => ∅

/-- The view of a figure, widened to the left and right and upwards and downwards. -/
def Canvas.view (c : Canvas ℝ) (across down : ℝ) : Set (Point ℝ) :=
  {q | -across ≤ q.x ∧ q.x ≤ c.width.exact + across ∧ -down ≤ q.y ∧ q.y ≤ c.height.exact + down}

variable {o : Options ℝ} {l : Layout ℝ} {radius padding : ℝ} {placed : List PlacedBox}

/-- A canvas has room for the nodes and bends, with the radius and the padding around them, and for
the packed boxes. -/
theorem exists_framing (hpoints : ∀ p ∈ l.drawing.points, ∃ q, p.Reads q)
    (hradius : o.nodeRadius.scalar = .ok radius) (hpadding : o.padding.scalar = .ok padding)
    (hpad : 0 ≤ padding) (hboxes : drawnBoxes o l = .ok placed) :
    ∃ c, framing o l = .ok (c, placed) ∧
      (∀ p ∈ l.drawing.points, ∃ p', moved c.shift p = .ok p' ∧ c.Shows (radius + padding) p') ∧
      ∀ b ∈ placed, ∃ p, boxPart o c.shift b = .ok p ∧ p.region ⊆ c.view 0 0 := by
  obtain ⟨r, hr, rfl⟩ := Value.scalar_eq_ok_iff.mp hradius
  obtain ⟨m, hm, rfl⟩ := Value.scalar_eq_ok_iff.mp hpadding
  obtain ⟨near, hnear, hnearPoints⟩ := Bounds.exists_of hpoints
  obtain ⟨wide, hwide, hwidePoints⟩ := exists_widen near r
  obtain ⟨hbefore, hcovers⟩ := covers_foldl_including wide placed
  generalize hfull : placed.foldl including wide = full at hbefore hcovers
  obtain ⟨c, hc, hx, hy, hwidth, hheight⟩ := exists_canvas full m
  refine ⟨c, ?_, ?_, ?_⟩
  · rw [framing, hnear, ok_bind, hr, ok_bind, hwide, ok_bind, hboxes, ok_bind, hm, ok_bind, hfull,
      hc]
    rfl
  · intro p hp
    obtain ⟨q, hq⟩ := hpoints p hp
    obtain ⟨p', hp', hxMoved, hyMoved⟩ := exists_moved hq c.shift
    have hsurrounds := hbefore.surrounds (hwidePoints 0 q (hnearPoints p hp q hq))
    rw [zero_add] at hsurrounds
    obtain ⟨h₁, h₂, h₃, h₄⟩ := hsurrounds
    refine ⟨p', hp', ?_⟩
    constructor <;> linarith
  · intro b hb
    obtain ⟨x, hbx, hbxExact⟩ := Number.exists_add (.int b.corner.x) c.shift.x
    obtain ⟨y, hby, hbyExact⟩ := Number.exists_add (.int b.corner.y) c.shift.y
    refine ⟨.box ⟨x, y⟩ (.int b.size.x) (.int b.size.y) o.boxColor, ?_, ?_⟩
    · rw [boxPart, hbx, ok_bind, hby]
      rfl
    · obtain ⟨h₁, h₂, h₃, h₄⟩ := hcovers b hb
      simp only [PlacedBox.bounds, Number.exact_int, Int.cast_add] at h₁ h₂ h₃ h₄ hbxExact hbyExact
      rintro q ⟨hleft, hright, htop, hbottom⟩
      simp only [Number.exact_int] at hleft hright htop hbottom
      refine ⟨?_, ?_, ?_, ?_⟩ <;> linarith

end Framing

end Svg

end PackedDrawing
