import PackedDrawing.Plane.Polygon
/-!
# Bounding rectangles

The rectangle around a polygon with one side on an edge: its height is the extent of the polygon
along the edge's normal, its width the extent along the edge, and neither is below one.
`Rectangle.smallest` searches the edges for the rectangle of least area.

## Implementation notes

Edges without length have no normal and are skipped. Of rectangles of equal area the one on the last
edge is kept. A rectangle with an undefined area is never taken. Polygons of fewer than two vertices
get the unit square, turned by an eighth.
-/

namespace PackedDrawing

/-- A rectangle, turned so that `normal` is the unit vector across its width. -/
structure Rectangle (α : Type) where
  normal : Point α
  width : α
  height : α
  deriving Repr

namespace Rectangle

variable {α : Type} [Scalar α]

/-- The rectangle of a polygon without edges. -/
def unit : Rectangle α := ⟨⟨1.0, 1.0⟩, 1.0, 1.0⟩

/-- The area of a rectangle. -/
def area (r : Rectangle α) : α := r.height * r.width

/-- The difference between the largest and the smallest of the given scalars. -/
def spread : List α → α
  | [] => 0.0
  | x :: xs => Scalar.greatest x xs - Scalar.least x xs

/-- How far points extend along a direction, seen from one of them. -/
def extent (points : List (Point α)) (start direction : Point α) : α :=
  spread (points.map fun p => (p - start).dot direction)

/-- The direction a normal belongs to. -/
def along (normal : Point α) : Point α := ⟨-normal.y, normal.x⟩

/-- The rectangle around points with a side through one of them, across a normal. -/
def around (points : List (Point α)) (start normal : Point α) : Rectangle α :=
  { normal
    width := Scalar.larger (extent points start (along normal)) 1.0
    height := Scalar.larger (extent points start normal) 1.0 }

/-- The better of the best rectangle so far, together with its area, and another one. The best area
is unbounded at first, where scalars have no bound. -/
def choose (best : Option α × Rectangle α) (r : Rectangle α) : Option α × Rectangle α :=
  match best.1 with
  | none => (some r.area, r)
  | some a => if Scalar.le r.area a then (some r.area, r) else best

/-- The rectangles on the edges of a polygon that have a length. -/
def candidates (p : Polygon α) : List (Rectangle α) :=
  p.edges.filterMap fun e =>
    let normal := Point.outwardNormal e.1 e.2
    if normal.nonzero then some (around p.vertices e.1 normal) else none

/-- The smallest rectangle on an edge of a polygon. -/
def smallest (p : Polygon α) : Rectangle α :=
  if p.size ≤ 1 then unit
  else ((candidates p).foldl choose (Scalar.top?, unit)).2

end Rectangle

end PackedDrawing
