import PackedDrawing.Graph.Drawing
/-!
# Bounds of a drawing

The smallest rectangle around all nodes and bends of a drawing, and its aspect ratio. Nodes count as
points, or with their size.
-/

namespace PackedDrawing

/-- The rectangle between two corners. -/
structure Bounds (α : Type) where
  least : Point (Number α)
  greatest : Point (Number α)
  deriving Repr

namespace Bounds

variable {α : Type} [Scalar α]

/-- Half of a size, where nothing at all counts as zero. -/
def halfSize (v : Value α) : Except Fault (Number α) := do
  (← (if v.holds then v else .real 0.0).number).div (.int 2)

/-- The ends of an interval around a coordinate. -/
def around (v : Value α) (half : Number α) : Except Fault (List (Number α)) := do
  let c ← v.number
  return [← c.sub half, ← c.add half]

/-- The coordinates at which an entry lies. Its size is looked at only if it counts. -/
def ofEntry (sized : Bool) (e : NodeEntry α) :
    Except Fault (List (Number α) × List (Number α)) := do
  let halfWidth ← if sized then halfSize (← e.read "width") else pure (.real 0.0)
  let halfHeight ← if sized then halfSize (← e.read "height") else pure (.real 0.0)
  let xs ← around (← e.read "x") halfWidth
  let ys ← around (← e.read "y") halfHeight
  return (xs, ys)

/-- The corners of the rectangle around coordinates; for none it is the origin. -/
def ofCoordinates : List (Number α) → List (Number α) → Bounds α
  | x :: xs, y :: ys =>
    ⟨⟨Number.least x xs, Number.least y ys⟩, ⟨Number.greatest x xs, Number.greatest y ys⟩⟩
  | _, _ => ⟨⟨.real 0.0, .real 0.0⟩, ⟨.real 0.0, .real 0.0⟩⟩

/-- The bounds of entries as they are, and of the bends of links, with the sizes of nodes if
`sized`. -/
def ofEntries (nodes : List (NodeEntry α)) (links : List (LinkEntry α)) (sized : Bool) :
    Except Fault (Bounds α) := do
  let ends ← nodes.mapM (ofEntry sized)
  let routes ← links.mapM LinkEntry.route
  let bends ← routes.flatten.mapM (Point.mapM Value.number)
  return ofCoordinates (ends.flatMap Prod.fst ++ bends.map Point.x)
    (ends.flatMap Prod.snd ++ bends.map Point.y)

/-- The bounds of nodes and of the bends of links, with the sizes of nodes if `sized`. -/
def of (nodes : List (Node α)) (links : List (Link α)) (sized : Bool) :
    Except Fault (Bounds α) :=
  ofEntries (nodes.map .ready) (links.map .ready) sized

/-- Width over height; one for a drawing without height. -/
def aspect (b : Bounds α) : Except Fault (Number α) := do
  let height ← b.greatest.y.sub b.least.y
  if height.isZero then return .real 1.0
  (← b.greatest.x.sub b.least.x).div height

end Bounds

end PackedDrawing
