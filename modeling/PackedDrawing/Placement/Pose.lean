import PackedDrawing.Plane.Rectangle
import PackedDrawing.Packing.Rows
import PackedDrawing.Placement.Record
/-!
# The pose of a component

A component is turned so that its smallest bounding rectangle lies flat, never taller than wide, and
is then put into a box with a border around it. `Pose` says how far it is turned, how large the
rectangle is, and which vector takes the turned component to its place in the box.

## Main definitions

* `Pose.ofPolygon`: the pose for a polygon around a centred component.
* `Pose.box`: the box, in whole numbers.
* `orient`: centres a component and chooses its pose.
* `Envelope`: what builds the polygon around points.

## Implementation notes

Borders are whole numbers; `Border` asks of them only what the pose needs, so that a value that has
not been checked can serve as well. The rectangle is rounded up to whole numbers, with a little
slack for extents that exceed one by rounding only.
-/

namespace PackedDrawing

/-- What can be used as the border of a box. -/
class Border (α β : Type) where
  /-- Half of it, a scalar. -/
  half : β → Except Fault α
  /-- A whole number widened by it. -/
  widen : Int → β → Except Fault β

instance {α : Type} [Scalar α] : Border α Int where
  half b := do return 0.5 * (← Scalar.ofInt b)
  widen n b := .ok (n + b)

instance {α : Type} [Scalar α] : Border α (Value α) where
  half b := do return 0.5 * (← b.scalar)
  widen n b := Value.add (.int n) b

/-- What builds the polygon around points. -/
abbrev Envelope (α : Type) := List (Point α) → Except Fault (Polygon α)

/-- How a component is turned and placed in its box. -/
structure Pose (α β : Type) where
  rotation : α
  width : α
  height : α
  /-- What is subtracted from a turned point that was moved to the corner of the box. -/
  corrective : Point α
  border : β
  deriving Repr

namespace Pose

variable {α β : Type} [Scalar α]

/-- The slack before an extent is rounded up. -/
def slack : α := 1e-9

/-- The side of a padded box for an extent. -/
def side [Border α β] (border : β) (extent : α) : Except Fault β := do
  Border.widen α (← Scalar.ceil (extent - slack)) border

/-- The padded box of a component. -/
def box [Border α β] (g : Pose α β) : Except Fault (Point β) := do
  let x ← side g.border g.width
  let y ← side g.border g.height
  return ⟨x, y⟩

/-- The angle that turns a normal upward, toward smaller y. -/
def upright (normal : Point α) : α :=
  -(Scalar.atan2 normal.y normal.x) + 1.5 * Scalar.pi

/-- The angle of a rectangle that lies flat, and its width and height. -/
def flat (r : Rectangle α) : α × α × α :=
  let angle := upright r.normal
  if Scalar.lt r.width r.height then (angle + 0.5 * Scalar.pi, r.height, r.width)
  else (angle, r.width, r.height)

/-- The first scalar and those behind it, taken together two by two. Where scalars have a bound, the
first one is compared with the bound as well. -/
def extreme (select : α → α → α) (bound? : Option α) (first : α) (rest : List α) : α :=
  rest.foldl select (match bound? with | some b => select b first | none => first)

/-- The left end of turned points; zero for none. -/
def left : List (Point α) → α
  | [] => 0.0
  | p :: ps => extreme Scalar.smaller Scalar.top? p.x (ps.map Point.x)

/-- The lower end of turned points, where y is largest; zero for none. -/
def bottom : List (Point α) → α
  | [] => 0.0
  | p :: ps => extreme Scalar.larger (Scalar.top?.map (-·)) p.y (ps.map Point.y)

/-- The pose for a polygon around a centred component. -/
def ofPolygon [Border α β] (outline : Polygon α) (border : β) : Except Fault (Pose α β) := do
  let (rotation, width, height) := flat (Rectangle.smallest outline)
  let turned ← outline.vertices.mapM (Point.turn · rotation)
  let half ← Border.half border
  return { rotation, width, height, border
           corrective := ⟨left turned, bottom turned - height⟩ - ⟨half, half⟩ }

end Pose

variable {α β : Type} [Scalar α]

/-- Centres a component and chooses its pose. -/
def orient [Border α β] (records : List Record) (border : β) (envelope : Envelope α) :
    Act (Drawing α) (Pose α β) := do
  let _ ← centre records
  let ps ← points records
  let outline ← Act.attempt (envelope ps)
  Act.attempt (Pose.ofPolygon outline border)

namespace Envelope

/-- The convex hull. -/
def convex : Envelope α := fun ps => .ok (Polygon.hull ps)

/-- The convex hull, the other way around. -/
def clockwise : Envelope α := fun ps => .ok ⟨(Hull.corners ps).reverse⟩

/-- The points as they are. -/
def same : Envelope α := fun ps => .ok ⟨ps⟩

/-- No vertices. -/
def empty : Envelope α := fun _ => .ok ⟨[]⟩

/-- The first point alone. -/
def first : Envelope α := fun ps => .ok ⟨ps.take 1⟩

/-- The convex hull with every corner twice in a row. -/
def doubled : Envelope α := fun ps => .ok ⟨(Hull.corners ps).flatMap fun p => [p, p]⟩

/-- What builds no polygon cannot be used. -/
def missing : Envelope α := fun _ => .error .typeMismatch

end Envelope

end PackedDrawing
