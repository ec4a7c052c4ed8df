import PackedDrawing.Placement.Pose
/-!
# Motion into the packed drawing

A centred component is moved into the packed drawing: its points are turned about the origin, moved
by the offset of the component's box and corrected so that the rectangle sits inside the border.
`Pose.unplace` is the way back. `Motion` does the same with values, of which whole numbers are added
exactly as long as they meet no scalar.
-/

namespace PackedDrawing

namespace Pose

variable {α β : Type} [Scalar α]

/-- An offset as a point of scalars. -/
def shift (offset : Offset) : Except Fault (Point α) := offset.mapM Scalar.ofInt

/-- Where a centred point lies in the packed drawing. -/
def place (g : Pose α β) (offset : Offset) (p : Point α) : Except Fault (Point α) := do
  let turned ← p.turn g.rotation
  return (turned + (← shift offset)) - g.corrective

/-- The centred point of a point in the packed drawing. -/
def unplace (g : Pose α β) (offset : Offset) (p : Point α) : Except Fault (Point α) := do
  let turned := (p - (← shift offset)) + g.corrective
  turned.turn (-g.rotation)

end Pose

/-- What moves a point into the packed drawing, given by values. -/
structure Motion (α : Type) where
  rotation : Value α
  corrective : Point (Value α)
  offset : Point (Value α)

namespace Motion

variable {α : Type} [Scalar α]

/-- A point of values turned by a value. -/
def turn (p : Point (Value α)) (angle : Value α) : Except Fault (Point α) := do
  let y ← p.y.scalar
  let x ← p.x.scalar
  (⟨x, y⟩ : Point α).turn (← angle.scalar)

/-- Where a centred point lies in the packed drawing. -/
def place (m : Motion α) (p : Point (Value α)) : Except Fault (Point α) := do
  let turned ← turn p m.rotation
  let moved ← (turned.map Value.real).combine Value.add m.offset
  (← moved.combine Value.sub m.corrective).mapM Value.scalar

/-- The centred point of a point in the packed drawing. -/
def unplace (m : Motion α) (p : Point (Value α)) : Except Fault (Point α) := do
  let moved ← p.combine Value.sub m.offset
  let turned ← moved.combine Value.add m.corrective
  let angle ← m.rotation.number
  turn turned (.ofNumber angle.neg)

end Motion

variable {α β : Type} [Scalar α]

/-- Moves the point of a record into the packed drawing. -/
def placeRecord (g : Pose α β) (offset : Offset) (r : Record) : Act (Drawing α) Unit := do
  let d ← Act.state
  let p ← Act.attempt (r.point d)
  let q ← Act.attempt (g.place offset p)
  Act.change fun d => Record.move q d r

/-- Moves all points of a component into the packed drawing. -/
def settle (records : List Record) (g : Pose α β) (offset : Offset) :
    Act (Drawing α) Unit :=
  Act.each (placeRecord g offset) records

end PackedDrawing
