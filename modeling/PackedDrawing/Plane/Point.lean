import PackedDrawing.Value.Basic
/-!
# Points

Pairs of coordinates. Points of scalars can be added, subtracted and turned about the origin; the
unit normal of an edge points to the right of its direction. Points of other coordinates combine
coordinate by coordinate.

## Implementation notes

Turning goes through polar form: the angle is added to the point's own angle, and the distance from
the origin is kept. Infinite angles have no cosine, so turning may be at fault.
-/

namespace PackedDrawing

/-- A pair of coordinates. -/
structure Point (β : Type) where
  x : β
  y : β
  deriving DecidableEq, Repr, Inhabited

namespace Point

/-- Changes both coordinates in the same way. -/
def map {β γ : Type} (f : β → γ) (p : Point β) : Point γ := ⟨f p.x, f p.y⟩

/-- Changes both coordinates, the first one first. -/
def mapM {β γ : Type} (f : β → Except Fault γ) (p : Point β) : Except Fault (Point γ) := do
  let x ← f p.x
  let y ← f p.y
  return ⟨x, y⟩

/-- Combines two points coordinate by coordinate, the first coordinates first. -/
def combine {β γ : Type} (f : β → β → Except Fault γ) (p q : Point β) :
    Except Fault (Point γ) := do
  let x ← f p.x q.x
  let y ← f p.y q.y
  return ⟨x, y⟩

section Scalars

variable {α : Type} [Scalar α]

instance : Add (Point α) := ⟨fun p q => ⟨p.x + q.x, p.y + q.y⟩⟩

instance : Sub (Point α) := ⟨fun p q => ⟨p.x - q.x, p.y - q.y⟩⟩

@[simp] theorem add_x (p q : Point α) : (p + q).x = p.x + q.x := rfl

@[simp] theorem add_y (p q : Point α) : (p + q).y = p.y + q.y := rfl

@[simp] theorem sub_x (p q : Point α) : (p - q).x = p.x - q.x := rfl

@[simp] theorem sub_y (p q : Point α) : (p - q).y = p.y - q.y := rfl

/-- The origin. -/
def origin : Point α := ⟨0.0, 0.0⟩

/-- The sum of the products of coordinates. -/
def dot (p q : Point α) : α := p.x * q.x + p.y * q.y

/-- Twice the signed area of a triangle: above zero when it turns left. -/
def cross (o a b : Point α) : α := (a.x - o.x) * (b.y - o.y) - (a.y - o.y) * (b.x - o.x)

/-- A point turned about the origin by an angle. -/
def turn (p : Point α) (angle : α) : Except Fault (Point α) := do
  let total := Scalar.atan2 p.y p.x + angle
  let radius := Scalar.hypot p.x p.y
  let c ← Scalar.cos total
  let s ← Scalar.sin total
  return ⟨c * radius, s * radius⟩

/-- The unit vector to the right of a direction; zero for no direction. -/
def rightOf (d : Point α) : Point α :=
  let length := Scalar.hypot d.x d.y
  if Scalar.eq length 0.0 then origin else ⟨d.y / length, -d.x / length⟩

/-- The unit vector to the right of an edge's direction; zero for an edge without length. -/
def outwardNormal (start stop : Point α) : Point α := (stop - start).rightOf

/-- Whether a coordinate differs from zero; an undefined one does. -/
def nonzero (p : Point α) : Bool := !(Scalar.eq p.x 0.0 && Scalar.eq p.y 0.0)

end Scalars

end Point

end PackedDrawing
