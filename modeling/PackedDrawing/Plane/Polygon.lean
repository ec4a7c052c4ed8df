import PackedDrawing.Plane.Hull
/-!
# Polygons

A polygon is the list of its vertices in order around it. `Value.toPoints` reads points from a
value: the numbers in it, however they are grouped, are taken two by two.

## Main definitions

* `Polygon.edges`: the edges in vertex order, the last one back to the start.
* `Polygon.succ`, `Polygon.vertex`: the vertex number after another, and the vertex at a number.
* `Value.toPoints`: reading points.
-/

namespace PackedDrawing

/-- The vertices of a polygon. -/
structure Polygon (α : Type) where
  vertices : List (Point α)
  deriving Repr

namespace Polygon

variable {α : Type}

/-- The number of vertices. -/
def size (p : Polygon α) : Nat := p.vertices.length

/-- The edges of a polygon, in vertex order. -/
def edges (p : Polygon α) : List (Point α × Point α) :=
  match p.vertices with
  | [] => []
  | v :: vs => (v :: vs).zip (vs ++ [v])

@[simp] theorem edges_nil : (⟨[]⟩ : Polygon α).edges = [] := rfl

theorem length_edges (p : Polygon α) : p.edges.length = p.size := by
  obtain ⟨vs⟩ := p
  cases vs <;> simp [edges, size]

/-- The number of the vertex after vertex `i`, going around. -/
def succ (p : Polygon α) (i : Int) : Except Fault Int :=
  if p.vertices.isEmpty then .error .divisionByZero else .ok ((i + 1).fmod p.size)

/-- The same for a number that is given as a value and need not be whole. -/
def succOf [Scalar α] (p : Polygon α) (v : Value α) : Except Fault (Number α) := do
  let next ← (← v.number).add (.int 1)
  if p.vertices.isEmpty then throw .divisionByZero
  next.remainder p.size

/-- The vertex at a number, counted from either end. -/
def vertex (p : Polygon α) (i : Int) : Except Fault (Point α) :=
  match at? p.vertices i with
  | some v => .ok v
  | none => .error .outOfRange

/-- How a polygon is described. -/
def describe (p : Polygon α) : String := s!"ConvexPolygon(vertices={p.size})"

/-- The polygon around points. -/
def hull [Scalar α] (points : List (Point α)) : Polygon α := ⟨Hull.corners points⟩

/-- Takes numbers two by two. -/
def pairUp : List α → Except Fault (List (Point α))
  | [] => .ok []
  | [_] => .error .badValue
  | x :: y :: rest => do return ⟨x, y⟩ :: (← pairUp rest)

end Polygon

namespace Value

variable {α : Type}

mutual

/-- The lengths of nested lists from the outermost inward, when lists at the same depth have the
same length. -/
def shape? : Value α → Option (List Nat)
  | list xs => itemsShape? xs
  | _ => some []

/-- The lengths of a list of values of one shape. -/
def itemsShape? : List (Value α) → Option (List Nat)
  | [] => some [0]
  | x :: xs =>
    match shape? x, itemsShape? xs with
    | some s, some (0 :: _) => some (1 :: s)
    | some s, some (n :: t) => if s = t then some ((n + 1) :: s) else none
    | _, _ => none

end

/-- How deep lists of points may be nested. -/
def deepest : Nat := 64

/-- The lengths of nested lists of one shape that are not nested too deep. -/
def grid? (v : Value α) : Option (List Nat) := v.shape?.filter (·.length ≤ deepest)

mutual

/-- The values in nested lists that are no lists. -/
def leaves : Value α → List (Value α)
  | list xs => itemLeaves xs
  | v => [v]

/-- The values in the lists of a list that are no lists. -/
def itemLeaves : List (Value α) → List (Value α)
  | [] => []
  | x :: xs => leaves x ++ itemLeaves xs

end

/-- A value as a coordinate; nothing at all is an undefined one. -/
def toCoordinate [Scalar α] : Value α → Except Fault α
  | null => Scalar.ofNumeral .undefined
  | v => v.toReal

/-- The points in a value: its numbers two by two, in nested lists of even shape. -/
def toPoints [Scalar α] (v : Value α) : Except Fault (List (Point α)) :=
  match v.grid? with
  | none => .error .badValue
  | some _ => do Polygon.pairUp (← v.leaves.mapM toCoordinate)

end Value

end PackedDrawing
