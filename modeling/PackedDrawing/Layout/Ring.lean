import PackedDrawing.Layout.Board
import PackedDrawing.Value.Order
/-!
# Ring layouts

The nodes are placed evenly on a circle around the origin, in their own order, by the number of
links at them, or by a key. Without a given radius neighbours lie a set distance apart along the
circle. A single node lies at the origin.

## Main definitions

* `Ring`: the settings.
* `Ring.order`: the positions of the nodes in the order in which they are placed.
* `Ring.run`: the layout.

## Implementation notes

The order is known before the first node is moved. Nodes of equal rank keep the order they have.
-/

namespace PackedDrawing

/-- How the nodes of a ring are ordered: as a value tells, or by a key. -/
inductive NodeOrder (α : Type) where
  /-- By degree for the text that says so, and otherwise as they are. -/
  | given (v : Value α)
  | key (f : Node α → Except Fault (Value α))

/-- The settings of a ring layout. -/
structure Ring (α : Type) where
  radius : Option α
  spacing : α
  start : α
  order : NodeOrder α

namespace Ring

variable {α : Type} [Scalar α]

/-- A ring of fifty units between neighbours, starting at the positive x axis. -/
def plain : Ring α := { radius := none, spacing := 50.0, start := 0.0, order := .given .null }

/-- A radius as users give it: nothing at all leaves it to the distance between neighbours. -/
def radiusOf : Value α → Except Fault (Option α)
  | .null => .ok none
  | v => some <$> v.toReal

/-- The key that is an attribute, or its opposite. -/
def attributeKey (name : String) (opposite : Bool) (n : Node α) : Except Fault (Value α) := do
  match n.get? name with
  | none => throw .missingAttribute
  | some v => if opposite then return .ofNumber (← v.number).neg else return v

/-- The node at which an end of a link counts. -/
def counted (d : Drawing α) (e : Endpoint α) : Except Fault Nat := do
  let v ← (e.mention d.nodes).counted
  match Handle.place? d.nodes.length (← v.position) with
  | some k => return k
  | none => throw .outOfRange

/-- The nodes at the ends of links, each as often as it is an end. -/
def linkEnds (d : Drawing α) : Except Fault (List Nat) :=
  (d.links.flatMap fun l => [l.source, l.target]).mapM (counted d)

/-- The positions of nodes by degree, the largest first. -/
def byDegree (d : Drawing α) : Except Fault (List Nat) := do
  let ends ← linkEnds d
  return (List.range d.nodes.length).mergeSort fun i j => ends.count j ≤ ends.count i

/-- The positions of nodes by a key. -/
def byKey (f : Node α → Except Fault (Value α)) (d : Drawing α) : Except Fault (List Nat) := do
  let keys ← d.nodes.mapM f
  Value.sortBy (keys.mapIdx fun i k => (k, i))

/-- The positions of nodes in the order in which they are placed. -/
def sorted (order : NodeOrder α) (d : Drawing α) : Except Fault (List Nat) :=
  match order with
  | .given (.text "degree") => byDegree d
  | .given _ => .ok (List.range d.nodes.length)
  | .key f => byKey f d

/-- A full turn. -/
def fullTurn : α := 2.0 * Scalar.pi

/-- The radius for a number of nodes. -/
def radiusFor (r : Ring α) (n : α) : α :=
  match r.radius with
  | some x => x
  | none => n * r.spacing / fullTurn

/-- The place number `k` on a circle. -/
def slot (r : Ring α) (radius step : α) (k : Nat) : Except Fault (Point α) := do
  let angle := r.start + (← Scalar.ofInt k) * step
  let c ← Scalar.cos angle
  let s ← Scalar.sin angle
  return ⟨radius * c, radius * s⟩

/-- Places nodes on a circle, the first of them at place number `k`. -/
def placeFrom (r : Ring α) (radius step : α) : Nat → List Nat → Act (Drawing α) Unit
  | _, [] => pure ()
  | k, i :: rest => do
    let p ← Act.attempt (r.slot radius step k)
    Act.change (Drawing.updateNode i (·.moveTo p.x p.y))
    placeFrom r radius step (k + 1) rest

/-- Places the nodes of a drawing. -/
def place (r : Ring α) : Act (Drawing α) Unit := do
  let d ← Act.state
  match d.nodes.length with
  | 0 => pure ()
  | 1 => Act.change (Drawing.updateNode 0 (·.moveTo 0.0 0.0))
  | n => do
    let n ← Act.attempt (Scalar.ofInt n)
    let order ← Act.attempt (sorted r.order d)
    r.placeFrom (r.radiusFor n) (fullTurn / n) 0 order

/-- Lays out a drawing as a ring. -/
def run (r : Ring α) (l : Listeners α) : Act (Board α) Unit :=
  Board.run l (Board.onDrawing r.place)

end Ring

end PackedDrawing
