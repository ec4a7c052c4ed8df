import PackedDrawing.Act
import PackedDrawing.Component.Copy
/-!
# Points of a component

The points of a component are the positions of its nodes, followed by the bends of its links if
bends take part. A `Record` says where in the drawing a point is kept, so that points can be read
and moved without knowing what they belong to.

## Main definitions

* `Record.point`, `Record.move`: reading and moving a point.
* `Record.collect`: the records of a component.
* `centre`: moves points so that their mean is the origin.
-/

namespace PackedDrawing

/-- Where in a drawing a point is kept: the position of a node, or one of the bends of a link. -/
inductive Record where
  | node (position : Nat)
  | bend (link : Nat) (number : Int)
  deriving DecidableEq, Repr

namespace Record

variable {α : Type} [Scalar α]

/-- The point a record refers to. -/
def point (d : Drawing α) : Record → Except Fault (Point α)
  | node k =>
    match d.nodes[k]? with
    | some n => Point.mapM Value.toReal ⟨n.x, n.y⟩
    | none => .error .outOfRange
  | bend l k =>
    match d.links[l]?.bind fun link => at? link.bends k with
    | some p => p.mapM Value.toReal
    | none => .error .outOfRange

/-- Moves the point a record refers to. -/
def move (p : Point α) (d : Drawing α) : Record → Drawing α
  | node k => d.updateNode k (·.moveTo p.x p.y)
  | bend l k => d.updateLink l fun link =>
      match Handle.place? link.bends.length k with
      | some i => { link with bends := link.bends.set i (p.map .real) }
      | none => link

/-- Fails if the entry that a record refers to has no position or no bends. -/
def present (nodes : List (NodeEntry α)) (links : List (LinkEntry α)) : Record → Except Fault Unit
  | node k =>
    match nodes[k]? with
    | some e => do
      let _ ← e.read "x"
      let _ ← e.read "y"
    | none => .ok ()
  | bend l _ =>
    match links[l]? with
    | some e => do let _ ← e.route
    | none => .ok ()

/-- The bends of a link. -/
def bendsOf (d : Drawing α) (l : Nat) : List Record :=
  (List.range ((d.links[l]?.map (·.bends.length)).getD 0)).map fun k => bend l (k : Nat)

/-- The records of the nodes and links at given positions. -/
def collect (d : Drawing α) (nodeIndices linkIndices : List (Value α)) (flags : Flags) :
    Except Fault (List Record) := do
  let nodes ← Value.places d.nodes.length nodeIndices
  if flags.bends then
    let links ← Value.places d.links.length linkIndices
    return nodes.map node ++ links.flatMap (bendsOf d)
  else return nodes.map node

/-- The records of entries as they are, of which `d` is the drawing. Links whose bends take part
have to have them. -/
def collectEntries (d : Drawing α) (links : List (LinkEntry α))
    (nodeIndices linkIndices : List (Value α)) (flags : Flags) : Except Fault (List Record) := do
  let records ← collect d nodeIndices linkIndices flags
  if flags.bends then
    for e in (← Value.places links.length linkIndices).filterMap (links[·]?) do
      let _ ← e.route
  return records

end Record

variable {α : Type} [Scalar α]

/-- The mean of a first point and further ones. -/
def mean (first : Point α) (rest : List (Point α)) : Except Fault (Point α) := do
  let sum := rest.foldl (· + ·) first
  let n ← (Scalar.ofInt (rest.length + 1) : Except Fault α)
  return ⟨sum.x / n, sum.y / n⟩

/-- The points that records refer to. -/
def points (records : List Record) : Act (Drawing α) (List (Point α)) := fun d =>
  (records.mapM (Record.point d), d)

/-- Moves the points of records so that their mean is the origin, and answers where it was. All
points are read before the first one is moved. -/
def centre (records : List Record) : Act (Drawing α) (Point α) := do
  match ← points records with
  | [] => Act.fail .noPoints
  | p :: ps => do
    let c ← Act.attempt (mean p ps)
    Act.each (fun r => Act.change fun d => Record.move (r.2 - c) d r.1) (records.zip (p :: ps))
    return c

end PackedDrawing
