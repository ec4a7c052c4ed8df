import PackedDrawing.Act
import PackedDrawing.Component.Grouping
import PackedDrawing.Value.Order
/-!
# Copies of components

A component can be laid out on its own. `Copy.of` copies its nodes and links, numbers the nodes from
zero and lets the links mention those numbers; `Copy.bringHome` brings positions and bends home.

## Main definitions

* `Flags`: which optional parts of a drawing take part: bends, depth and weights.
* `Copy`: the copied drawing, and where its nodes and links came from.
* `Copy.bringHome`: nodes are matched by the index they carry, links by their place.

## Implementation notes

A node that carries no index, or one that the copy did not give out, has no home and is passed over;
so are links beyond the copied ones. An index that is a number inside the range but not a whole
number is at fault, and what was written before it stays.
-/

namespace PackedDrawing

/-- The optional parts of a drawing, as the sum of one for bends, two for depth and four for
weights. -/
structure Flags where
  bits : Nat
  deriving DecidableEq, Repr, Inhabited

namespace Flags

-- powers of whole numbers as the core library has them, whatever else is in scope
attribute [local instance (high)] instPowNat

/-- Bends take part. -/
def bends (f : Flags) : Bool := f.bits.testBit 0

/-- Depth takes part. -/
def depth (f : Flags) : Bool := f.bits.testBit 1

/-- Weights take part. -/
def weights (f : Flags) : Bool := f.bits.testBit 2

/-- Only bends take part. -/
def plain : Flags := ⟨1⟩

/-- Flags from a whole number. A number below zero names the parts to leave out: it stands for its
remainder by eight, or by the next larger power of two if it lies further down. -/
def ofInt (n : Int) : Flags :=
  if 0 ≤ n then ⟨n.toNat⟩
  else if -8 ≤ n then ⟨(8 + n).toNat⟩
  else ⟨((2 : Int) ^ (Nat.log2 n.natAbs + 1) + n).toNat⟩

/-- The whole numbers that are known for flags once they were given by `n`: their sum, and `n`
itself unless it lies further down. -/
def names (n : Int) : List Int := (ofInt n).bits :: (if -8 ≤ n then [n] else [])

/-- Flags from a value: a whole number, or a scalar equal to a single flag or to one of the `known`
numbers, by which flags were given before. -/
def ofValue {α : Type} [Scalar α] (known : List Int) (v : Value α) : Except Fault Flags :=
  match v with
  | .int n => .ok (ofInt n)
  | .bool b => .ok ⟨if b then 1 else 0⟩
  | .real r =>
    match ([0, 1, 2, 4] ++ known).find? fun k => Scalar.compareInt r k == some Ordering.eq with
    | some k => .ok (ofInt k)
    | none => .error .badValue
  | _ => .error .badValue

end Flags

/-- A component on its own, and the positions its nodes and links have in the whole drawing. -/
structure Copy (α : Type) where
  flags : Flags
  nodeHomes : List Nat
  linkHomes : List Nat
  drawing : Drawing α
  deriving Inhabited

namespace Copy

variable {α : Type} [Scalar α]

/-- The number that a copy gives to the node under an index: the last place where the list of node
indices holds it. -/
def localNumber (indices : List (Value α)) (index : Value α) : Except Fault Nat :=
  match index with
  | .list _ | .table _ => .error .typeMismatch
  | _ =>
    match (List.range indices.length).reverse.find? fun k =>
        (indices[k]?.map (Value.same index)).getD false with
    | some k => .ok k
    | none => .error .missingKey

/-- The copy of a node under its number. Depth is copied only if it takes part. -/
def copyNode (flags : Flags) (number : Nat) (n : Node α) : Node α :=
  { n with
    index := .int number
    z := if flags.depth then n.z else .real 0.0 }

/-- The copy of a link. Weight and bends are copied only if they take part. -/
def copyLink (flags : Flags) (nodes : List (Node α)) (indices : List (Value α)) (l : Link α) :
    Except Fault (Link α) := do
  let s ← localNumber indices (l.source.mention nodes).located
  let t ← localNumber indices (l.target.mention nodes).located
  return { l with
    source := .value (.int s)
    target := .value (.int t)
    weight := if flags.weights then l.weight else .null
    bends := if flags.bends then l.bends else [] }

/-- The copy of the nodes and links at given positions. -/
def of (d : Drawing α) (nodeIndices linkIndices : List (Value α)) (flags : Flags) :
    Except Fault (Copy α) := do
  let nodeHomes ← Value.places d.nodes.length nodeIndices
  let linkHomes ← Value.places d.links.length linkIndices
  let nodes := (nodeHomes.filterMap (d.nodes[·]?)).mapIdx (copyNode flags)
  let links ← (linkHomes.filterMap (d.links[·]?)).mapM (copyLink flags d.nodes nodeIndices)
  return { flags, nodeHomes, linkHomes, drawing := { nodes, links } }

/-- The attributes of a node that are copied. -/
def nodeNeeds (flags : Flags) : List String :=
  ["x", "y", "width", "height"] ++ (if flags.depth then ["z"] else [])

/-- The parts of a link that are copied. -/
def linkNeeds (flags : Flags) : List String :=
  ["source", "target", "length"] ++ (if flags.weights then ["weight"] else [])
    ++ (if flags.bends then ["bends"] else [])

/-- Entries as a drawing as they are, and the copy of some of them, which have to have whatever is
copied. -/
def ofEntries (nodes : List (NodeEntry α)) (links : List (LinkEntry α))
    (nodeIndices linkIndices : List (Value α)) (flags : Flags) :
    Except Fault (Drawing α × Copy α) := do
  let nodeHomes ← Value.places nodes.length nodeIndices
  let linkHomes ← Value.places links.length linkIndices
  for e in nodeHomes.filterMap (nodes[·]?) do
    for name in nodeNeeds flags do
      let _ ← e.read name
  for e in linkHomes.filterMap (links[·]?) do
    if !(linkNeeds flags).all e.has then throw .missingAttribute
  let d : Drawing α := { nodes := ← nodes.mapM NodeEntry.asNode
                         links := ← links.mapM LinkEntry.asLink }
  return (d, ← of d nodeIndices linkIndices flags)

/-- The position in the whole drawing of a node of the copy, found by the index the node carries. -/
def nodeHome (c : Copy α) (n : Node α) : Except Fault (Option Nat) :=
  match n.index with
  | .null => .ok none
  | v => do
    if ← v.inside c.nodeHomes.length then
      return c.nodeHomes[(← v.mentioned).position.toNat]?
    else return none

/-- The position in the whole drawing of the link at a place of the copy. -/
def linkHome (c : Copy α) (place : Nat) : Option Nat := c.linkHomes[place]?

/-- Brings the position of one node home. -/
def writeNode (c : Copy α) (n : Node α) : Act (Drawing α) Unit := do
  match ← Act.attempt (c.nodeHome n) with
  | none => pure ()
  | some k =>
    Act.change (Drawing.updateNode k fun m =>
      { m with x := n.x, y := n.y, z := if c.flags.depth then n.z else m.z })

/-- Brings the bends of links home, the first of them from a place on. -/
def writeLinks (c : Copy α) : Nat → List (Link α) → Act (Drawing α) Unit
  | _, [] => pure ()
  | place, l :: rest => do
    match c.linkHome place with
    | none => pure ()
    | some k => Act.change (Drawing.updateLink k fun m => { m with bends := l.bends })
    writeLinks c (place + 1) rest

/-- Brings the positions of nodes home, and the bends of links if bends take part. -/
def bringHome (c : Copy α) (nodes : List (Node α)) (links : List (Link α)) :
    Act (Drawing α) Unit := do
  Act.each c.writeNode nodes
  if c.flags.bends then c.writeLinks 0 links

end Copy

end PackedDrawing
