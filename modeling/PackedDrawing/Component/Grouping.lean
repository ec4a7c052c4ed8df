import PackedDrawing.Component.Search
import PackedDrawing.Graph.Drawing
/-!
# Grouping of a graph into components

A `Grouping` lists the nodes and the links of each connected component. A link belongs to the
component of its source; a link whose source lies outside the graph belongs to none.

## Main definitions

* `Ends`: the two ends of a link as they are read, each of which may fail.
* `Grouping.of`: the grouping of a graph with a number of nodes.
* `Grouping.nodesAt`, `Grouping.linksAt`, `Grouping.locate`: look-ups, counted from either end.

## Implementation notes

A link with an end outside the graph joins nothing. The target is looked at only when the source
lies inside. An end inside the graph that is not a whole number mentions no node and is at fault.
-/

namespace PackedDrawing

/-- The two ends of a link as they are read. -/
structure Ends (α : Type) where
  source : Except Fault (Value α)
  target : Except Fault (Value α)

namespace LinkEntry

variable {α : Type}

/-- One end of an entry as the search for components reads it. A table without that end lacks a key,
a thing without it lacks an attribute. -/
def located (nodes : List (Node α)) (side : LinkEnd) (l : LinkEntry α) :
    Except Fault (Value α) :=
  match l.endpoint? side, l with
  | some e, _ => .ok (e.mention nodes).located
  | none, table _ => .error .missingKey
  | none, _ => .error .missingAttribute

/-- The ends of an entry. -/
def ends (nodes : List (Node α)) (l : LinkEntry α) : Ends α :=
  ⟨l.located nodes .source, l.located nodes .target⟩

end LinkEntry

namespace Value

variable {α : Type}

/-- The item of a list or the character of a text at a position, or the entry of a table under a
name. -/
def item (v key : Value α) : Except Fault (Value α) :=
  match v with
  | list xs => do
    match at? xs (← key.position) with
    | some x => return x
    | none => throw .outOfRange
  | table es =>
    match key with
    | text name =>
      match es.lookup name with
      | some x => .ok x
      | none => .error .missingKey
    | list _ | table _ => .error .typeMismatch
    | _ => .error .missingKey
  | text s => do
    match at? s.toList (← key.position) with
    | some c => return text (String.ofList [c])
    | none => throw .outOfRange
  | _ => .error .typeMismatch

/-- The ends of a link that is a list, a text or a table, under given keys. -/
def endsUnder (v source target : Value α) : Ends α :=
  ⟨v.item source, v.item target⟩

variable [Scalar α]

/-- Whether a number lies in a graph of `n` nodes. -/
def inside (n : Int) (v : Value α) : Except Fault Bool := do
  let x ← v.number
  return Number.le (.int 0) x && x.lt (.int n)

/-- The node that a value mentions. -/
def mentioned (v : Value α) : Except Fault Handle :=
  match v.handle? with
  | some h => .ok h
  | none => .error .typeMismatch

end Value

/-- The nodes and links of each connected component of a graph. -/
structure Grouping where
  nodes : List (List Handle)
  links : List (List Nat)
  deriving DecidableEq, Repr, Inhabited

namespace Grouping

-- the empty sum as the core library has it, whatever else is in scope
attribute [local instance (high)] Zero.ofOfNat0

variable {α : Type} [Scalar α]

/-- The link between two nodes of the graph, unless one of its ends lies outside. -/
def edgeOf (n : Int) (e : Ends α) : Except Fault (Option Search.Edge) := do
  let source ← e.source
  let target ← e.target
  if ← source.inside n then
    if ← target.inside n then
      let s ← source.mentioned
      let t ← target.mentioned
      return some (s, t)
  return none

/-- The links between nodes of the graph. -/
def edgesWithin (n : Int) (links : List (Ends α)) : Except Fault (List Search.Edge) := do
  return (← links.mapM (edgeOf n)).filterMap id

/-- The connected components of a graph with `n` nodes. -/
def components (n : Int) (links : List (Ends α)) : Except Fault (List (List Handle)) := do
  return Search.components n.toNat (← edgesWithin n links)

/-- The source of a link, if it lies in the graph. -/
def sourceOf (n : Int) (e : Ends α) : Except Fault (Option Handle) := do
  let source ← e.source
  if ← source.inside n then return some (← source.mentioned) else return none

/-- The positions of the sources that lie in a component. -/
def linksFrom (sources : List (Option Handle)) (component : List Handle) : List Nat :=
  (List.range sources.length).filter fun e =>
    match sources[e]? with
    | some (some h) => Search.met component h
    | _ => false

/-- The grouping of a graph with `n` nodes. -/
def of (n : Int) (links : List (Ends α)) : Except Fault Grouping := do
  let nodes ← components n links
  let sources ← links.mapM (sourceOf n)
  return { nodes, links := nodes.map (linksFrom sources) }

/-- The grouping of a drawing. -/
def ofDrawing (d : Drawing α) : Except Fault Grouping :=
  of d.nodes.length (d.links.map fun l => (LinkEntry.ready l).ends d.nodes)

/-- The number of components. -/
def count (g : Grouping) : Nat := g.nodes.length

/-- The nodes of a component, ascending. -/
def nodesAt (g : Grouping) (i : Int) : Except Fault (List Handle) :=
  match at? g.nodes i with
  | some c => .ok c
  | none => .error .outOfRange

/-- The links of a component, in link order. -/
def linksAt (g : Grouping) (i : Int) : Except Fault (List Nat) :=
  match at? g.links i with
  | some es => .ok es
  | none => .error .outOfRange

/-- The number of nodes in all components together. -/
def size (g : Grouping) : Nat := (g.nodes.map List.length).sum

/-- The component of a node. -/
def locate (g : Grouping) (node : Int) : Except Fault Nat :=
  match Handle.place? g.size node with
  | some v => .ok (g.nodes.findIdx (Search.met · (Handle.ofNat v)))
  | none => .error .outOfRange

/-- How a grouping is described: the number of components and their sizes. -/
def describe (g : Grouping) : String :=
  let sizes := ", ".intercalate (g.nodes.map fun c => toString c.length)
  s!"ComponentInfo(components={g.count}, sizes=[{sizes}])"

end Grouping

end PackedDrawing
