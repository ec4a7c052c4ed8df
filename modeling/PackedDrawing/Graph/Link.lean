import PackedDrawing.Plane.Point
import PackedDrawing.Graph.Node
/-!
# Links

A link joins its source to its target and may be routed through bends. An end of a link is any
value, or a node. A node that is a member of the drawing is meant by its position there, and the end
follows its index wherever it changes; any other node is a guest, which stays what it is.

## Main definitions

* `Endpoint`, `Mention`: an end of a link, and what it says about the node it means.
* `Link.make`: a link from its parts, with bends turned into points of scalars.
* `LinkEntry`: the forms in which links are handed over, and `LinkEntry.toLink` to take them in.

## Implementation notes

Ends are read in three ways, which agree on whole numbers. `Mention.checked` is the reading of
validation, `Mention.located` that of the search for components, and `Mention.counted` that of
degrees.
-/

namespace PackedDrawing

/-- An end of a link. -/
inductive Endpoint (α : Type) where
  | value (v : Value α)
  /-- The drawing's own node at a position. -/
  | member (position : Nat)
  /-- A node that is none of the drawing's own. Its name tells it from other guests. -/
  | guest (name : Nat) (node : Node α)
  deriving Inhabited

/-- What an end of a link says about its node. -/
inductive Mention (α : Type) where
  /-- The node's position. -/
  | whole (h : Handle)
  /-- The index that a thing carries. -/
  | index (v : Value α)
  /-- A thing whose index is not set. -/
  | unset
  /-- A thing without an index. -/
  | bare
  /-- A text or a list, in which an index is something else. -/
  | foreign
  deriving Inhabited

namespace Mention

variable {α : Type}

/-- The mention by a thing with a given index. -/
def ofIndex : Value α → Mention α
  | .null => unset
  | v => index v

/-- The mention by a value. -/
def ofValue : Value α → Mention α
  | .int n => whole ⟨n, false⟩
  | .bool b => whole (.ofBool b)
  | .thing (some v) => ofIndex v
  | .text _ | .list _ => foreign
  | .thing none | .real _ | .null | .table _ => bare

/-- The mentioned position as validation reads it: an index is made whole, and a mention without an
index is a missing one. -/
def checked [Scalar α] : Mention α → Except Fault (Option Handle)
  | whole h => .ok (some h)
  | index v => do return some ⟨← v.toWhole, false⟩
  | unset | bare => .ok none
  | foreign => .error .typeMismatch

/-- The mentioned position as the search for components reads it: an index is taken as it is, and a
mention without an index lies outside every graph. -/
def located : Mention α → Value α
  | whole h => .ofHandle h
  | index v => v
  | unset | bare => .int (-1)
  | foreign => .thing none

/-- The mentioned position as degrees are counted: an index that is not set counts for the first
node, and there has to be one. -/
def counted : Mention α → Except Fault (Value α)
  | whole h => .ok (.ofHandle h)
  | index v => .ok v
  | unset => .ok (.int 0)
  | bare => .error .missingAttribute
  | foreign => .ok (.thing none)

end Mention

namespace Endpoint

variable {α : Type}

/-- What an end says about its node in a drawing with the given nodes. -/
def mention (nodes : List (Node α)) : Endpoint α → Mention α
  | value v => .ofValue v
  | member k =>
    match nodes[k]? with
    | some n => .ofIndex n.index
    | none => .bare
  | guest _ n => .ofIndex n.index

/-- The end as a value of its own, with the index that it has in a drawing with the given nodes. -/
def detach (nodes : List (Node α)) : Endpoint α → Value α
  | value v => v
  | member k => .thing (nodes[k]?.map (·.index))
  | guest _ n => .thing (some n.index)

/-- How an end is described: the position, or the index of a thing if it has one. -/
def describe [Written α] (nodes : List (Node α)) (e : Endpoint α) : String :=
  match e.mention nodes with
  | .whole h => h.text
  | .index v => v.shown
  | .unset | .bare | .foreign => "None"

end Endpoint

/-- A link of a drawing. -/
structure Link (α : Type) where
  source : Endpoint α
  target : Endpoint α
  length : Value α
  weight : Value α
  bends : List (Point (Value α))
  extras : Attributes α
  deriving Inhabited

/-- The parts of a link as they are handed over, each of which may be left out. -/
structure LinkParts (α : Type) where
  source : Option (Endpoint α) := none
  target : Option (Endpoint α) := none
  length : Option (Value α) := none
  weight : Option (Value α) := none
  bends : Option (Value α) := none
  extras : Attributes α := []
  deriving Inhabited

namespace Link

variable {α : Type}

/-- The bends of a link: pairs of coordinates, each of them made a scalar. -/
def readBends [Scalar α] (v : Value α) : Except Fault (List (Point (Value α))) :=
  if v.holds then do
    (← v.items).mapM fun item => do
      let (x, y) ← item.pair
      let x ← x.toReal
      let y ← y.toReal
      return ⟨.real x, .real y⟩
  else .ok []

/-- Whether an end is nothing at all. -/
def isNothing : Endpoint α → Bool
  | .value .null => true
  | _ => false

/-- A link from its parts. Both ends must be something. -/
def make [Scalar α] (source target : Endpoint α) (parts : LinkParts α) :
    Except Fault (Link α) := do
  if isNothing source then throw .sourceMissing
  if isNothing target then throw .targetMissing
  let bends ← readBends (parts.bends.getD .null)
  return { source, target, bends
           length := parts.length.getD .null
           weight := parts.weight.getD .null
           extras := parts.extras }

/-- A link from its parts, among which both ends have to be. -/
def ofParts [Scalar α] (parts : LinkParts α) : Except Fault (Link α) := do
  let extras ← Attributes.admitted parts.extras
  match parts.source, parts.target with
  | some source, some target => make source target { parts with extras }
  | _, _ => throw .typeMismatch

/-- How a link is described: its ends, and the number of its bends if there are any. -/
def describe [Written α] (nodes : List (Node α)) (l : Link α) : String :=
  let ends := l.source.describe nodes ++ " -> " ++ l.target.describe nodes
  if l.bends.isEmpty then s!"Link({ends})" else s!"Link({ends}, bends={l.bends.length})"

end Link

namespace NodeEntry

variable {α : Type}

/-- The end that means the entry at a position, among entries that make up a drawing as they are. -/
def endpoint (position : Nat) : NodeEntry α → Endpoint α
  | nothing => .value .null
  | _ => .member position

/-- The end that means the entry at a position, among entries that a drawing takes in. A node
becomes the drawing's own node; any other entry stays what it is. -/
def endpointTaken (position : Nat) : NodeEntry α → Endpoint α
  | ready _ => .member position
  | table entries => .value (.table entries)
  | thing attributes => .value (.thing (attributes.lookup "index"))
  | nothing => .value .null

end NodeEntry

/-- The forms in which a link is handed over. -/
inductive LinkEntry (α : Type) where
  /-- A link. -/
  | ready (l : Link α)
  /-- Named parts. -/
  | table (parts : LinkParts α)
  /-- A thing of another kind with these parts. -/
  | thing (parts : LinkParts α)

namespace LinkEntry

variable {α : Type}

/-- Takes in a link. The ends that a thing of another kind leaves out are the first node, and its
further attributes do not count. -/
def toLink [Scalar α] : LinkEntry α → Except Fault (Link α)
  | ready l => .ok l
  | table parts => Link.ofParts parts
  | thing parts =>
    Link.make (parts.source.getD (.value (.int 0))) (parts.target.getD (.value (.int 0)))
      { parts with extras := [] }

/-- The bends of an entry as it is, not taken in: pairs of any values. A thing of another kind may
lack them. -/
def route [Scalar α] : LinkEntry α → Except Fault (List (Point (Value α)))
  | ready l => .ok l.bends
  | table parts => Link.bends <$> Link.ofParts parts
  | thing parts =>
    match parts.bends with
    | none => .error .missingAttribute
    | some v => do
      (← v.items).mapM fun item => do
        let (x, y) ← item.pair
        return ⟨x, y⟩

/-- An entry as it is, not taken in: a thing of another kind keeps all its parts, and what it lacks
is nothing at all. -/
def asLink [Scalar α] : LinkEntry α → Except Fault (Link α)
  | ready l => .ok l
  | table parts => Link.ofParts parts
  | thing parts =>
    return { bends := (thing parts).route.toOption.getD []
             source := parts.source.getD (.value .null)
             target := parts.target.getD (.value .null)
             length := parts.length.getD .null
             weight := parts.weight.getD .null
             extras := parts.extras }

/-- Whether an entry has a part; a thing of another kind may lack it. -/
def has (name : String) : LinkEntry α → Bool
  | ready _ | table _ => true
  | thing parts =>
    match name with
    | "source" => parts.source.isSome
    | "target" => parts.target.isSome
    | "length" => parts.length.isSome
    | "weight" => parts.weight.isSome
    | "bends" => parts.bends.isSome
    | _ => (parts.extras.get? name).isSome

@[simp] theorem asLink_ready [Scalar α] (l : Link α) : (ready l).asLink = .ok l := rfl

@[simp] theorem route_ready [Scalar α] (l : Link α) : (ready l).route = .ok l.bends := rfl

/-- The end that an entry holds at one side, if it holds any. -/
def endpoint? (side : LinkEnd) : LinkEntry α → Option (Endpoint α)
  | ready l => some (match side with | .source => l.source | .target => l.target)
  | table parts | thing parts =>
    match side with
    | .source => parts.source
    | .target => parts.target

end LinkEntry

end PackedDrawing
