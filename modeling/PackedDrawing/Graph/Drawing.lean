import PackedDrawing.Graph.Check
/-!
# Drawings

A drawing is a list of nodes and a list of links between them. Nodes and links are taken in entry by
entry.

## Main definitions

* `Drawing`: nodes and the links between them.
* `NodeRef`, `Drawing.node?`: the nodes that a drawing knows, which are its own and the guests at
  which its links end.
* `Arrival`: the forms in which the nodes of a drawing are replaced.
* `Drawing.receive`, `Drawing.setLinks`: replace the nodes and the links.

## Implementation notes

Taking in a list stops at the first entry that is no node or link. What was taken in before stays:
the functions return the entries up to the fault together with it.

When the nodes are replaced, the ends of links go on being the nodes that they were. A node that is
among the new ones is a member at its new position; one that is not becomes a guest under a name
that was not in use, and may come back as one. If a node arrives more than once, each time makes a
member of its own, and the ends of links are the first of them.
-/

namespace PackedDrawing

/-- Nodes and the links between them. -/
structure Drawing (α : Type) where
  nodes : List (Node α) := []
  links : List (Link α) := []
  deriving Inhabited

/-- Takes items in one after another: those in front of the first fault, and the fault. -/
def takeIn {β γ : Type} (f : Nat → β → Except Fault γ) : Nat → List β → List γ × Option Fault
  | _, [] => ([], none)
  | i, x :: rest =>
    match f i x with
    | .error e => ([], some e)
    | .ok y =>
      let (ys, e) := takeIn f (i + 1) rest
      (y :: ys, e)

/-- A node that a drawing knows: one of its own by its position, or a guest by its name. -/
inductive NodeRef where
  | own (position : Nat)
  | guest (name : Nat)
  deriving DecidableEq

/-- What is put among the nodes of a drawing: an entry, of which a node is made, or a node that the
drawing knows already. -/
inductive Arrival (α : Type) where
  | entry (e : NodeEntry α)
  | known (who : NodeRef)

namespace Endpoint

variable {α : Type}

/-- Which node an end is, if it is one. -/
def ref? : Endpoint α → Option NodeRef
  | value _ => none
  | member k => some (.own k)
  | guest name _ => some (.guest name)

/-- The guest under a name, if it is at this end. -/
def guest? (name : Nat) : Endpoint α → Option (Node α)
  | guest other n => if other = name then some n else none
  | value _ | member _ => none

/-- The least number above the name of the guest at this end. -/
def nameBound : Endpoint α → Nat
  | guest name _ => name + 1
  | value _ | member _ => 0

/-- The node at an end, if it is one. -/
def held? (nodes : List (Node α)) : Endpoint α → Option (Node α)
  | value _ => none
  | member k => nodes[k]?
  | guest _ n => some n

/-- The end that is a node. -/
def ofRef (n : Node α) : NodeRef → Endpoint α
  | .own k => member k
  | .guest name => guest name n

/-- The same end once the nodes have been replaced, where `f` tells which node has become which. -/
def follow (nodes : List (Node α)) (f : NodeRef → NodeRef) (e : Endpoint α) : Endpoint α :=
  match e.ref?, e.held? nodes with
  | none, _ => e
  | some who, some n => ofRef n (f who)
  -- it was no node, and must not become one
  | some _, none => value (.thing none)

end Endpoint

/-- The same link once the nodes have been replaced. -/
def Link.follow {α : Type} (nodes : List (Node α)) (f : NodeRef → NodeRef) (l : Link α) : Link α :=
  { l with source := l.source.follow nodes f, target := l.target.follow nodes f }

namespace Drawing

variable {α : Type}

/-- The ends of all links. -/
def endpoints (d : Drawing α) : List (Endpoint α) := d.links.flatMap fun l => [l.source, l.target]

/-- A known node. -/
def node? (d : Drawing α) : NodeRef → Option (Node α)
  | .own k => d.nodes[k]?
  | .guest name => d.endpoints.findSome? (Endpoint.guest? name)

/-- A number above the names of all guests. -/
def freshName (d : Drawing α) : Nat := d.endpoints.foldr (fun e m => max e.nameBound m) 0

/-- Gives each node without an index its position as one. -/
def numberNodes (d : Drawing α) : Drawing α :=
  { d with nodes := d.nodes.mapIdx fun i n =>
      match n.index with
      | .null => { n with index := .int i }
      | _ => n }

/-- Changes the node at a position. -/
def updateNode (k : Nat) (f : Node α → Node α) (d : Drawing α) : Drawing α :=
  { d with nodes := d.nodes.modify k f }

/-- Changes the link at a position. -/
def updateLink (k : Nat) (f : Link α → Link α) (d : Drawing α) : Drawing α :=
  { d with links := d.links.modify k f }

@[simp] theorem length_nodes_updateNode (k : Nat) (f : Node α → Node α) (d : Drawing α) :
    (d.updateNode k f).nodes.length = d.nodes.length := by
  simp [updateNode]

@[simp] theorem links_updateNode (k : Nat) (f : Node α → Node α) (d : Drawing α) :
    (d.updateNode k f).links = d.links := rfl

@[simp] theorem nodes_updateLink (k : Nat) (f : Link α → Link α) (d : Drawing α) :
    (d.updateLink k f).nodes = d.nodes := rfl

@[simp] theorem length_links_updateLink (k : Nat) (f : Link α → Link α) (d : Drawing α) :
    (d.updateLink k f).links.length = d.links.length := by
  simp [updateLink]

@[simp] theorem length_nodes_numberNodes (d : Drawing α) :
    d.numberNodes.nodes.length = d.nodes.length := by
  simp [numberNodes]

end Drawing

namespace Arrival

variable {α : Type}

/-- Whether an arrival is a known node. -/
def is (who : NodeRef) : Arrival α → Bool
  | entry _ => false
  | known other => other == who

/-- Takes in the node at a position of a drawing. -/
def toNode [Scalar α] (d : Drawing α) (position : Nat) : Arrival α → Except Fault (Node α)
  | entry e => e.toNode position
  | known who =>
    match d.node? who with
    | some n => .ok n
    | none => .error (.missingNode position)

end Arrival

namespace Drawing

variable {α : Type} [Scalar α]

/-- The guest that a known node is when it is not among the nodes any more. -/
def departed (d : Drawing α) : NodeRef → NodeRef
  | .own k => .guest (d.freshName + k)
  | .guest name => .guest name

/-- Which node a known one is after some arrivals: the first of them that it is, or else a guest. -/
def whereabouts (arrivals : List (Arrival α)) (d : Drawing α) (who : NodeRef) : NodeRef :=
  match arrivals.findIdx? (Arrival.is who) with
  | some j => .own j
  | none => d.departed who

/-- The drawing with the nodes that have come of arrivals. -/
def among (nodes : List (Node α)) (arrivals : List (Arrival α)) (d : Drawing α) : Drawing α :=
  { nodes, links := d.links.map (Link.follow d.nodes (d.whereabouts arrivals)) }

/-- Replaces the nodes. -/
def receive (arrivals : List (Arrival α)) (d : Drawing α) : Drawing α × Option Fault :=
  let (nodes, e) := takeIn (Arrival.toNode d) 0 arrivals
  (d.among nodes (arrivals.take nodes.length), e)

/-- Replaces the nodes by new ones. -/
def setNodes (entries : List (NodeEntry α)) (d : Drawing α) : Drawing α × Option Fault :=
  d.receive (entries.map .entry)

/-- Replaces the links. -/
def setLinks (entries : List (LinkEntry α)) (d : Drawing α) : Drawing α × Option Fault :=
  let (links, e) := takeIn (fun _ => LinkEntry.toLink) 0 entries
  ({ d with links }, e)

/-- Fails if a link has an end that the drawing does not have. -/
def validate (d : Drawing α) : Except Fault Unit :=
  if d.links.isEmpty then .ok ()
  else Check.links d.nodes d.nodes.length (d.links.map .ready)

end Drawing

end PackedDrawing
