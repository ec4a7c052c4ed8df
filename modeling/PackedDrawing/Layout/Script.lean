import PackedDrawing.Graph.Drawing
/-!
# Scripts

A script is a list of actions on a drawing, done in order each time it is called. An action may know
the number of calls there were before.
-/

namespace PackedDrawing

/-- One change to a drawing. -/
inductive Action (α : Type) where
  /-- Sets an attribute of each node to `(c₂ * i + c₁) * i + c₀`, where `i` is the node's index. -/
  | polynomial (name : String) (c₀ c₁ c₂ : Value α)
  /-- Takes the positions of the nodes from the list for this call. -/
  | table (positions : List (List (Value α)))
  /-- Moves all nodes. -/
  | shift (dx dy : Value α)
  /-- Gives all links the same bends. -/
  | route (bends : List (Value α))
  | setIndex (position : Int) (v : Value α)
  /-- Sets an attribute of all nodes. -/
  | setAttribute (name : String) (v : Value α)
  | appendNode (entries : List (String × Value α))
  | appendLink (parts : LinkParts α)
  | popNode
  | popLink
  | reverseNodes
  | reverseLinks
  /-- Gives up on the call with this number. -/
  | interrupt (call : Int)

namespace Action

variable {α : Type} [Scalar α]

/-- The value of a polynomial of degree two. -/
def evaluate (c₀ c₁ c₂ i : Value α) : Except Fault (Value α) := do
  let i ← i.number
  let inner ← (← (← c₂.number).mul i).add (← c₁.number)
  return .ofNumber (← (← inner.mul i).add (← c₀.number))

/-- Gives node `i` its position from a list of positions. -/
def lookUp (row : List (Value α)) (i : Nat) (n : Node α) : Except Fault (Node α) := do
  match row[i]? with
  | some p => do
    let (x, y) ← p.pair
    return { n with x, y }
  | none => throw .outOfRange

/-- Gives a link its bends, each of which is a pair. -/
def reroute (bends : List (Value α)) (l : Link α) : Except Fault (Link α) := do
  let bends ← bends.mapM fun b => do
    let (x, y) ← b.pair
    return ⟨x, y⟩
  return { l with bends }

/-- Moves a node by a vector. -/
def shiftNode (dx dy : Value α) (n : Node α) : Except Fault (Node α) := do
  let x ← n.x.add dx
  let y ← n.y.add dy
  return { n with x, y }

/-- Does an action on call number `call`. -/
def apply (call : Nat) (d : Drawing α) : Action α → Except Fault (Drawing α)
  | polynomial name c₀ c₁ c₂ => do
    let nodes ← d.nodes.mapM fun n => do n.assign name (← evaluate c₀ c₁ c₂ n.index)
    return { d with nodes }
  | table positions =>
    match positions[call]? with
    | none => .error .outOfRange
    | some row => do
      let nodes ← (d.nodes.mapIdx fun i n => lookUp row i n).mapM id
      return { d with nodes }
  | shift dx dy => do return { d with nodes := ← d.nodes.mapM (shiftNode dx dy) }
  | route bends => do return { d with links := ← d.links.mapM (reroute bends) }
  | setIndex position v =>
    match Handle.place? d.nodes.length position with
    | some k => .ok (d.updateNode k fun n => { n with index := v })
    | none => .error .outOfRange
  | setAttribute name v => do return { d with nodes := ← d.nodes.mapM (Node.assign name v) }
  | appendNode entries => do return { d with nodes := d.nodes ++ [← Node.ofEntries entries] }
  | appendLink parts => do return { d with links := d.links ++ [← Link.ofParts parts] }
  | popNode =>
    if d.nodes.isEmpty then .error .outOfRange else .ok { d with nodes := d.nodes.dropLast }
  | popLink => .ok { d with links := d.links.dropLast }
  | reverseNodes => .ok { d with nodes := d.nodes.reverse }
  | reverseLinks => .ok { d with links := d.links.reverse }
  | interrupt k => if (call : Int) = k then .error .interrupted else .ok d

end Action

/-- Does the actions of a script in order on call number `call`. -/
def Script.run {α : Type} [Scalar α] (actions : List (Action α)) (call : Nat) (d : Drawing α) :
    Except Fault (Drawing α) :=
  actions.foldlM (Action.apply call) d

end PackedDrawing
