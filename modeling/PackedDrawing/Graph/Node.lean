import PackedDrawing.Value.Text
/-!
# Nodes

A node has an index, a position and a size, and any further attributes under names of their own. A
position or size may be any value until something is computed from it.

## Main definitions

* `Node.ofEntries`: a node from named values.
* `Node.get?`, `Node.set`: an attribute by its name.
* `NodeEntry`: the forms in which nodes are handed over, and `NodeEntry.toNode` to take them in.
-/

namespace PackedDrawing

/-- Named values, at most one for each name. -/
abbrev Attributes (α : Type) := List (String × Value α)

namespace Attributes

variable {α : Type}

/-- The value under a name. -/
def get? (as : Attributes α) (name : String) : Option (Value α) := as.lookup name

/-- Puts a value under a name, in place of the one already there. -/
def put (name : String) (v : Value α) : Attributes α → Attributes α
  | [] => [(name, v)]
  | (n, w) :: rest => if n = name then (n, v) :: rest else (n, w) :: put name v rest

/-- Puts several values under their names, one after another. -/
def putAll (as : Attributes α) (entries : List (String × Value α)) : Attributes α :=
  entries.foldl (fun acc e => put e.1 e.2 acc) as

theorem get?_put (name : String) (v : Value α) (as : Attributes α) :
    (put name v as).get? name = some v := by
  induction as with
  | nil => simp [put, get?]
  | cons e rest ih =>
    obtain ⟨n, w⟩ := e
    by_cases h : n = name
    · simp [put, get?, h]
    · simpa [put, get?, h, List.lookup_cons, beq_eq_false_iff_ne.2 (Ne.symm h)] using ih

theorem get?_put_of_ne {name other : String} (h : other ≠ name) (v : Value α)
    (as : Attributes α) : (put name v as).get? other = as.get? other := by
  induction as with
  | nil => simp [put, get?, List.lookup_cons, beq_eq_false_iff_ne.2 h]
  | cons e rest ih =>
    obtain ⟨n, w⟩ := e
    simp only [get?] at ih
    by_cases hn : n = name
    · subst hn
      simp [put, get?, List.lookup_cons, beq_eq_false_iff_ne.2 h]
    · simp only [put, get?, if_neg hn, List.lookup_cons, ih]

end Attributes

/-- Names that stand for something else on every node and link, so that no attribute is kept under
them when one is made. -/
def takenNames : List String :=
  ["__class__", "__delattr__", "__dict__", "__dir__", "__doc__", "__eq__", "__format__", "__ge__",
    "__getattribute__", "__getstate__", "__gt__", "__hash__", "__init__", "__init_subclass__",
    "__le__", "__lt__", "__module__", "__ne__", "__new__", "__reduce__", "__reduce_ex__",
    "__repr__", "__setattr__", "__sizeof__", "__str__", "__subclasshook__", "__weakref__"]

/-- The taken names under which all nodes have the same text. -/
def sharedTexts : List String := ["__doc__", "__module__"]

namespace Attributes

variable {α : Type}

/-- The attributes that a node or link can be made with: those under taken names are left out, and
nothing can be made with an attribute named for the node or link itself. -/
def admitted (as : List (String × Value α)) : Except Fault (List (String × Value α)) :=
  if as.any (·.1 == "self") then .error .typeMismatch
  else .ok (as.filter fun e => !takenNames.contains e.1)

end Attributes

/-- A node of a drawing. -/
structure Node (α : Type) where
  index : Value α
  x : Value α
  y : Value α
  z : Value α
  width : Value α
  height : Value α
  extras : Attributes α
  deriving Inhabited

namespace Node

variable {α : Type}

/-- What a node has under a taken name to which no value was given: a text, or nothing that could be
compared. -/
def inherent? (name : String) : Option (Value α) :=
  if sharedTexts.contains name then some (.text "")
  else if takenNames.contains name then some (.thing none)
  else none

/-- An attribute by its name. -/
def get? (n : Node α) (name : String) : Option (Value α) :=
  match name with
  | "index" => some n.index
  | "x" => some n.x
  | "y" => some n.y
  | "z" => some n.z
  | "width" => some n.width
  | "height" => some n.height
  | _ => (n.extras.get? name).or (inherent? name)

/-- Gives an attribute a value. -/
def set (name : String) (v : Value α) (n : Node α) : Node α :=
  match name with
  | "index" => { n with index := v }
  | "x" => { n with x := v }
  | "y" => { n with y := v }
  | "z" => { n with z := v }
  | "width" => { n with width := v }
  | "height" => { n with height := v }
  | _ => { n with extras := n.extras.put name v }

/-- Gives an attribute a value, unless its name stands for the node's kind or for the place where
its attributes are kept. -/
def assign (name : String) (v : Value α) (n : Node α) : Except Fault (Node α) :=
  match name with
  | "__class__" | "__dict__" => .error .typeMismatch
  | "__weakref__" => .error .missingAttribute
  | _ => .ok (n.set name v)

/-- Gives several attributes their values until one of them fails. -/
def assignAll (n : Node α) : List (String × Value α) → Except Fault Unit × Node α
  | [] => (.ok (), n)
  | e :: rest =>
    match n.assign e.1 e.2 with
    | .ok m => m.assignAll rest
    | .error f => (.error f, n)

/-- Gives several attributes their values, one after another. -/
def setAll (n : Node α) (entries : List (String × Value α)) : Node α :=
  entries.foldl (fun m e => m.set e.1 e.2) n

/-- A node at the origin without an index or a size. -/
def blank [OfScientific α] : Node α :=
  { index := .null, x := .real 0.0, y := .real 0.0, z := .real 0.0
    width := .null, height := .null, extras := [] }

/-- A node with the given attributes. -/
def ofEntries [OfScientific α] (entries : List (String × Value α)) : Except Fault (Node α) := do
  return blank.setAll (← Attributes.admitted entries)

/-- The same node at another position. -/
def moveTo (n : Node α) (x y : α) : Node α := { n with x := .real x, y := .real y }

/-- How a node is described: its index and its position with two places. -/
def describe [Scalar α] [Written α] (n : Node α) : Except Fault String := do
  let x ← n.x.fixed 2
  let y ← n.y.fixed 2
  return s!"Node(index={n.index.shown}, x={x}, y={y})"

end Node

/-- The forms in which a node is handed over. -/
inductive NodeEntry (α : Type) where
  /-- A node. -/
  | ready (n : Node α)
  /-- Named values. -/
  | table (entries : List (String × Value α))
  /-- A thing of another kind with these attributes. -/
  | thing (attributes : List (String × Value α))
  /-- Nothing at all. -/
  | nothing

namespace NodeEntry

variable {α : Type}

/-- The names of the attributes that every node has. -/
def fieldNames : List String := ["index", "x", "y", "z", "width", "height"]

/-- Takes in the node at a position. Of a thing of another kind only index, position and size
count. -/
def toNode [OfScientific α] (position : Nat) : NodeEntry α → Except Fault (Node α)
  | ready n => .ok n
  | table entries => Node.ofEntries entries
  | thing attributes =>
    .ok (Node.blank.setAll (attributes.filter fun e => fieldNames.contains e.1))
  | nothing => .error (.missingNode position)

/-- An entry as it is, not taken in: a thing of another kind keeps all its attributes, and what it
lacks is blank. -/
def asNode [OfScientific α] : NodeEntry α → Except Fault (Node α)
  | ready n => .ok n
  | table entries => Node.ofEntries entries
  | thing attributes => .ok (Node.blank.setAll attributes)
  | nothing => .ok Node.blank

/-- An attribute of an entry as it is. A thing of another kind may lack it. -/
def read [OfScientific α] (e : NodeEntry α) (name : String) : Except Fault (Value α) := do
  let v? ← match e with
    | ready n => pure (n.get? name)
    | table entries => do pure ((← Node.ofEntries entries).get? name)
    | thing attributes => pure (attributes.lookup name)
    | nothing => pure none
  match v? with
  | some v => return v
  | none => throw .missingAttribute

@[simp] theorem toNode_ready [OfScientific α] (position : Nat) (n : Node α) :
    (ready n).toNode position = .ok n := rfl

@[simp] theorem asNode_ready [OfScientific α] (n : Node α) : (ready n).asNode = .ok n := rfl

end NodeEntry

end PackedDrawing
