import PackedDrawing.Handle
/-!
# Causes of failure

Every operation of the library that can fail says why with a `Fault`. The constructors are causes;
the wording, where a cause has one, is in `Fault.message` alone.
-/

namespace PackedDrawing

/-- The two ends of a link. -/
inductive LinkEnd where
  | source
  | target
  deriving DecidableEq, Repr

/-- The name of a link's end. -/
def LinkEnd.text : LinkEnd → String
  | source => "source"
  | target => "target"

/-- What can be wrong with one end of a link: it is missing, or it mentions a node that a graph of
`count` nodes does not have. -/
inductive EndProblem where
  | missing
  | outside (handle : Handle) (count : Int)
  deriving DecidableEq, Repr

/-- One complaint about one end of the link at a position. -/
structure LinkIssue where
  link : Nat
  side : LinkEnd
  problem : EndProblem
  deriving DecidableEq, Repr

/-- The sentence for one complaint. -/
def LinkIssue.text (i : LinkIssue) : String :=
  match i.problem with
  | .missing => s!"Link {i.link}: {i.side.text} is None"
  | .outside handle count =>
    s!"Link {i.link}: {i.side.text} index {handle.text} out of bounds [0, {count})"

/-- Why an operation failed. -/
inductive Fault where
  /-- The entry at this position is no node at all. -/
  | missingNode (position : Nat)
  /-- Some links have ends that the graph does not have. -/
  | invalidLinks (issues : List LinkIssue)
  /-- A target ratio that is negative or not finite. -/
  | invalidRatio (shown : String)
  /-- A border that is not whole. -/
  | fractionalBorder (shown : String)
  /-- A border below zero. -/
  | negativeBorder (shown : String)
  /-- A packer answered with a number of offsets other than the number of boxes. -/
  | offsetCount (offsets : Nat) (boxes : Int)
  /-- A link without a source. -/
  | sourceMissing
  /-- A link without a target. -/
  | targetMissing
  /-- A component without any point has no centre. -/
  | noPoints
  /-- A secondary layout gave up by its own decision. -/
  | interrupted
  /-- A value of a kind that the operation does not take. -/
  | typeMismatch
  /-- A value of the right kind whose content the operation cannot use. -/
  | badValue
  /-- A name that a table does not hold. -/
  | missingKey
  /-- A position that a list does not have. -/
  | outOfRange
  /-- A thing without the attribute that is read. -/
  | missingAttribute
  | divisionByZero
  /-- A number too large for a coordinate. -/
  | overflow
  deriving DecidableEq, Repr, Inhabited

/-- The wording of a fault, for those that have one. -/
def Fault.message : Fault → Option String
  | missingNode position => some s!"Node {position} is None"
  | invalidLinks issues =>
    some ("Invalid link indices:\n" ++ "\n".intercalate (issues.map LinkIssue.text))
  | invalidRatio shown => some s!"target ratio must be >= 0 and finite, got {shown}"
  | fractionalBorder shown => some s!"border must be an integer, got {shown}"
  | negativeBorder shown => some s!"border must be >= 0, got {shown}"
  | offsetCount offsets boxes =>
    some s!"Packer returned {offsets} offset(s) for {boxes} box(es)"
  | sourceMissing => some "Link source cannot be None"
  | targetMissing => some "Link target cannot be None"
  | noPoints => some "cannot center a component without points"
  | interrupted => some "boom"
  | typeMismatch | badValue | missingKey | outOfRange | missingAttribute | divisionByZero
  | overflow => none

end PackedDrawing
