import PackedDrawing.Graph.Link
/-!
# Check

Checks of what users hand over: the ends of links, the target ratio, the border, and the number of
offsets that a packer answers with.

## Main definitions

* `Check.linkIssues`: all complaints about the ends of links, source before target.
* `Check.links`: the same as a fault if there are any.
* `Check.targetRatio`, `Check.border`: settings made a scalar and a whole number.
-/

namespace PackedDrawing.Check

variable {α : Type} [Scalar α]

/-- What is wrong with an end that mentions `handle?` in a graph of `count` nodes. -/
def endProblem (count : Int) : Option Handle → Option EndProblem
  | none => some .missing
  | some h => if h.position < 0 ∨ count ≤ h.position then some (.outside h count) else none

/-- The position that one end of an entry mentions, as far as it mentions one. -/
def mentioned (nodes : List (Node α)) (side : LinkEnd) (l : LinkEntry α) :
    Except Fault (Option Handle) :=
  match l.endpoint? side with
  | some e => (e.mention nodes).checked
  | none => .ok none

/-- The complaints about one link. -/
def issuesOf (nodes : List (Node α)) (count : Int) (position : Nat) (l : LinkEntry α) :
    Except Fault (List LinkIssue) := do
  let source ← mentioned nodes .source l
  let target ← mentioned nodes .target l
  let complaint (side : LinkEnd) (h : Option Handle) : Option LinkIssue :=
    (endProblem count h).map (⟨position, side, ·⟩)
  return (complaint .source source).toList ++ (complaint .target target).toList

/-- The complaints about the links from a position on. -/
def linkIssuesFrom (nodes : List (Node α)) (count : Int) :
    Nat → List (LinkEntry α) → Except Fault (List LinkIssue)
  | _, [] => .ok []
  | position, l :: rest => do
    let here ← issuesOf nodes count position l
    return here ++ (← linkIssuesFrom nodes count (position + 1) rest)

/-- All complaints about links in a graph of `count` nodes. -/
def linkIssues (nodes : List (Node α)) (count : Int) (links : List (LinkEntry α)) :
    Except Fault (List LinkIssue) :=
  linkIssuesFrom nodes count 0 links

/-- Fails if there is any complaint about the links. -/
def links (nodes : List (Node α)) (count : Int) (links : List (LinkEntry α)) :
    Except Fault Unit := do
  let issues ← linkIssues nodes count links
  if issues.isEmpty then return () else throw (.invalidLinks issues)

/-- A target ratio as a scalar: finite and not below zero. -/
def targetRatio [Written α] (v : Value α) : Except Fault α := do
  let ratio ← v.toReal
  if !Scalar.isFinite ratio || Scalar.lt ratio 0.0 then throw (.invalidRatio v.shown)
  return ratio

/-- A border as a whole number: without a fraction and not below zero. -/
def border [Written α] (v : Value α) : Except Fault Int := do
  match v with
  | .real r => if !Scalar.isWhole r then throw (.fractionalBorder v.shown)
  | _ => pure ()
  let n ← v.toWhole
  if n < 0 then throw (.negativeBorder v.shown)
  return n

/-- Fails if a packer's answer does not have one offset for each box. -/
def offsets (offsets : Nat) (boxes : Int) : Except Fault Unit :=
  if (offsets : Int) = boxes then .ok () else .error (.offsetCount offsets boxes)

end PackedDrawing.Check
