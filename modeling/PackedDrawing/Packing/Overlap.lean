import PackedDrawing.Packing.Rows
/-!
# Overlap and density of packings

Two boxes overlap when they share more than an edge. The density of a packing is the share of its
bounding rectangle that the boxes cover.
-/

namespace PackedDrawing

namespace Packing

-- the empty sum as the core library has it, whatever else is in scope
attribute [local instance (high)] Zero.ofOfNat0

/-- Whether two boxes at their offsets overlap. -/
def overlap (offsetA : Offset) (boxA : Box) (offsetB : Offset) (boxB : Box) : Bool :=
  offsetA.x < offsetB.x + boxB.x && offsetB.x < offsetA.x + boxA.x
    && offsetA.y < offsetB.y + boxB.y && offsetB.y < offsetA.y + boxA.y

theorem overlap_comm (o p : Offset) (b c : Box) : overlap o b p c = overlap p c o b := by
  rw [Bool.eq_iff_iff]
  simp only [overlap, Bool.and_eq_true, decide_eq_true_eq]
  omega

/-- The number of boxes behind a box that overlap it. Every box has to have an offset. -/
def overlapsWith (offset : Offset) (box : Box) : List Offset → List Box → Except Fault Nat
  | _, [] => .ok 0
  | [], _ :: _ => .error .outOfRange
  | o :: os, b :: bs => do
    let n ← overlapsWith offset box os bs
    return (if overlap offset box o b then 1 else 0) + n

/-- The number of overlapping pairs of boxes. The offset of a box is looked at when there is another
box to compare it with. -/
def countOverlaps : List Offset → List Box → Except Fault Nat
  | _, [] => .ok 0
  | _, [_] => .ok 0
  | [], _ :: _ :: _ => .error .outOfRange
  | o :: os, b :: bs => do
    let n ← overlapsWith o b os bs
    return n + (← countOverlaps os bs)

/-- The extent from the least offset to the farthest end of a box; there has to be a box with an
offset. -/
def span (start size : Point Int → Int) (offsets : List Offset) (boxes : List Box) :
    Except Fault Int :=
  match offsets, boxes with
  | o :: os, b :: bs =>
    let far := (os.zip bs).foldl (fun m p => max m (start p.1 + size p.2)) (start o + size b)
    let near := os.foldl (fun m p => min m (start p)) (start o)
    .ok (far - near)
  | _, _ => .error .badValue

/-- The area of all boxes together. -/
def boxArea (boxes : List Box) : Int := (boxes.map fun b => b.x * b.y).sum

/-- The share of the bounding rectangle that boxes cover; zero for no boxes and for a rectangle
without area. -/
def density {α : Type} [Scalar α] (offsets : List Offset) (boxes : List Box) :
    Except Fault α := do
  if boxes.isEmpty then return 0.0
  let width ← span Point.x Point.x offsets boxes
  let height ← span Point.y Point.y offsets boxes
  if width ≤ 0 ∨ height ≤ 0 then return 0.0
  Scalar.ofQuotient (boxArea boxes) (width * height)

/-- All pairs of numbers of boxes at an offset that overlap, in both directions. -/
def overlappingPairs (offsets : List Offset) (boxes : List Box) : List (Nat × Nat) :=
  let placed := (offsets.zip boxes).mapIdx fun i p => (i, p)
  placed.flatMap fun a =>
    (placed.filter fun b => a.1 != b.1 && overlap a.2.1 a.2.2 b.2.1 b.2.2).map
      fun b => (a.1, b.1)

end Packing

end PackedDrawing
