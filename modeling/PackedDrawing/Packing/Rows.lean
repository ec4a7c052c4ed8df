import PackedDrawing.Plane.Point
/-!
# Packing boxes into rows

Boxes are taken from the tallest to the smallest, and each is put at the end of a row, or into a new
row below the others. It goes where the whole packing, stretched to the target ratio, stays
smallest.

## Main definitions

* `Packing.cost`: the area of the smallest rectangle of the target ratio around a packing.
* `Packing.bestRow`: the row that a box goes to.
* `Packing.offsets`: where the boxes of finished rows lie.
* `Packing.rows`: the packing.

## Implementation notes

Extents are whole numbers and added exactly. For ratio zero only the width counts, and the cost is a
whole number. A new row wins every tie, and otherwise the highest of the best rows.
-/

namespace PackedDrawing

/-- The extents of a box: its width and its height. -/
abbrev Box := Point Int

/-- Where the top left corner of a box lies. -/
abbrev Offset := Point Int

namespace Packing

-- the empty sum as the core library has it, whatever else is in scope
attribute [local instance (high)] Zero.ofOfNat0

/-- A row of boxes, filled from left to right. -/
structure Row where
  width : Int := 0
  height : Int := 0
  boxes : List Nat := []
  deriving DecidableEq, Repr, Inhabited

namespace Row

/-- A row with one more box. -/
def push (r : Row) (i : Nat) (box : Box) : Row :=
  { width := r.width + box.x, height := max r.height box.y, boxes := r.boxes ++ [i] }

end Row

section Choice

variable {α : Type} [Scalar α]

/-- The area of the smallest rectangle of a ratio around a packing of a width and a height. -/
def cost (ratio : α) (width height : Int) : Except Fault (Number α) := do
  if Scalar.eq ratio 0.0 then return .int (width * width)
  let wide ← Scalar.ofInt (width * width)
  let h ← Scalar.ofInt height
  return .real (Scalar.larger (wide / ratio) (ratio * h * h))

/-- The width of the widest row. -/
def totalWidth : List Row → Int
  | [] => 0
  | r :: rest => rest.foldl (fun w s => max w s.width) r.width

/-- The height of all rows together. -/
def totalHeight (rows : List Row) : Int := (rows.map Row.height).sum

/-- The cost of the packing once a box is put into a row. -/
def costIn (ratio : α) (rows : List Row) (box : Box) (row : Row) : Except Fault (Number α) :=
  cost ratio (max (totalWidth rows) (row.width + box.x))
    (totalHeight rows - row.height + max row.height box.y)

/-- The better of the best row so far with its cost, and the rows from number `i` on. -/
def improve (ratio : α) (rows : List Row) (box : Box) :
    Nat → List Row → Nat × Number α → Except Fault (Nat × Number α)
  | _, [], best => .ok best
  | i, row :: rest, best => do
    let c ← costIn ratio rows box row
    improve ratio rows box (i + 1) rest (if c.lt best.2 then (i, c) else best)

/-- The number of the row that a box goes to; the number after the last one is a new row. -/
def bestRow (ratio : α) (rows : List Row) (box : Box) : Except Fault Nat := do
  let fresh ← cost ratio (max (totalWidth rows) box.x) (totalHeight rows + box.y)
  return (← improve ratio rows box 0 rows (rows.length, fresh)).1

/-- Puts a box at the end of the row with a number, or into a new one. -/
def putInto (rows : List Row) (k i : Nat) (box : Box) : List Row :=
  if k < rows.length then rows.modify k (·.push i box) else rows ++ [({} : Row).push i box]

/-- Puts boxes into rows, one after another. -/
def fill (ratio : α) : List (Nat × Box) → List Row → Except Fault (List Row)
  | [], rows => .ok rows
  | (i, box) :: rest, rows => do
    let k ← bestRow ratio rows box
    fill ratio rest (putInto rows k i box)

end Choice

/-- The boxes with their numbers, from the tallest to the smallest; boxes of equal height keep their
order. -/
def ordered (boxes : List Box) : List (Nat × Box) :=
  (boxes.mapIdx fun i b => (i, b)).mergeSort fun a b => b.2.y ≤ a.2.y

/-- The offsets of the boxes of a row from a place on. -/
def offsetsInRow (boxes : List Box) (y : Int) : Int → List Nat → List (Nat × Offset)
  | _, [] => []
  | x, i :: rest =>
    (i, ⟨x, y⟩) :: offsetsInRow boxes y (x + ((boxes[i]?).map (·.x)).getD 0) rest

/-- The offsets of the boxes of rows, the first of which lies at a height. -/
def offsetsFrom (boxes : List Box) : Int → List Row → List (Nat × Offset)
  | _, [] => []
  | y, row :: rest =>
    offsetsInRow boxes y 0 row.boxes ++ offsetsFrom boxes (y + row.height) rest

/-- The offset of each box, in the order of the boxes. -/
def offsets (boxes : List Box) (rows : List Row) : List Offset :=
  let placed := offsetsFrom boxes 0 rows
  (List.range boxes.length).map fun i => (placed.lookup i).getD ⟨0, 0⟩

/-- Packs boxes into rows for a valid ratio. -/
def rows {α : Type} [Scalar α] (boxes : List Box) (ratio : α) : Except Fault (List Offset) := do
  return offsets boxes (← fill ratio (ordered boxes) [])

end Packing

end PackedDrawing
