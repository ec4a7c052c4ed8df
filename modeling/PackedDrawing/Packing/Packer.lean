import PackedDrawing.Graph.Check
import PackedDrawing.Packing.Rows
/-!
# Packers

A packer answers a list of boxes and a target ratio with offsets. Besides the packing into rows
there are a diagonal one, and packers that always give the same answer.
-/

namespace PackedDrawing

/-- What answers boxes and a target ratio with offsets. -/
abbrev Packer (α : Type) := List Box → α → Except Fault (List Offset)

namespace Packer

variable {α : Type}

/-- Packs boxes into rows for a target ratio as users give it. The ratio has to be valid. -/
def rowsFor [Scalar α] [Written α] (boxes : List Box) (ratio : Value α) :
    Except Fault (List Offset) := do
  Packing.rows boxes (← Check.targetRatio ratio)

/-- Packs boxes into rows. The ratio has to be valid. -/
def rows [Scalar α] [Written α] : Packer α := fun boxes ratio => rowsFor boxes (.real ratio)

/-- Puts each box at the lower right corner of the one before, from a place on. -/
def diagonalFrom : Offset → List Box → List Offset
  | _, [] => []
  | o, b :: rest => o :: diagonalFrom ⟨o.x + b.x, o.y + b.y⟩ rest

/-- Packs boxes along the diagonal. -/
def diagonal : Packer α := fun boxes _ => .ok (diagonalFrom ⟨0, 0⟩ boxes)

/-- Always answers with the same offsets. -/
def constant (offsets : List Offset) : Packer α := fun _ _ => .ok offsets

/-- What is no packer cannot be asked to pack. -/
def missing : Packer α := fun _ _ => .error .missingAttribute

end Packer

end PackedDrawing
