import PackedDrawing.Layout.Ring
import PackedDrawing.Layout.Mosaic
/-!
# Secondary layouts

What lays out the components of a split drawing: nothing, a procedure, or a whole layout, which may
again split what it is given.

## Implementation notes

A secondary layout works on copies, so all that outlives a call is the journal. The journal counts
the calls of the procedure at the end of the chain.
-/

namespace PackedDrawing

/-- What lays out components. -/
inductive Secondary (α : Type) where
  | absent
  /-- A procedure on drawings that is told how many calls it had before. -/
  | procedure (f : Nat → Drawing α → Except Fault (Drawing α)) (traced : Bool)
  | ring (r : Ring α) (l : Listeners α)
  | mosaic (s : Mosaic α) (l : Listeners α) (inner : Secondary α)

namespace Secondary

variable {α : Type} [Scalar α]

/-- Counts a call of a procedure, and writes it down if the procedure is traced. -/
def noteCall (traced : Bool) (d : Drawing α) (j : Journal α) : Journal α :=
  let j := { j with calls := j.calls + 1 }
  if traced then j.write (.call (j.calls - 1) d) else j

/-- Calls a procedure on a drawing. -/
def call (f : Nat → Drawing α → Except Fault (Drawing α)) (traced : Bool) : Arrangement α :=
  fun d => do
    let j ← Act.state
    Act.change (noteCall traced d)
    Act.attempt (f j.calls d)

/-- How a secondary layout lays out one component. -/
def arrangement : Secondary α → Option (Arrangement α)
  | absent => none
  | procedure f traced => some (call f traced)
  | ring r l => some (Board.apart (r.run l))
  | mosaic s l inner => some (Board.apart (s.run l inner.arrangement))

end Secondary

end PackedDrawing
