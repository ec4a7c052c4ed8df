import PackedDrawing.Layout.Journal
import PackedDrawing.Placement.Pose
/-!
# Boards

A run works on a board: the drawing it lays out, the results that stay when it is done, and the
journal. Every run has the same frame: nodes without an index get their position as one, the start
is announced, the work is done, and the end is announced.
-/

namespace PackedDrawing

/-- What is known about a drawing once it has been packed. -/
structure Results (α : Type) where
  components : Option Grouping := none
  poses : List (Pose α Int) := []
  offsets : List Offset := []

/-- What a run works on. -/
structure Board (α : Type) where
  drawing : Drawing α := {}
  results : Results α := {}
  journal : Journal α := {}

namespace Board

variable {α β : Type}

/-- A step on the drawing. -/
def onDrawing (a : Act (Drawing α) β) : Act (Board α) β :=
  Act.within Board.drawing (fun d b => { b with drawing := d }) a

/-- A step on the journal. -/
def onJournal (a : Act (Journal α) β) : Act (Board α) β :=
  Act.within Board.journal (fun j b => { b with journal := j }) a

/-- The drawing. -/
def drawn : Act (Board α) (Drawing α) := onDrawing Act.state

/-- Announces an event. -/
def announce (l : Listeners α) (e : Event α) : Act (Board α) Unit :=
  onJournal (Act.change (Journal.announce l e))

/-- The frame of every run. -/
def run [Scalar α] (l : Listeners α) (work : Act (Board α) Unit) : Act (Board α) Unit := do
  onDrawing (Act.change Drawing.numberNodes)
  announce l { kind := .start, alpha := some (.real 1.0) }
  work
  announce l { kind := .finish, alpha := some (.real 0.0) }

/-- Lays out a drawing on a board of its own that shares only the journal. -/
def apart (a : Act (Board α) Unit) (d : Drawing α) : Act (Journal α) (Drawing α) := fun j =>
  let (r, b) := a { drawing := d, journal := j }
  (r.map fun _ => b.drawing, b.journal)

end Board

end PackedDrawing
