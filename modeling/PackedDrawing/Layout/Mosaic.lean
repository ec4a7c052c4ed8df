import PackedDrawing.Layout.Board
import PackedDrawing.Packing.Packer
import PackedDrawing.Placement.Motion
/-!
# Mosaic layouts

A drawing is split into its connected components. Each is copied, laid out on its own, and brought
back; then all of them are turned to lie flat, and their boxes are packed into one drawing.

## Main definitions

* `Mosaic`: the settings.
* `Mosaic.layOutComponent`: one component, laid out on its own.
* `Mosaic.settle`: turns and packs the components as they are.
* `Mosaic.run`: the layout.

## Implementation notes

The grouping is kept as soon as it is known, poses and offsets only after all points have been
moved. Components are centred before the packer is asked, so they stay centred if it fails.
-/

namespace PackedDrawing

/-- The settings of a mosaic layout. -/
structure Mosaic (α : Type) where
  packer : Packer α
  envelope : Envelope α
  ratio : α
  border : Int
  flags : Flags

/-- What lays out one component. -/
abbrev Arrangement (α : Type) := Drawing α → Act (Journal α) (Drawing α)

namespace Mosaic

variable {α : Type} [Scalar α]

/-- Packs into rows for a square, with a border of thirty and bends. -/
def plain [Written α] : Mosaic α :=
  { packer := .rows, envelope := .convex, ratio := 1.0, border := 30, flags := .plain }

/-- The boxes of poses. -/
def boxesOf (gs : List (Pose α Int)) : Except Fault (List Box) := gs.mapM Pose.box

/-- Nodes of a component as values. -/
def nodeValues (nodes : List Handle) : List (Value α) := nodes.map .ofHandle

/-- Links of a component as values. -/
def linkValues (edges : List Nat) : List (Value α) := edges.map fun (e : Nat) => .int e

/-- Centres and turns one component. -/
def poseComponent (s : Mosaic α) (nodes : List Handle) (edges : List Nat) :
    Act (Drawing α) (List Record × Pose α Int) := do
  let d ← Act.state
  let records ← Act.attempt (Record.collect d (nodeValues nodes) (linkValues edges) s.flags)
  let g ← orient records s.border s.envelope
  return (records, g)

/-- Centres and turns components, one after another. -/
def poseAll (s : Mosaic α) :
    List (List Handle × List Nat) → Act (Drawing α) (List (List Record × Pose α Int))
  | [] => pure []
  | (nodes, edges) :: rest => do
    let first ← s.poseComponent nodes edges
    return first :: (← s.poseAll rest)

/-- Asks the packer for offsets, one for each box. -/
def pack (s : Mosaic α) (boxes : List Box) : Except Fault (List Offset) := do
  let offsets ← s.packer boxes s.ratio
  Check.offsets offsets.length boxes.length
  return offsets

/-- Turns and packs the components of a grouping. -/
def packComponents (s : Mosaic α) (g : Grouping) :
    Act (Drawing α) (List (Pose α Int) × List Offset) := do
  let oriented ← s.poseAll (g.nodes.zip g.links)
  let poses := oriented.map Prod.snd
  let boxes ← Act.attempt (boxesOf poses)
  let offsets ← Act.attempt (s.pack boxes)
  Act.each (fun p => PackedDrawing.settle p.1.1 p.1.2 p.2) (oriented.zip offsets)
  return (poses, offsets)

/-- The grouping of a drawing whose links are valid. -/
def groupingOf (d : Drawing α) : Except Fault Grouping := do
  d.validate
  Grouping.ofDrawing d

/-- Turns and packs the components of a given grouping, or of the drawing's own one. -/
def settle (s : Mosaic α) (given : Option Grouping) :
    Act (Board α) (List (Pose α Int)) := do
  Board.onDrawing (Act.change Drawing.numberNodes)
  let d ← Board.drawn
  let g ← Act.attempt (match given with
    | some g => .ok g
    | none => groupingOf d)
  Act.change fun b => { b with results := { b.results with components := some g } }
  let (poses, offsets) ← Board.onDrawing (s.packComponents g)
  Act.change fun b => { b with results := { b.results with poses, offsets } }
  return poses

/-- Lays out one component on its own and brings its positions and bends home. -/
def layOutComponent (s : Mosaic α) (arrange : Arrangement α) (nodes : List Handle)
    (edges : List Nat) : Act (Board α) Unit := do
  let d ← Board.drawn
  let copy ← Act.attempt (Copy.of d (nodeValues nodes) (linkValues edges) s.flags)
  let laid ← Board.onJournal (arrange copy.drawing)
  Board.onDrawing (copy.bringHome laid.nodes laid.links)

/-- How much is left to do when `done` of `count` components are finished. -/
def remaining (done count : Nat) : Except Fault α := do
  return 1.0 - (← Scalar.ofQuotient done count)

/-- Lays out components, the first of which has number `i`, and announces each. -/
def layOutFrom (s : Mosaic α) (l : Listeners α) (arrange : Arrangement α) (count : Nat) :
    Nat → List (List Handle × List Nat) → Act (Board α) Unit
  | _, [] => pure ()
  | i, (nodes, edges) :: rest => do
    s.layOutComponent arrange nodes edges
    let alpha ← Act.attempt (remaining (i + 1) count)
    Board.announce l
      { kind := .tick, alpha := some (.real alpha), component := some (.int i) }
    s.layOutFrom l arrange count (i + 1) rest

/-- Splits, lays out and packs the drawing of a board. -/
def work (s : Mosaic α) (l : Listeners α) : Option (Arrangement α) → Act (Board α) Unit
  | none => Board.onJournal (Act.change (Journal.warn .noSecondary))
  | some arrange => do
    let d ← Board.drawn
    if d.nodes.isEmpty then return ()
    let g ← Act.attempt (groupingOf d)
    s.layOutFrom l arrange g.count 0 (g.nodes.zip g.links)
    let _ ← s.settle (some g)

/-- Lays out a drawing by components. -/
def run (s : Mosaic α) (l : Listeners α) (arrange : Option (Arrangement α)) :
    Act (Board α) Unit :=
  Board.run l (s.work l arrange)

end Mosaic

end PackedDrawing
