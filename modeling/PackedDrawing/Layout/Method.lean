import PackedDrawing.Layout.Secondary
/-!
# Layouts

A layout has a method with its settings, listeners, and a board. Settings come as values and are
checked when they are made; they can be changed between runs, and so can nodes and links.

## Main definitions

* `Layout.run`: lays out the drawing.
* `Layout.settle`: packs the drawing as it is.
* `Ring.configure`, `Mosaic.configure`: settings from values.
-/

namespace PackedDrawing

/-- How a layout lays out its drawing. -/
inductive Method (α : Type) where
  | ring (r : Ring α)
  | mosaic (s : Mosaic α) (secondary : Secondary α)

/-- A layout as its users hold it, with whatever they put on it under names that are none of its
settings. -/
structure Layout (α : Type) where
  method : Method α
  listeners : Listeners α := {}
  board : Board α := {}
  extras : Attributes α := []

variable {α : Type} [Scalar α]

/-- A drawing from nodes and links, either of which may be left out. -/
def Drawing.load (nodes : Option (List (NodeEntry α))) (links : Option (List (LinkEntry α))) :
    Except Fault (Drawing α) := do
  let (d, e) := match nodes with
    | some entries => Drawing.setNodes entries {}
    | none => ({}, none)
  if let some e := e then throw e
  let (d, e) := match links with
    | some entries => d.setLinks entries
    | none => (d, none)
  if let some e := e then throw e
  return d

/-- A ring layout with the given settings; those left out are the plain ones. -/
def Ring.configure (radius spacing start : Option (Value α)) (order : NodeOrder α) :
    Except Fault (Ring α) := do
  let radius ← Ring.radiusOf (radius.getD .null)
  let spacing ← (spacing.map Value.toReal).getD (.ok Ring.plain.spacing)
  let start ← (start.map Value.toReal).getD (.ok Ring.plain.start)
  return { radius, spacing, start, order }

/-- A mosaic layout with the given settings; a ratio or border left out is the plain one. -/
def Mosaic.configure [Written α] (packer : Packer α) (envelope : Envelope α) (flags : Flags)
    (ratio border : Option (Value α)) : Except Fault (Mosaic α) := do
  let ratio ← (ratio.map Check.targetRatio).getD (.ok Mosaic.plain.ratio)
  let border ← (border.map Check.border).getD (.ok 30)
  return { packer, envelope, ratio, border, flags }

namespace Layout

/-- A step on the board. -/
def onBoard {β : Type} (a : Act (Board α) β) : Act (Layout α) β :=
  Act.within Layout.board (fun b l => { l with board := b }) a

/-- Lays out the drawing. -/
def run : Act (Layout α) Unit := do
  let l ← Act.state
  match l.method with
  | .ring r => onBoard (r.run l.listeners)
  | .mosaic s secondary => onBoard (s.run l.listeners secondary.arrangement)

/-- Packs the components of a grouping, or of the drawing's own one; only mosaic layouts can. -/
def settle (given : Option Grouping) : Act (Layout α) (List (Pose α Int)) := do
  let l ← Act.state
  match l.method with
  | .ring _ => Act.fail .missingAttribute
  | .mosaic s _ => onBoard (s.settle given)

/-- The drawing of a layout. -/
def drawing (l : Layout α) : Drawing α := l.board.drawing

/-- The results of a layout. -/
def results (l : Layout α) : Results α := l.board.results

/-- Puts a changed drawing in place, and fails if the change came upon a fault. -/
def replace (f : Drawing α → Drawing α × Option Fault) : Act (Layout α) Unit :=
  onBoard <| Board.onDrawing fun d =>
    let (d, e) := f d
    match e with
    | some e => (.error e, d)
    | none => (.ok (), d)

/-- Replaces the nodes. -/
def receive (arrivals : List (Arrival α)) : Act (Layout α) Unit :=
  replace (Drawing.receive arrivals)

/-- Replaces the nodes by new ones. -/
def setNodes (entries : List (NodeEntry α)) : Act (Layout α) Unit :=
  receive (entries.map .entry)

/-- Replaces the links. -/
def setLinks (entries : List (LinkEntry α)) : Act (Layout α) Unit :=
  replace (Drawing.setLinks entries)

/-- Replaces a list by the entries of a value. A value that has none is refused, but not before the
list is empty. -/
def assign {β : Type} (set : List β → Act (Layout α) Unit) :
    Option (List β) → Act (Layout α) Unit
  | some entries => set entries
  | none => do
    set []
    Act.fail .typeMismatch

/-- Changes the settings of a ring layout. -/
def adjustRing (f : Ring α → Except Fault (Ring α)) : Act (Layout α) Unit := do
  let l ← Act.state
  match l.method with
  | .ring r => do
    let r ← Act.attempt (f r)
    Act.change fun l => { l with method := .ring r }
  | .mosaic .. => pure ()

/-- Changes the settings of a mosaic layout. -/
def adjustMosaic (f : Mosaic α → Except Fault (Mosaic α)) : Act (Layout α) Unit := do
  let l ← Act.state
  match l.method with
  | .mosaic s secondary => do
    let s ← Act.attempt (f s)
    Act.change fun l => { l with method := .mosaic s secondary }
  | .ring _ => pure ()

/-- Sets the radius of a ring; nothing at all leaves it to the distance between neighbours. -/
def setRadius (v : Value α) : Act (Layout α) Unit :=
  adjustRing fun r => do return { r with radius := ← Ring.radiusOf v }

/-- Sets the distance between neighbours on a ring. -/
def setSpacing (v : Value α) : Act (Layout α) Unit :=
  adjustRing fun r => do return { r with spacing := ← v.toReal }

/-- Sets the angle at which a ring starts. -/
def setStart (v : Value α) : Act (Layout α) Unit :=
  adjustRing fun r => do return { r with start := ← v.toReal }

/-- Sets the order of the nodes on a ring. -/
def setOrder (order : NodeOrder α) : Act (Layout α) Unit :=
  adjustRing fun r => .ok { r with order }

/-- Sets the target ratio of a packing. -/
def setRatio [Written α] (v : Value α) : Act (Layout α) Unit :=
  adjustMosaic fun s => do return { s with ratio := ← Check.targetRatio v }

/-- Sets the border around the components. -/
def setBorder [Written α] (v : Value α) : Act (Layout α) Unit :=
  adjustMosaic fun s => do return { s with border := ← Check.border v }

/-- Sets which optional parts of the drawing take part. -/
def setFlags (flags : Flags) : Act (Layout α) Unit :=
  adjustMosaic fun s => .ok { s with flags }

/-- Sets the packer. -/
def setPacker (packer : Packer α) : Act (Layout α) Unit :=
  adjustMosaic fun s => .ok { s with packer }

/-- Sets what builds the polygons around components. -/
def setEnvelope (envelope : Envelope α) : Act (Layout α) Unit :=
  adjustMosaic fun s => .ok { s with envelope }

/-- Replaces the secondary layout of a mosaic layout. A new procedure has had no calls. -/
def setSecondary (secondary : Secondary α) : Act (Layout α) Unit :=
  Act.change fun l =>
    match l.method with
    | .mosaic s _ =>
      { l with
        method := .mosaic s secondary
        board := { l.board with journal := { l.board.journal with calls := 0 } } }
    | .ring _ => l

/-- Puts a value on a layout under a name that is none of its settings. -/
def attach (name : String) (v : Value α) : Act (Layout α) Unit :=
  Act.change fun l => { l with extras := l.extras.put name v }

/-- Lets a listener listen to an event. -/
def listen (event : Value α) (tag : Option (Value α)) : Act (Layout α) Unit := do
  let l ← Act.state
  let listeners ← Act.attempt (l.listeners.listen event tag)
  Act.change fun l => { l with listeners }

/-- Announces an event. -/
def announce (e : Event α) : Act (Layout α) Unit := do
  let l ← Act.state
  onBoard (Board.announce l.listeners e)

/-- Forgets what was written down so far. -/
def clearJournal (l : Layout α) : Layout α :=
  { l with board := { l.board with journal := l.board.journal.cleared } }

/-- The boxes of the last packing. -/
def boxes (l : Layout α) : Except Fault (List Box) := Mosaic.boxesOf l.results.poses

end Layout

end PackedDrawing
