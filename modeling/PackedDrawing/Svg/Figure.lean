import PackedDrawing.Graph.Bounds
import PackedDrawing.Layout.Method
import PackedDrawing.Value.Order
/-!
# Figures

What is drawn of a layout: the packed boxes, a line for each link through its bends, a shape for
each node and a label for each node, all moved so that the drawing has the padding around it on
every side.

## Main definitions

* `Svg.Options`: colours, sizes and what is shown.
* `Svg.Part`: one line of a figure.
* `Svg.figure`: the parts of a layout's figure.

## Implementation notes

The parts are computed one by one, and each may fail. Whoever writes the figure takes them in order,
so the first part that fails decides.
-/

namespace PackedDrawing.Svg

variable {α : Type}

/-- How a figure is drawn. -/
structure Options (α : Type) where
  nodeRadius : Value α
  nodeColor : Value α
  nodeStroke : Value α
  nodeStrokeWidth : Value α
  edgeColor : Value α
  edgeWidth : Value α
  showLabels : Value α
  labelColor : Value α
  fontSize : Value α
  fontFamily : Value α
  showBoxes : Value α
  boxColor : Value α
  padding : Value α
  background : Value α
  nodeShape : Value α

/-- The usual way to draw a figure. -/
def Options.usual [OfScientific α] : Options α where
  nodeRadius := .real 10.0
  nodeColor := .text "#4a90d9"
  nodeStroke := .text "#2c5aa0"
  nodeStrokeWidth := .real 2.0
  edgeColor := .text "#666666"
  edgeWidth := .real 1.5
  showLabels := .bool true
  labelColor := .text "#000000"
  fontSize := .real 12.0
  fontFamily := .text "sans-serif"
  showBoxes := .bool false
  boxColor := .text "#cc3333"
  padding := .real 40.0
  background := .null
  nodeShape := .text "circle"

/-- Gives one option a value; there has to be an option of that name. -/
def Options.set (o : Options α) (name : String) (v : Value α) : Except Fault (Options α) :=
  match name with
  | "node_radius" => .ok { o with nodeRadius := v }
  | "node_color" => .ok { o with nodeColor := v }
  | "node_stroke" => .ok { o with nodeStroke := v }
  | "node_stroke_width" => .ok { o with nodeStrokeWidth := v }
  | "edge_color" => .ok { o with edgeColor := v }
  | "edge_width" => .ok { o with edgeWidth := v }
  | "show_labels" => .ok { o with showLabels := v }
  | "label_color" => .ok { o with labelColor := v }
  | "font_size" => .ok { o with fontSize := v }
  | "font_family" => .ok { o with fontFamily := v }
  | "show_boxes" => .ok { o with showBoxes := v }
  | "box_color" => .ok { o with boxColor := v }
  | "padding" => .ok { o with padding := v }
  | "background" => .ok { o with background := v }
  | "node_shape" => .ok { o with nodeShape := v }
  | _ => .error .typeMismatch

/-- Options with some of them given by name. -/
def Options.ofEntries [OfScientific α] (entries : List (String × Value α)) :
    Except Fault (Options α) :=
  entries.foldlM (fun o e => o.set e.1 e.2) .usual

/-- The lines that a figure consists of. -/
inductive Part (α : Type) where
  | frame (width height : Number α)
  | background (fill : Value α)
  | groupStart (name : String)
  | groupEnd
  | box (corner : Point (Number α)) (width height : Number α) (stroke : Value α)
  | polyline (points : List (Point (Number α))) (stroke strokeWidth : Value α)
  | circle (centre : Point (Number α)) (radius : Number α) (fill stroke strokeWidth : Value α)
  | rectangle (corner : Point (Number α)) (width height : Number α)
      (fill stroke strokeWidth : Value α)
  | label (centre : Point (Number α)) (fill fontSize fontFamily : Value α) (text : String)
  | frameEnd

/-- A box where it was packed. -/
structure PlacedBox where
  corner : Offset
  size : Box
  deriving DecidableEq, Repr

variable [Scalar α]

/-- The items that were put on a layout under a name. -/
def attached (l : Layout α) (name : String) : Except Fault (List (Value α)) :=
  match l.extras.get? name with
  | some v => if v.holds then v.items else .ok []
  | none => .ok []

/-- The packed boxes of a layout. A ring has none; values that were put on it in their place are no
boxes. -/
def placedBoxes (l : Layout α) : Except Fault (List PlacedBox) := do
  match l.method with
  | .mosaic .. => return (l.results.offsets.zip (← l.boxes)).map fun p => ⟨p.1, p.2⟩
  | .ring _ => do
    let offsets ← attached l "offsets"
    let boxes ← attached l "boxes"
    if (offsets.zip boxes).isEmpty then return [] else throw .missingAttribute

/-- Bounds widened to all sides. -/
def widen (b : Bounds α) (amount : Number α) : Except Fault (Bounds α) := do
  let left ← b.least.x.sub amount
  let top ← b.least.y.sub amount
  let right ← b.greatest.x.add amount
  let bottom ← b.greatest.y.add amount
  return ⟨⟨left, top⟩, ⟨right, bottom⟩⟩

/-- Bounds that contain a box as well. -/
def including (b : Bounds α) (p : PlacedBox) : Bounds α :=
  ⟨⟨b.least.x.smaller (.int p.corner.x), b.least.y.smaller (.int p.corner.y)⟩,
    ⟨b.greatest.x.larger (.int (p.corner.x + p.size.x)),
      b.greatest.y.larger (.int (p.corner.y + p.size.y))⟩⟩

/-- The size of a figure, and by how much everything in it is moved. -/
structure Canvas (α : Type) where
  width : Number α
  height : Number α
  shift : Point (Number α)

/-- The canvas around bounds with a padding. -/
def canvas (b : Bounds α) (padding : Number α) : Except Fault (Canvas α) := do
  let twice ← Number.mul (.int 2) padding
  let width ← (← b.greatest.x.sub b.least.x).add twice
  let height ← (← b.greatest.y.sub b.least.y).add twice
  let shift : Point (Number α) := ⟨← padding.sub b.least.x, ← padding.sub b.least.y⟩
  return { width, height, shift }

/-- A point moved on the canvas. -/
def moved (shift : Point (Number α)) (p : Point (Value α)) : Except Fault (Point (Number α)) := do
  let x ← (← p.x.number).add shift.x
  let y ← (← p.y.number).add shift.y
  return ⟨x, y⟩

/-- The position of a node as it is. -/
def spot (n : Node α) : Point (Value α) := ⟨n.x, n.y⟩

/-- The rectangle of a packed box. -/
def boxPart (o : Options α) (shift : Point (Number α)) (b : PlacedBox) :
    Except Fault (Part α) := do
  let x ← Number.add (.int b.corner.x) shift.x
  let y ← Number.add (.int b.corner.y) shift.y
  return .box ⟨x, y⟩ (.int b.size.x) (.int b.size.y) o.boxColor

/-- The index by which an end of a link is drawn; nothing if it is not set. -/
def drawnIndex (nodes : List (Node α)) (e : Endpoint α) : Except Fault (Option (Value α)) :=
  match e.mention nodes with
  | .whole h => .ok (some (.ofHandle h))
  | .index v => .ok (some v)
  | .unset => .ok none
  | .bare => .error .missingAttribute
  | .foreign => .ok (some (.thing none))

/-- Whether an index lies behind the last node. -/
def beyond (nodes : List (Node α)) (v : Value α) : Except Fault Bool := do
  return Number.le (.int nodes.length) (← v.number)

/-- The node under an index, counted from either end. -/
def nodeAt (nodes : List (Node α)) (v : Value α) : Except Fault (Node α) := do
  match at? nodes (← v.position) with
  | some n => return n
  | none => throw .outOfRange

/-- The line of a link; nothing if an end has no index or lies behind the last node. -/
def linkPart (o : Options α) (nodes : List (Node α)) (shift : Point (Number α)) (l : Link α) :
    Except Fault (Option (Part α)) := do
  let source ← drawnIndex nodes l.source
  let target ← drawnIndex nodes l.target
  match source, target with
  | some s, some t => do
    if ← beyond nodes s then return none
    if ← beyond nodes t then return none
    let first ← nodeAt nodes s
    let last ← nodeAt nodes t
    let points ← (spot first :: l.bends ++ [spot last]).mapM (moved shift)
    return some (.polyline points o.edgeColor o.edgeWidth)
  | _, _ => return none

/-- A size of a node, or twice the radius where it has none. -/
def sizeOr (v : Value α) (radius : Number α) : Except Fault (Number α) :=
  if v.holds then v.number else radius.mul (.int 2)

/-- The shape of a node. -/
def nodePart (o : Options α) (shift : Point (Number α)) (n : Node α) : Except Fault (Part α) := do
  let p ← moved shift (spot n)
  let radius ← o.nodeRadius.number
  if o.nodeShape.same (.text "rect") then
    let w ← sizeOr n.width radius
    let h ← sizeOr n.height radius
    let x ← p.x.sub (← w.div (.int 2))
    let y ← p.y.sub (← h.div (.int 2))
    return .rectangle ⟨x, y⟩ w h o.nodeColor o.nodeStroke o.nodeStrokeWidth
  else
    let r ← if n.width.holds && n.height.holds then do
        ((← n.width.number).smaller (← n.height.number)).div (.int 2)
      else pure radius
    return .circle p r o.nodeColor o.nodeStroke o.nodeStrokeWidth

/-- The text of a node's label: its label, else its name, else its index. -/
def labelText [Written α] (n : Node α) : String :=
  match n.extras.get? "label", n.extras.get? "name" with
  | some v, _ => v.shown
  | none, some v => v.shown
  | none, none =>
    match n.index with
    | .null => ""
    | v => v.shown

/-- The label of a node. -/
def labelPart [Written α] (o : Options α) (shift : Point (Number α)) (n : Node α) :
    Except Fault (Part α) := do
  let p ← moved shift (spot n)
  return .label p o.labelColor o.fontSize o.fontFamily (labelText n)

/-- A background, if there is any. -/
def backgroundParts (o : Options α) : List (Except Fault (Option (Part α))) :=
  if o.background.holds then [.ok (some (.background o.background))] else []

/-- The parts of one kind between the tags of a group. -/
def group (name : String) (parts : List (Except Fault (Option (Part α)))) :
    List (Except Fault (Option (Part α))) :=
  .ok (some (.groupStart name)) :: parts ++ [.ok (some .groupEnd)]

/-- A part that is always drawn. -/
def always (p : Except Fault (Part α)) : Except Fault (Option (Part α)) := some <$> p

/-- The figure of a drawing without nodes. -/
def emptyFigure (o : Options α) : List (Except Fault (Option (Part α))) :=
  .ok (some (.frame (.int 100) (.int 100))) :: backgroundParts o ++ [.ok (some .frameEnd)]

/-- The parts of a layout's figure, in order. -/
def figure [Written α] (o : Options α) (l : Layout α) :
    Except Fault (List (Except Fault (Option (Part α)))) := do
  let d := l.drawing
  if d.nodes.isEmpty then return emptyFigure o
  let bounds ← Bounds.of d.nodes d.links false
  let bounds ← widen bounds (← o.nodeRadius.number)
  let boxes ← if o.showBoxes.holds then placedBoxes l else pure []
  let c ← canvas (boxes.foldl including bounds) (← o.padding.number)
  let boxParts := boxes.map fun b => always (boxPart o c.shift b)
  return .ok (some (.frame c.width c.height)) :: backgroundParts o
    ++ (if boxes.isEmpty then [] else group "components" boxParts)
    ++ group "edges" (d.links.map (linkPart o d.nodes c.shift))
    ++ group "nodes" (d.nodes.map fun n => always (nodePart o c.shift n))
    ++ (if o.showLabels.holds then
          group "labels" (d.nodes.map fun n => always (labelPart o c.shift n))
        else [])
    ++ [.ok (some .frameEnd)]

end PackedDrawing.Svg
