import PackedDrawing.Svg.Figure
import PackedDrawing.Svg.Markup
/-!
# Writing figures

Each part of a figure is written as one line of SVG. Coordinates and sizes have one place after the
point; colours and texts are escaped; stroke widths and font sizes are written as they are shown.
-/

namespace PackedDrawing.Svg

open Markup (Attribute Tag)

variable {α : Type} [Scalar α] [Written α]

/-- A coordinate as it is written. -/
def coordinate (x : Number α) : Except Fault String := x.fixed 1

/-- An escaped text; values other than texts cannot be escaped. -/
def escaped : Value α → Except Fault String
  | .text s => .ok (Markup.escape s)
  | _ => .error .missingAttribute

/-- A point of a line as it is written. -/
def pointText (p : Point (Number α)) : Except Fault String := do
  let x ← coordinate p.x
  let y ← coordinate p.y
  return x ++ "," ++ y

/-- The tag of a whole figure. -/
def frameTag (width height : String) : Tag :=
  { name := "svg"
    attributes := [⟨"xmlns", "http://www.w3.org/2000/svg"⟩, ⟨"width", width⟩, ⟨"height", height⟩,
      ⟨"viewBox", "0 0 " ++ width ++ " " ++ height⟩] }

/-- A part as it is written. -/
def Part.text : Part α → Except Fault String
  | frame width height => do
    return (frameTag (← coordinate width) (← coordinate height)).start
  | background fill => do
    let tag : Tag := ⟨"rect", [⟨"width", "100%"⟩, ⟨"height", "100%"⟩, ⟨"fill", ← escaped fill⟩]⟩
    return "  " ++ tag.alone
  | groupStart name => .ok ("  " ++ (⟨"g", [⟨"class", name⟩]⟩ : Tag).start)
  | groupEnd => .ok ("  " ++ Tag.finish "g")
  | box corner width height stroke => do
    let tag : Tag := ⟨"rect", [⟨"x", ← coordinate corner.x⟩, ⟨"y", ← coordinate corner.y⟩,
      ⟨"width", ← coordinate width⟩, ⟨"height", ← coordinate height⟩, ⟨"fill", "none"⟩,
      ⟨"stroke", ← escaped stroke⟩, ⟨"stroke-dasharray", "4 2"⟩]⟩
    return "    " ++ tag.alone
  | polyline points stroke strokeWidth => do
    let tag : Tag := ⟨"polyline", [⟨"points", " ".intercalate (← points.mapM pointText)⟩,
      ⟨"fill", "none"⟩, ⟨"stroke", ← escaped stroke⟩, ⟨"stroke-width", strokeWidth.shown⟩]⟩
    return "    " ++ tag.alone
  | circle centre radius fill stroke strokeWidth => do
    let tag : Tag := ⟨"circle", [⟨"cx", ← coordinate centre.x⟩, ⟨"cy", ← coordinate centre.y⟩,
      ⟨"r", ← coordinate radius⟩, ⟨"fill", ← escaped fill⟩, ⟨"stroke", ← escaped stroke⟩,
      ⟨"stroke-width", strokeWidth.shown⟩]⟩
    return "    " ++ tag.alone
  | rectangle corner width height fill stroke strokeWidth => do
    let tag : Tag := ⟨"rect", [⟨"x", ← coordinate corner.x⟩, ⟨"y", ← coordinate corner.y⟩,
      ⟨"width", ← coordinate width⟩, ⟨"height", ← coordinate height⟩, ⟨"fill", ← escaped fill⟩,
      ⟨"stroke", ← escaped stroke⟩, ⟨"stroke-width", strokeWidth.shown⟩, ⟨"rx", "4"⟩]⟩
    return "    " ++ tag.alone
  | label centre fill fontSize fontFamily text => do
    let tag : Tag := ⟨"text", [⟨"x", ← coordinate centre.x⟩, ⟨"y", ← coordinate centre.y⟩,
      ⟨"fill", ← escaped fill⟩, ⟨"font-size", fontSize.shown⟩,
      ⟨"font-family", ← escaped fontFamily⟩, ⟨"text-anchor", "middle"⟩,
      ⟨"dominant-baseline", "central"⟩]⟩
    return "    " ++ tag.around (Markup.escape text)
  | frameEnd => .ok (Tag.finish "svg")

/-- The lines of parts; the first part that fails decides. -/
def lines : List (Except Fault (Option (Part α))) → Except Fault (List String)
  | [] => .ok []
  | p :: rest => do
    match ← p with
    | none => lines rest
    | some part => do
      let line ← part.text
      return line :: (← lines rest)

/-- The figure of a layout as SVG. -/
def write (o : Options α) (l : Layout α) : Except Fault String := do
  return "\n".intercalate (← lines (← figure o l))

end PackedDrawing.Svg
