import Mathlib.Data.List.ReduceOption
import PackedDrawing.Proofs.Outcome
import PackedDrawing.Svg.Document

/-!
# The parts that are drawn

A figure lists what is to be drawn part by part, where each part may fail or be left out. `sheet`
computes the same parts by their kinds, and `parts` are those that are drawn, in the order in which
they are written.

## Main definitions

* `Svg.framing`: the canvas of a layout and the boxes on it.
* `Svg.Sheet`, `Svg.sheet`: the parts of a layout by their kinds.
* `Svg.parts`: the parts that are drawn.
* `Svg.Part.element`: the element that a part is or begins.
* `Svg.isDrawn`: a link is drawn.

## Main statements

* `Svg.write_eq_ok_iff`: a figure is written as its parts are, line by line.
* `Svg.parts_eq`: the parts of a layout with nodes are those of its sheet.
* `Svg.sorted_of_sheet`: each kind of parts is drawn by one kind of elements.
-/

namespace PackedDrawing.Svg

variable {α : Type} [Scalar α] [Written α]

/-- The boxes that are drawn. -/
def drawnBoxes (o : Options α) (l : Layout α) : Except Fault (List PlacedBox) :=
  if o.showBoxes.holds then placedBoxes l else .ok []

/-- The canvas of a layout, and the boxes that are drawn on it. -/
def framing (o : Options α) (l : Layout α) : Except Fault (Canvas α × List PlacedBox) := do
  let bounds ← Bounds.of l.drawing.nodes l.drawing.links false
  let bounds ← widen bounds (← o.nodeRadius.number)
  let boxes ← drawnBoxes o l
  let c ← canvas (boxes.foldl including bounds) (← o.padding.number)
  return (c, boxes)

/-- The parts of a figure by their kinds. Links that are left out have no part. -/
structure Sheet (α : Type) where
  canvas : Canvas α
  boxes : List (Part α)
  lines : List (Option (Part α))
  shapes : List (Part α)
  labels : List (Part α)

/-- The labels that are drawn. -/
def drawnLabels (o : Options α) (shift : Point (Number α)) (nodes : List (Node α)) :
    Except Fault (List (Part α)) :=
  if o.showLabels.holds then nodes.mapM (labelPart o shift) else .ok []

/-- Computes the parts of a figure, kind after kind. -/
def sheet (o : Options α) (l : Layout α) : Except Fault (Sheet α) := do
  let (canvas, placed) ← framing o l
  let boxes ← placed.mapM (boxPart o canvas.shift)
  let lines ← l.drawing.links.mapM (linkPart o l.drawing.nodes canvas.shift)
  let shapes ← l.drawing.nodes.mapM (nodePart o canvas.shift)
  let labels ← drawnLabels o canvas.shift l.drawing.nodes
  return { canvas, boxes, lines, shapes, labels }

/-- Parts between the tags of a group. -/
def grouped (name : String) (ps : List (Part α)) : List (Part α) :=
  .groupStart name :: ps ++ [.groupEnd]

/-- The background, if there is any. -/
def backing (o : Options α) : List (Part α) :=
  if o.background.holds then [.background o.background] else []

omit [Scalar α] [Written α] in
theorem mem_grouped {name : String} {ps : List (Part α)} {p : Part α} :
    p ∈ grouped name ps ↔ p = .groupStart name ∨ p ∈ ps ∨ p = .groupEnd := by
  rw [grouped, List.cons_append, List.mem_cons, List.mem_append, List.mem_singleton]

omit [Written α] in
theorem eq_of_mem_backing {o : Options α} {p : Part α} (hp : p ∈ backing o) :
    p = .background o.background := by
  rw [backing] at hp
  split at hp
  · exact List.mem_singleton.mp hp
  · cases hp

/-- The parts of a sheet in the order in which they are written. -/
def Sheet.parts (o : Options α) (s : Sheet α) : List (Part α) :=
  .frame s.canvas.width s.canvas.height :: backing o
    ++ (if s.boxes.isEmpty then [] else grouped "components" s.boxes)
    ++ grouped "edges" s.lines.reduceOption ++ grouped "nodes" s.shapes
    ++ (if o.showLabels.holds then grouped "labels" s.labels else []) ++ [.frameEnd]

/-- The parts of a layout that are drawn; the first one that fails decides. -/
def parts (o : Options α) (l : Layout α) : Except Fault (List (Part α)) := do
  return (← (← figure o l).mapM id).reduceOption

/-- The lines of parts are those of the parts that are drawn. -/
theorem lines_eq_ok_iff {items : List (Except Fault (Option (Part α)))} {ls : List String} :
    lines items = .ok ls ↔
      ∃ ps, items.mapM id = .ok ps ∧ ps.reduceOption.mapM Part.text = .ok ls := by
  induction items generalizing ls with
  | nil =>
      constructor
      · intro h
        exact ⟨[], rfl, h⟩
      · rintro ⟨ps, hps, h⟩
        obtain rfl := Except.ok.inj hps
        exact h
  | cons item rest ih =>
      rw [lines, bind_eq_ok]
      constructor
      · rintro ⟨p, hp, h⟩
        cases p with
        | none =>
            obtain ⟨ps, hps, htext⟩ := ih.mp h
            refine ⟨none :: ps, ?_, htext⟩
            rw [List.mapM_cons, id_eq, hp, ok_bind, hps]
            rfl
        | some p =>
            obtain ⟨line, hline, h⟩ := bind_eq_ok.mp h
            obtain ⟨tail, htail, h⟩ := bind_eq_ok.mp h
            obtain ⟨ps, hps, htext⟩ := ih.mp htail
            refine ⟨some p :: ps, ?_, ?_⟩
            · rw [List.mapM_cons, id_eq, hp, ok_bind, hps]
              rfl
            · rw [List.reduceOption_cons_of_some, List.mapM_cons, hline, ok_bind, htext]
              exact h
      · rintro ⟨ps, hps, htext⟩
        rw [List.mapM_cons, id_eq] at hps
        obtain ⟨p, hp, hps⟩ := bind_eq_ok.mp hps
        obtain ⟨tail, htail, hps⟩ := bind_eq_ok.mp hps
        obtain rfl := pure_eq_ok.mp hps
        refine ⟨p, hp, ?_⟩
        cases p with
        | none => exact ih.mpr ⟨tail, htail, htext⟩
        | some p =>
            rw [List.reduceOption_cons_of_some, List.mapM_cons] at htext
            obtain ⟨line, hline, htext⟩ := bind_eq_ok.mp htext
            obtain ⟨ls', hls', htext⟩ := bind_eq_ok.mp htext
            exact bind_eq_ok.mpr ⟨line, hline,
              bind_eq_ok.mpr ⟨ls', ih.mpr ⟨tail, htail, hls'⟩, htext⟩⟩

/-- A figure is written as its parts are, line by line. -/
theorem write_eq_ok_iff {o : Options α} {l : Layout α} {text : String} :
    write o l = .ok text ↔ ∃ ps ls, parts o l = .ok ps ∧ ps.mapM Part.text = .ok ls ∧
      text = "\n".intercalate ls := by
  constructor
  · intro h
    obtain ⟨items, hitems, h⟩ := bind_eq_ok.mp h
    obtain ⟨ls, hls, h⟩ := bind_eq_ok.mp h
    obtain ⟨ps, hps, htext⟩ := lines_eq_ok_iff.mp hls
    refine ⟨ps.reduceOption, ls, ?_, htext, (pure_eq_ok.mp h).symm⟩
    rw [parts, hitems, ok_bind, hps]
    rfl
  · rintro ⟨ps, ls, hps, htext, rfl⟩
    obtain ⟨items, hitems, h⟩ := bind_eq_ok.mp hps
    obtain ⟨drawn, hdrawn, h⟩ := bind_eq_ok.mp h
    obtain rfl := pure_eq_ok.mp h
    rw [write, hitems, ok_bind, lines_eq_ok_iff.mpr ⟨drawn, hdrawn, htext⟩]
    rfl

section Texts

theorem coordinate_eq_ok_iff {x : Number α} {t : String} :
    coordinate x = .ok t ↔ ∃ a, x.toReal = .ok a ∧ Written.fixed 1 a = t := by
  rw [coordinate, Number.fixed, bind_eq_ok]
  simp only [pure_eq_ok]

omit [Scalar α] [Written α] in
theorem escaped_eq_ok_iff {v : Value α} {t : String} :
    escaped v = .ok t ↔ ∃ s, v = .text s ∧ Markup.escape s = t := by
  cases v <;> simp [escaped]

end Texts

section Kinds

variable {β : Type}

omit [Scalar α] [Written α]

theorem mapM_map_id {γ : Type} (f : β → Except Fault γ) (xs : List β) :
    (xs.map f).mapM id = xs.mapM f := by
  rw [List.mapM_map]
  rfl

theorem mapM_always (f : β → Except Fault (Part α)) (xs : List β) :
    xs.mapM (fun x => always (f x)) = List.map some <$> xs.mapM f :=
  mapM_map f some xs

theorem mapM_group (name : String) (items : List (Except Fault (Option (Part α)))) :
    (group name items).mapM id =
      (fun ps => some (.groupStart name) :: ps ++ [some .groupEnd]) <$> items.mapM id := by
  rw [group, List.cons_append, List.mapM_cons, List.mapM_append]
  cases items.mapM id <;> rfl

theorem reduceOption_map_some (ps : List β) : (ps.map some).reduceOption = ps := by
  rw [List.reduceOption, List.filterMap_map]
  exact List.filterMap_some

end Kinds

omit [Written α] in
theorem mapM_backgroundParts (o : Options α) :
    (backgroundParts o).mapM id = .ok ((backing o).map some) := by
  rw [backgroundParts, backing]
  split <;> rfl

/-- A figure starts from its canvas and the boxes on it. -/
theorem figure_eq {o : Options α} {l : Layout α} (h : l.drawing.nodes ≠ []) :
    figure o l = (fun framed : Canvas α × List PlacedBox =>
      .ok (some (.frame framed.1.width framed.1.height)) :: backgroundParts o
        ++ (if framed.2.isEmpty then []
          else group "components" (framed.2.map fun b => always (boxPart o framed.1.shift b)))
        ++ group "edges" (l.drawing.links.map (linkPart o l.drawing.nodes framed.1.shift))
        ++ group "nodes" (l.drawing.nodes.map fun n => always (nodePart o framed.1.shift n))
        ++ (if o.showLabels.holds then
              group "labels" (l.drawing.nodes.map fun n => always (labelPart o framed.1.shift n))
            else [])
        ++ [.ok (some .frameEnd)]) <$> framing o l := by
  rw [figure, if_neg (by simpa using h), framing, drawnBoxes]
  by_cases hboxes : o.showBoxes.holds = true
  · simp only [if_pos hboxes, map_bind, map_pure]
  · simp only [if_neg hboxes, map_bind, map_pure, pure_bind, ok_bind]

omit [Written α] in
theorem mapM_boxes (o : Options α) (shift : Point (Number α)) (placed : List PlacedBox) :
    (if placed.isEmpty then []
      else group "components" (placed.map fun b => always (boxPart o shift b))).mapM id =
      (fun bs : List (Part α) =>
          (if bs.isEmpty then [] else grouped "components" bs).map some) <$>
        placed.mapM (boxPart o shift) := by
  cases placed with
  | nil => rfl
  | cons b rest =>
      rw [if_neg (by simp), mapM_group, mapM_map_id, mapM_always]
      cases h : (b :: rest).mapM (boxPart o shift) with
      | error e => rfl
      | ok bs =>
          have hne : bs ≠ [] := by
            rintro rfl
            cases mapM_eq_ok_iff.mp h
          simp [hne, grouped]

theorem mapM_labels (o : Options α) (shift : Point (Number α)) (nodes : List (Node α)) :
    (if o.showLabels.holds then
        group "labels" (nodes.map fun n => always (labelPart o shift n))
      else []).mapM id =
      (fun ls : List (Part α) =>
          (if o.showLabels.holds then grouped "labels" ls else []).map some) <$>
        drawnLabels o shift nodes := by
  rw [drawnLabels]
  by_cases hlabels : o.showLabels.holds = true
  · rw [if_pos hlabels, if_pos hlabels, mapM_group, mapM_map_id, mapM_always]
    cases nodes.mapM (labelPart o shift) with
    | error e => rfl
    | ok ls => simp [if_pos hlabels, grouped]
  · rw [if_neg hlabels, if_neg hlabels]
    simp [if_neg hlabels]

/-- The parts of a layout with nodes are those of its sheet. -/
theorem parts_eq {o : Options α} {l : Layout α} (h : l.drawing.nodes ≠ []) :
    parts o l = Sheet.parts o <$> sheet o l := by
  rw [parts, figure_eq h, sheet]
  simp only [map_bind, bind_map_left]
  congr 1
  funext framed
  obtain ⟨c, placed⟩ := framed
  simp only [List.mapM_append, List.mapM_cons, List.mapM_nil, mapM_backgroundParts, mapM_boxes,
    mapM_labels, mapM_group, mapM_map_id, mapM_always, id_eq, bind_assoc, ok_bind, pure_bind,
    bind_map_left, map_pure]
  simp only [Sheet.parts, grouped, List.reduceOption_append, List.reduceOption_cons_of_some,
    reduceOption_map_some, List.reduceOption_nil, List.cons_append, List.nil_append,
    List.append_assoc]

theorem parts_of_nil {o : Options α} {l : Layout α} (h : l.drawing.nodes = []) :
    parts o l = .ok (.frame (.int 100) (.int 100) :: backing o ++ [.frameEnd]) := by
  have hfigure : figure o l = .ok (emptyFigure o) := by
    rw [figure, if_pos (by simpa using h)]
    rfl
  rw [parts, hfigure, ok_bind, emptyFigure, List.cons_append, List.mapM_cons, List.mapM_append,
    mapM_backgroundParts]
  simp [reduceOption_map_some, List.reduceOption_append, List.reduceOption_cons_of_some]

/-- A layout with nodes can be drawn when the parts of its sheet can be written. -/
theorem exists_write_iff {o : Options α} {l : Layout α} (h : l.drawing.nodes ≠ []) :
    (∃ text, write o l = .ok text) ↔
      ∃ s, sheet o l = .ok s ∧ ∀ p ∈ s.parts o, ∃ line, p.text = .ok line := by
  constructor
  · rintro ⟨text, htext⟩
    obtain ⟨ps, ls, hps, hls, -⟩ := write_eq_ok_iff.mp htext
    rw [parts_eq h] at hps
    cases hs : sheet o l with
    | error e =>
        rw [hs] at hps
        cases hps
    | ok s =>
        rw [hs] at hps
        obtain rfl := Except.ok.inj hps
        exact ⟨s, rfl, fun p hp => (exists_of_mapM hls hp).imp fun _ h => h.2⟩
  · rintro ⟨s, hs, hwritten⟩
    obtain ⟨ls, hls⟩ := exists_mapM_eq_ok hwritten
    refine ⟨_, write_eq_ok_iff.mpr ⟨s.parts o, ls, ?_, hls, rfl⟩⟩
    rw [parts_eq h, hs]
    rfl

/-- What a sheet is made of. -/
theorem sheet_eq_ok_iff {o : Options α} {l : Layout α} {s : Sheet α} :
    sheet o l = .ok s ↔ ∃ placed, framing o l = .ok (s.canvas, placed) ∧
      placed.mapM (boxPart o s.canvas.shift) = .ok s.boxes ∧
      l.drawing.links.mapM (linkPart o l.drawing.nodes s.canvas.shift) = .ok s.lines ∧
      l.drawing.nodes.mapM (nodePart o s.canvas.shift) = .ok s.shapes ∧
      drawnLabels o s.canvas.shift l.drawing.nodes = .ok s.labels := by
  constructor
  · intro h
    obtain ⟨⟨c, placed⟩, hframing, h⟩ := bind_eq_ok.mp h
    obtain ⟨boxes, hboxes, h⟩ := bind_eq_ok.mp h
    obtain ⟨lines, hlines, h⟩ := bind_eq_ok.mp h
    obtain ⟨shapes, hshapes, h⟩ := bind_eq_ok.mp h
    obtain ⟨labels, hlabels, h⟩ := bind_eq_ok.mp h
    obtain rfl := pure_eq_ok.mp h
    exact ⟨placed, hframing, hboxes, hlines, hshapes, hlabels⟩
  · rintro ⟨placed, hframing, hboxes, hlines, hshapes, hlabels⟩
    rw [sheet, hframing, ok_bind]
    dsimp only
    rw [hboxes, ok_bind, hlines, ok_bind, hshapes, ok_bind, hlabels, ok_bind]
    rfl

section Shapes

variable {o : Options α} {shift : Point (Number α)} {n : Node α} {p : Part α}

omit [Written α]

/-- The radius of the circle by which a node is drawn. -/
def circleRadius (n : Node α) (radius : Number α) : Except Fault (Number α) :=
  if n.width.holds && n.height.holds then do
    ((← n.width.number).smaller (← n.height.number)).div (.int 2)
  else .ok radius

/-- A node is drawn as a rectangle if the options say so. -/
theorem nodePart_of_rectangle (hshape : o.nodeShape.same (.text "rect") = true) :
    nodePart o shift n = .ok p ↔ ∃ q radius w h a x b y, moved shift (spot n) = .ok q ∧
      o.nodeRadius.number = .ok radius ∧ sizeOr n.width radius = .ok w ∧
      sizeOr n.height radius = .ok h ∧ w.div (.int 2) = .ok a ∧ q.x.sub a = .ok x ∧
      h.div (.int 2) = .ok b ∧ q.y.sub b = .ok y ∧
      p = .rectangle ⟨x, y⟩ w h o.nodeColor o.nodeStroke o.nodeStrokeWidth := by
  rw [nodePart]
  simp only [if_pos hshape, bind_eq_ok, pure_eq_ok, eq_comm (b := p)]
  constructor
  · rintro ⟨q, hq, radius, hradius, w, hw, h, hh, a, ha, x, hx, b, hb, y, hy, heq⟩
    exact ⟨q, radius, w, h, a, x, b, y, hq, hradius, hw, hh, ha, hx, hb, hy, heq⟩
  · rintro ⟨q, radius, w, h, a, x, b, y, hq, hradius, hw, hh, ha, hx, hb, hy, heq⟩
    exact ⟨q, hq, radius, hradius, w, hw, h, hh, a, ha, x, hx, b, hb, y, hy, heq⟩

/-- Otherwise a node is drawn as a circle. -/
theorem nodePart_of_circle (hshape : ¬ o.nodeShape.same (.text "rect") = true) :
    nodePart o shift n = .ok p ↔ ∃ q radius r, moved shift (spot n) = .ok q ∧
      o.nodeRadius.number = .ok radius ∧ circleRadius n radius = .ok r ∧
      p = .circle q r o.nodeColor o.nodeStroke o.nodeStrokeWidth := by
  have hread : nodePart o shift n = (do
      let q ← moved shift (spot n)
      let radius ← o.nodeRadius.number
      let r ← circleRadius n radius
      return .circle q r o.nodeColor o.nodeStroke o.nodeStrokeWidth) := by
    rw [nodePart]
    simp only [if_neg hshape, circleRadius]
    by_cases hsized : (n.width.holds && n.height.holds) = true
    · simp only [if_pos hsized, bind_assoc]
    · simp only [if_neg hsized, ok_bind, pure_bind]
  rw [hread]
  simp only [bind_eq_ok, pure_eq_ok, eq_comm (b := p)]
  constructor
  · rintro ⟨q, hq, radius, hradius, r, hr, heq⟩
    exact ⟨q, radius, r, hq, hradius, hr, heq⟩
  · rintro ⟨q, radius, r, hq, hradius, hr, heq⟩
    exact ⟨q, hq, radius, hradius, r, hr, heq⟩

end Shapes

section Elements

/-- The name of the element that a part is or begins. -/
def Part.element : Part α → Option String
  | frame .. => some "svg"
  | background _ | box .. | rectangle .. => some "rect"
  | groupStart _ => some "g"
  | polyline .. => some "polyline"
  | circle .. => some "circle"
  | label .. => some "text"
  | groupEnd | frameEnd => none

/-- The name of the elements by which nodes are drawn. -/
def Options.shape (o : Options α) : String :=
  if o.nodeShape.same (.text "rect") then "rect" else "circle"

variable {o : Options α} {shift : Point (Number α)} {p : Part α}

omit [Written α]

theorem exists_of_boxPart {b : PlacedBox} (h : boxPart o shift b = .ok p) :
    ∃ corner width height, p = .box corner width height o.boxColor := by
  obtain ⟨x, _, h⟩ := bind_eq_ok.mp h
  obtain ⟨y, _, h⟩ := bind_eq_ok.mp h
  exact ⟨_, _, _, (pure_eq_ok.mp h).symm⟩

/-- Whether a link can be drawn from or to an end: it has an index, which does not lie behind the
last node. -/
def reaches (nodes : List (Node α)) (e : Endpoint α) : Bool :=
  match drawnIndex nodes e with
  | .ok (some v) =>
    match beyond nodes v with
    | .ok b => !b
    | .error _ => false
  | _ => false

/-- Whether a link is drawn. -/
def isDrawn (nodes : List (Node α)) (k : Link α) : Bool :=
  reaches nodes k.source && reaches nodes k.target

/-- A link that is drawn is a line, and of any other there is no part. -/
theorem of_linkPart {nodes : List (Node α)} {k : Link α} {drawn : Option (Part α)}
    (h : linkPart o nodes shift k = .ok drawn) :
    drawn.isSome = isDrawn nodes k ∧
      ∀ p, drawn = some p → ∃ points, p = .polyline points o.edgeColor o.edgeWidth := by
  obtain ⟨source, hsource, h⟩ := bind_eq_ok.mp h
  obtain ⟨target, htarget, h⟩ := bind_eq_ok.mp h
  rw [isDrawn, reaches, reaches, hsource, htarget]
  cases source with
  | none =>
      obtain rfl := pure_eq_ok.mp h
      exact ⟨rfl, nofun⟩
  | some s =>
      cases target with
      | none =>
          obtain rfl := pure_eq_ok.mp h
          exact ⟨(Bool.and_false _).symm, nofun⟩
      | some t =>
          obtain ⟨behind, hs, h⟩ := bind_eq_ok.mp h
          dsimp only
          rw [hs]
          cases behind with
          | true =>
              obtain rfl := pure_eq_ok.mp h
              exact ⟨rfl, nofun⟩
          | false =>
              obtain ⟨behind, ht, h⟩ := bind_eq_ok.mp h
              rw [ht]
              cases behind with
              | true =>
                  obtain rfl := pure_eq_ok.mp h
                  exact ⟨rfl, nofun⟩
              | false =>
                  obtain ⟨first, _, h⟩ := bind_eq_ok.mp h
                  obtain ⟨last, _, h⟩ := bind_eq_ok.mp h
                  obtain ⟨points, _, h⟩ := bind_eq_ok.mp h
                  obtain rfl := pure_eq_ok.mp h
                  refine ⟨rfl, ?_⟩
                  rintro p hp
                  exact ⟨points, (Option.some.inj hp).symm⟩

theorem exists_of_nodePart {n : Node α} (h : nodePart o shift n = .ok p) :
    p.element = some o.shape ∧
      ((∃ corner width height,
          p = .rectangle corner width height o.nodeColor o.nodeStroke o.nodeStrokeWidth) ∨
        ∃ centre radius, p = .circle centre radius o.nodeColor o.nodeStroke o.nodeStrokeWidth) := by
  rw [Options.shape]
  by_cases hshape : o.nodeShape.same (.text "rect") = true
  · obtain ⟨_, _, _, _, _, _, _, _, _, _, _, _, _, _, _, _, rfl⟩ :=
      (nodePart_of_rectangle hshape).mp h
    rw [if_pos hshape]
    exact ⟨rfl, Or.inl ⟨_, _, _, rfl⟩⟩
  · obtain ⟨_, _, _, _, _, _, rfl⟩ := (nodePart_of_circle hshape).mp h
    rw [if_neg hshape]
    exact ⟨rfl, Or.inr ⟨_, _, rfl⟩⟩

theorem exists_of_labelPart [Written α] {n : Node α} (h : labelPart o shift n = .ok p) :
    ∃ centre, p = .label centre o.labelColor o.fontSize o.fontFamily (labelText n) := by
  obtain ⟨q, _, h⟩ := bind_eq_ok.mp h
  exact ⟨q, (pure_eq_ok.mp h).symm⟩

theorem mem_of_drawnLabels [Written α] {nodes : List (Node α)} {ls : List (Part α)}
    (h : drawnLabels o shift nodes = .ok ls) (hp : p ∈ ls) :
    ∃ n ∈ nodes, labelPart o shift n = .ok p := by
  rw [drawnLabels] at h
  by_cases hshown : o.showLabels.holds = true
  · rw [if_pos hshown] at h
    exact (mem_iff_of_mapM h).mp hp
  · rw [if_neg hshown] at h
    obtain rfl := Except.ok.inj h
    cases hp

/-- Each kind of parts is drawn by one kind of elements. -/
structure Sheet.Sorted (o : Options α) (s : Sheet α) : Prop where
  boxes : ∀ p ∈ s.boxes, p.element = some "rect"
  lines : ∀ p ∈ s.lines.reduceOption, p.element = some "polyline"
  shapes : ∀ p ∈ s.shapes, p.element = some o.shape
  labels : ∀ p ∈ s.labels, p.element = some "text"

theorem sorted_of_sheet [Written α] {l : Layout α} {s : Sheet α} (h : sheet o l = .ok s) :
    s.Sorted o := by
  obtain ⟨placed, _, hboxes, hlines, hshapes, hlabels⟩ := sheet_eq_ok_iff.mp h
  refine { boxes := ?_, lines := ?_, shapes := ?_, labels := ?_ }
  · intro p hp
    obtain ⟨_, _, h⟩ := (mem_iff_of_mapM hboxes).mp hp
    obtain ⟨_, _, _, rfl⟩ := exists_of_boxPart h
    rfl
  · intro p hp
    obtain ⟨_, _, h⟩ := (mem_iff_of_mapM hlines).mp (List.reduceOption_mem_iff.mp hp)
    obtain ⟨_, rfl⟩ := (of_linkPart h).2 p rfl
    rfl
  · intro p hp
    obtain ⟨_, _, h⟩ := (mem_iff_of_mapM hshapes).mp hp
    exact (exists_of_nodePart h).1
  · intro p hp
    obtain ⟨_, _, h⟩ := mem_of_drawnLabels hlabels hp
    obtain ⟨_, rfl⟩ := exists_of_labelPart h
    rfl

end Elements

end PackedDrawing.Svg
