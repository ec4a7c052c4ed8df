import PackedDrawing.Proofs.Svg.Pieces

/-!
# Figures are well-formed

As long as no text of the options ends the value of its attribute, a figure is a well-formed
document: it is read back as the pieces of its parts, in which each text stands as it is, and which
elements there are does not depend on the texts. Labels may hold any characters that documents may
contain.

## Main definitions

* `Svg.Options.Intact`: options whose texts do not end the values of attributes.
* `Svg.outline`: the elements of a figure.

## Main statements

* `Svg.write_intact`: a figure with such options is read back as it was meant.
* `Svg.quote_ends_value`: a quote in a colour ends the value of its attribute.
-/

namespace PackedDrawing.Svg

open Markup (Piece PlainNumerals)

variable {α : Type}

/-- Options whose texts do not end the values of attributes, and whose widths and sizes are
numbers. -/
structure Options.Intact (o : Options α) : Prop where
  nodeColor : o.nodeColor.Quotable
  nodeStroke : o.nodeStroke.Quotable
  edgeColor : o.edgeColor.Quotable
  labelColor : o.labelColor.Quotable
  fontFamily : o.fontFamily.Quotable
  boxColor : o.boxColor.Quotable
  background : o.background.Quotable
  nodeStrokeWidth : o.nodeStrokeWidth.IsNumber
  edgeWidth : o.edgeWidth.IsNumber
  fontSize : o.fontSize.IsNumber

/-- The elements of a figure in the order in which they begin. -/
def outline (backed labelled : Bool) (shape : String) (boxes lines nodes : Nat) : List String :=
  "svg" :: (if backed then ["rect"] else [])
    ++ if nodes = 0 then []
      else (if boxes = 0 then [] else "g" :: List.replicate boxes "rect")
        ++ "g" :: List.replicate lines "polyline" ++ "g" :: List.replicate nodes shape
        ++ if labelled then "g" :: List.replicate nodes "text" else []

variable [Scalar α] [Written α]

/-- Parts that stand in a frame: they survive being written, end all elements that they begin, and
are drawn by the given elements, with the given texts of labels. -/
structure Framed (ps : List (Part α)) (names captions : List String) : Prop where
  intact : ∀ p ∈ ps, p.Intact
  lead : ∀ p ∈ ps, p.lead = "\n"
  balanced : ∀ qs, ps.mapM Part.pieces = .ok qs → Markup.Balanced qs.flatten
  elements : ps.filterMap Part.element = names
  captions : ps.filterMap Part.caption = captions

namespace Framed

variable {ps qs : List (Part α)} {names names' captions captions' : List String}

theorem nil : Framed ([] : List (Part α)) [] [] where
  intact := nofun
  lead := nofun
  balanced := by
    intro qs h
    obtain rfl := Except.ok.inj h
    exact Markup.balanced_nil
  elements := rfl
  captions := rfl

theorem append (hps : Framed ps names captions) (hqs : Framed qs names' captions') :
    Framed (ps ++ qs) (names ++ names') (captions ++ captions') where
  intact := List.forall_mem_append.mpr ⟨hps.intact, hqs.intact⟩
  lead := List.forall_mem_append.mpr ⟨hps.lead, hqs.lead⟩
  balanced := by
    intro rs h
    rw [List.mapM_append] at h
    obtain ⟨first, hfirst, h⟩ := bind_eq_ok.mp h
    obtain ⟨last, hlast, h⟩ := bind_eq_ok.mp h
    obtain rfl := pure_eq_ok.mp h
    rw [List.flatten_append]
    exact Markup.balanced_append (hps.balanced first hfirst) (hqs.balanced last hlast)
  elements := by rw [List.filterMap_append, hps.elements, hqs.elements]
  captions := by rw [List.filterMap_append, hps.captions, hqs.captions]

/-- Parts of a group. -/
theorem grouped {name : String} (hname : Markup.Plain name) (h : Framed ps names captions) :
    Framed (grouped name ps) ("g" :: names) captions where
  intact := by
    intro p hp
    rcases mem_grouped.mp hp with rfl | hp | rfl
    · exact hname
    · exact h.intact p hp
    · trivial
  lead := by
    intro p hp
    rcases mem_grouped.mp hp with rfl | hp | rfl
    · rfl
    · exact h.lead p hp
    · rfl
  balanced := by
    intro rs hrs
    rw [Svg.grouped, List.mapM_append, List.mapM_cons] at hrs
    obtain ⟨front, hfront, hrs⟩ := bind_eq_ok.mp hrs
    obtain ⟨last, hlast, hrs⟩ := bind_eq_ok.mp hrs
    obtain ⟨first, hfirst, hfront⟩ := bind_eq_ok.mp hfront
    obtain ⟨middle, hmiddle, hfront⟩ := bind_eq_ok.mp hfront
    obtain rfl := pure_eq_ok.mp hrs
    obtain rfl := pure_eq_ok.mp hfront
    obtain rfl := Except.ok.inj hfirst
    obtain rfl := Except.ok.inj hlast
    have hgroup : Markup.Balanced ((Part.groupStart name : Part α).piece [⟨"class", name⟩] ::
        middle.flatten ++ [(Part.groupEnd : Part α).piece []]) :=
      Markup.balanced_around rfl (h.balanced middle hmiddle) rfl rfl
    simpa [Part.ending] using hgroup
  elements := by
    rw [Svg.grouped, List.filterMap_append, List.filterMap_cons, h.elements]
    exact List.append_nil _
  captions := by
    rw [Svg.grouped, List.filterMap_append, List.filterMap_cons, h.captions]
    exact List.append_nil _

/-- Parts that are elements of one kind. -/
theorem of_element {n : String} (hintact : ∀ p ∈ ps, p.Intact)
    (helement : ∀ p ∈ ps, p.element = some n) (hn : n ∉ ["svg", "g"]) :
    Framed ps (List.replicate ps.length n) (ps.filterMap Part.caption) where
  intact := hintact
  lead := fun p hp => lead_of_element (helement p hp) fun h => hn (h ▸ List.mem_cons_self)
  balanced := by
    intro rs h
    apply Markup.balanced_flatten
    intro qs hqs
    obtain ⟨p, hp, hpieces⟩ := (mem_iff_of_mapM h).mp hqs
    exact balanced_pieces hpieces (helement p hp) hn
  elements := by
    rw [List.filterMap_congr (g := fun _ => some n) helement, List.filterMap_eq_map',
      List.map_const']
  captions := rfl

/-- Parts that are elements of one kind, and no labels. -/
theorem of_unlabelled {n : String} (hintact : ∀ p ∈ ps, p.Intact)
    (helement : ∀ p ∈ ps, p.element = some n) (hn : n ∉ ["svg", "g", "text"]) :
    Framed ps (List.replicate ps.length n) [] := by
  have hcaptions : ps.filterMap Part.caption = [] := List.filterMap_eq_nil_iff.mpr fun p hp =>
    caption_of_element (helement p hp) fun h => hn (by simp [h])
  rw [← hcaptions]
  exact of_element hintact helement fun h => hn (by
    rcases List.mem_pair.mp h with rfl | rfl <;> decide)

end Framed

section Sheets

variable {o : Options α} {l : Layout α} {s : Sheet α}

/-- The parts of a sheet between the tags of its frame. -/
def Sheet.inside (o : Options α) (s : Sheet α) : List (Part α) :=
  backing o ++ (if s.boxes.isEmpty then [] else grouped "components" s.boxes)
    ++ grouped "edges" s.lines.reduceOption ++ grouped "nodes" s.shapes
    ++ (if o.showLabels.holds then grouped "labels" s.labels else [])

omit [Written α] in
theorem Sheet.parts_eq_cons : s.parts o =
    .frame s.canvas.width s.canvas.height :: s.inside o ++ [.frameEnd] := by
  simp only [Sheet.parts, Sheet.inside, List.cons_append, List.append_assoc]

theorem framed_backing (ho : o.Intact) :
    Framed (backing o) (if o.background.holds then ["rect"] else []) [] := by
  rw [backing]
  split
  · exact Framed.of_unlabelled (n := "rect") (List.forall_mem_singleton.mpr ho.background)
      (List.forall_mem_singleton.mpr rfl) (by decide)
  · exact Framed.nil

omit [Written α] in
/-- As many lines are drawn as there are links that are drawn. -/
theorem length_lines {shift : Point (Number α)} {nodes : List (Node α)} {ks : List (Link α)}
    {drawn : List (Option (Part α))} (h : ks.mapM (linkPart o nodes shift) = .ok drawn) :
    drawn.reduceOption.length = ks.countP (isDrawn nodes) := by
  have hdrawn := mapM_eq_ok_iff.mp h
  clear h
  induction hdrawn with
  | nil => rfl
  | @cons k d ks drawn hd _ ih =>
      have hsome := (of_linkPart hd).1
      cases d with
      | none =>
          rw [List.reduceOption_cons_of_none, ih, List.countP_cons_of_neg (by simp [← hsome])]
      | some p =>
          rw [List.reduceOption_cons_of_some, List.length_cons, ih,
            List.countP_cons_of_pos (by simp [← hsome])]

/-- The labels have the texts of the nodes. -/
theorem captions_of_labels {shift : Point (Number α)} {nodes : List (Node α)}
    {labels : List (Part α)} (h : nodes.mapM (labelPart o shift) = .ok labels) :
    labels.filterMap Part.caption = nodes.map labelText := by
  have hlabels := mapM_eq_ok_iff.mp h
  clear h
  induction hlabels with
  | nil => rfl
  | cons hlabel _ ih =>
      obtain ⟨_, rfl⟩ := exists_of_labelPart hlabel
      rw [List.filterMap_cons, List.map_cons, ← ih]
      rfl

omit [Written α] in
theorem drawnBoxes_of_framing {c : Canvas α} {placed : List PlacedBox}
    (h : framing o l = .ok (c, placed)) : drawnBoxes o l = .ok placed := by
  obtain ⟨_, _, h⟩ := bind_eq_ok.mp h
  obtain ⟨_, _, h⟩ := bind_eq_ok.mp h
  obtain ⟨_, _, h⟩ := bind_eq_ok.mp h
  obtain ⟨boxes, hboxes, h⟩ := bind_eq_ok.mp h
  obtain ⟨_, _, h⟩ := bind_eq_ok.mp h
  obtain ⟨_, _, h⟩ := bind_eq_ok.mp h
  rw [hboxes, (Prod.mk.inj (pure_eq_ok.mp h)).2]

/-- The parts of a sheet survive being written. -/
structure Sheet.Intact (s : Sheet α) : Prop where
  boxes : ∀ p ∈ s.boxes, p.Intact
  lines : ∀ p ∈ s.lines.reduceOption, p.Intact
  shapes : ∀ p ∈ s.shapes, p.Intact
  labels : ∀ p ∈ s.labels, p.Intact

theorem intact_of_sheet (ho : o.Intact) (hl : ∀ n ∈ l.drawing.nodes, Markup.Allowed (labelText n))
    (hs : sheet o l = .ok s) : s.Intact := by
  obtain ⟨placed, _, hboxes, hlines, hshapes, hlabels⟩ := sheet_eq_ok_iff.mp hs
  refine { boxes := ?_, lines := ?_, shapes := ?_, labels := ?_ }
  · intro p hp
    obtain ⟨_, _, h⟩ := (mem_iff_of_mapM hboxes).mp hp
    obtain ⟨_, _, _, rfl⟩ := exists_of_boxPart h
    exact ho.boxColor
  · intro p hp
    obtain ⟨_, _, h⟩ := (mem_iff_of_mapM hlines).mp (List.reduceOption_mem_iff.mp hp)
    obtain ⟨_, rfl⟩ := (of_linkPart h).2 p rfl
    exact ⟨ho.edgeColor, ho.edgeWidth⟩
  · intro p hp
    obtain ⟨_, _, h⟩ := (mem_iff_of_mapM hshapes).mp hp
    obtain ⟨_, ⟨_, _, _, rfl⟩ | ⟨_, _, rfl⟩⟩ := exists_of_nodePart h
    · exact ⟨ho.nodeColor, ho.nodeStroke, ho.nodeStrokeWidth⟩
    · exact ⟨ho.nodeColor, ho.nodeStroke, ho.nodeStrokeWidth⟩
  · intro p hp
    obtain ⟨n, hn, h⟩ := mem_of_drawnLabels hlabels hp
    obtain ⟨_, rfl⟩ := exists_of_labelPart h
    exact ⟨ho.labelColor, ho.fontSize, ho.fontFamily, hl n hn⟩

/-- What stands in the frame of a figure with nodes. -/
theorem framed_sheet (ho : o.Intact) (hl : ∀ n ∈ l.drawing.nodes, Markup.Allowed (labelText n))
    (hnodes : l.drawing.nodes ≠ []) (hs : sheet o l = .ok s) :
    ∃ placed, drawnBoxes o l = .ok placed ∧
      Framed (s.inside o)
        (outline o.background.holds o.showLabels.holds o.shape placed.length
          (l.drawing.links.countP (isDrawn l.drawing.nodes)) l.drawing.nodes.length).tail
        (if o.showLabels.holds then l.drawing.nodes.map labelText else []) := by
  obtain ⟨placed, hframing, hboxes, hlines, hshapes, hlabels⟩ := sheet_eq_ok_iff.mp hs
  have hintact := intact_of_sheet ho hl hs
  have hsorted := sorted_of_sheet hs
  have hcount : placed.length = s.boxes.length := (mapM_eq_ok_iff.mp hboxes).length_eq
  have hboxGroup : Framed (if s.boxes.isEmpty then [] else grouped "components" s.boxes)
      (if placed.length = 0 then [] else "g" :: List.replicate placed.length "rect") [] := by
    rw [hcount]
    cases hempty : s.boxes with
    | nil => exact Framed.nil
    | cons p ps =>
        rw [← hempty, if_neg (by simp [hempty]), if_neg (by simp [hempty])]
        exact (Framed.of_unlabelled hintact.boxes hsorted.boxes (by decide)).grouped (by decide)
  have hlineGroup : Framed (grouped "edges" s.lines.reduceOption)
      ("g" :: List.replicate (l.drawing.links.countP (isDrawn l.drawing.nodes)) "polyline") [] := by
    rw [← length_lines hlines]
    exact (Framed.of_unlabelled hintact.lines hsorted.lines (by decide)).grouped (by decide)
  have hshapeGroup : Framed (grouped "nodes" s.shapes)
      ("g" :: List.replicate l.drawing.nodes.length o.shape) [] := by
    have hshape : o.shape ∉ ["svg", "g", "text"] := by
      rw [Options.shape]
      split <;> decide
    rw [(mapM_eq_ok_iff.mp hshapes).length_eq]
    exact (Framed.of_unlabelled hintact.shapes hsorted.shapes hshape).grouped (by decide)
  have hlabelGroup : Framed (if o.showLabels.holds then grouped "labels" s.labels else [])
      (if o.showLabels.holds then "g" :: List.replicate l.drawing.nodes.length "text" else [])
      (if o.showLabels.holds then l.drawing.nodes.map labelText else []) := by
    rw [drawnLabels] at hlabels
    by_cases hshown : o.showLabels.holds = true
    · rw [if_pos hshown] at hlabels
      rw [if_pos hshown, if_pos hshown, if_pos hshown, ← captions_of_labels hlabels,
        (mapM_eq_ok_iff.mp hlabels).length_eq]
      exact (Framed.of_element hintact.labels hsorted.labels (by decide)).grouped (by decide)
    · rw [if_neg hshown, if_neg hshown, if_neg hshown]
      exact Framed.nil
  have hframed := ((((framed_backing ho).append hboxGroup).append hlineGroup).append
    hshapeGroup).append hlabelGroup
  refine ⟨placed, drawnBoxes_of_framing hframing, ?_⟩
  have hlength : ¬ l.drawing.nodes.length = 0 := by simpa using hnodes
  rw [outline, if_neg hlength, List.cons_append, List.tail_cons]
  simpa only [Sheet.inside, List.append_assoc, List.nil_append] using hframed

end Sheets

section Documents

variable {o : Options α} {l : Layout α} {ps : List (Part α)} {ls : List String} {text : String}
  {names captions : List String}

/-- What is read off the pieces of each part is read off the pieces of all of them. -/
theorem filterMap_of_pieces {β : Type} {f : Piece → Option β} {g : Part α → Option β}
    {qs : List (List Piece)} (hfg : ∀ p q, p.pieces = .ok q → q.filterMap f = (g p).toList)
    (h : ps.mapM Part.pieces = .ok qs) : qs.flatten.filterMap f = ps.filterMap g := by
  have hpieces := mapM_eq_ok_iff.mp h
  clear h
  induction hpieces with
  | nil => rfl
  | @cons p q ps qs hp _ ih =>
      rw [List.flatten_cons, List.filterMap_append, hfg p q hp, ih, List.filterMap_cons]
      cases g p <;> rfl

theorem intercalate_cons (line : String) (ls : List String) :
    "\n".intercalate (line :: ls) = line ++ String.join (ls.map fun next => "\n" ++ next) := by
  induction ls generalizing line with
  | nil => simp
  | cons next ls ih =>
      rw [String.intercalate_cons_cons, ih, List.map_cons, String.join_cons]
      simp only [String.append_assoc]

variable [PlainNumerals α]

/-- Parts that each begin a line are written as their pieces are. -/
theorem pieces_of_lines (hps : ∀ p ∈ ps, p.Intact) (hlead : ∀ p ∈ ps, p.lead = "\n")
    (h : ps.mapM Part.text = .ok ls) :
    ∃ qs, ps.mapM Part.pieces = .ok qs ∧
      String.join (ls.map fun line => "\n" ++ line) = String.join (qs.flatten.map Piece.text) ∧
      ∀ q ∈ qs.flatten, q.Clean := by
  have hlines := mapM_eq_ok_iff.mp h
  clear h
  induction hlines with
  | nil => exact ⟨[], rfl, rfl, nofun⟩
  | @cons p line ps ls hline _ ih =>
      obtain ⟨q, hq, htext, hclean⟩ := pieces_of_text (hps p List.mem_cons_self) hline
      obtain ⟨qs, hqs, htexts, hcleans⟩ := ih (fun p' hp' => hps p' (List.mem_cons_of_mem p hp'))
        fun p' hp' => hlead p' (List.mem_cons_of_mem p hp')
      rw [hlead p List.mem_cons_self] at htext
      refine ⟨q :: qs, ?_, ?_, ?_⟩
      · rw [List.mapM_cons, hq, ok_bind, hqs]
        rfl
      · rw [List.map_cons, String.join_cons, htext, htexts, List.flatten_cons, List.map_append,
          String.join_append]
      · rw [List.flatten_cons]
        exact List.forall_mem_append.mpr ⟨hclean, hcleans⟩

/-- The parts of a figure around those in its frame. -/
def enclosed (width height : Number α) (ps : List (Part α)) : List (Part α) :=
  .frame width height :: ps ++ [.frameEnd]

omit [PlainNumerals α] in
/-- The pieces of a figure are those of a document. -/
theorem isDocument_of_framed {width height : Number α} {qs : List (List Piece)}
    (h : Framed ps names captions) (hqs : (enclosed width height ps).mapM Part.pieces = .ok qs) :
    Markup.isDocument qs.flatten = true := by
  rw [enclosed, List.cons_append, List.mapM_cons, List.mapM_append] at hqs
  obtain ⟨front, hfront, hqs⟩ := bind_eq_ok.mp hqs
  obtain ⟨rest, hrest, hqs⟩ := bind_eq_ok.mp hqs
  obtain ⟨middle, hmiddle, hrest⟩ := bind_eq_ok.mp hrest
  obtain ⟨last, hlast, hrest⟩ := bind_eq_ok.mp hrest
  obtain ⟨as, _, hfront⟩ := bind_eq_ok.mp hfront
  obtain rfl := pure_eq_ok.mp hqs
  obtain rfl := pure_eq_ok.mp hrest
  obtain rfl := pure_eq_ok.mp hfront
  obtain rfl := Except.ok.inj hlast
  have hdocument : Markup.isDocument ((Part.frame width height).piece as :: middle.flatten ++
      [(Part.frameEnd : Part α).piece []]) = true :=
    Markup.isDocument_around rfl rfl (h.balanced middle hmiddle) rfl rfl
  simpa [Part.ending] using hdocument

/-- Parts in a frame are written as a document. -/
theorem document_of_framed {width height : Number α} (h : Framed ps names captions)
    (hls : (enclosed width height ps).mapM Part.text = .ok ls) :
    ∃ qs, (enclosed width height ps).mapM Part.pieces = .ok qs ∧
      Markup.document? ("\n".intercalate ls) = some qs.flatten ∧
      qs.flatten.filterMap Piece.element = "svg" :: names ∧
      qs.flatten.filterMap content = captions := by
  rw [enclosed, List.cons_append, List.mapM_cons] at hls
  obtain ⟨line, hline, hls⟩ := bind_eq_ok.mp hls
  obtain ⟨lines, hlines, hls⟩ := bind_eq_ok.mp hls
  obtain rfl := pure_eq_ok.mp hls
  obtain ⟨q, hq, htext, hclean⟩ := pieces_of_text (p := .frame width height) trivial hline
  have hend : (Part.frameEnd : Part α).Intact := trivial
  obtain ⟨qs, hqs, htexts, hcleans⟩ := pieces_of_lines
    (List.forall_mem_append.mpr ⟨h.intact, List.forall_mem_singleton.mpr hend⟩)
    (List.forall_mem_append.mpr ⟨h.lead, List.forall_mem_singleton.mpr rfl⟩) hlines
  have hpieces : (enclosed width height ps).mapM Part.pieces = .ok (q :: qs) := by
    rw [enclosed, List.cons_append, List.mapM_cons, hq, ok_bind, hqs]
    rfl
  have hwritten : "\n".intercalate (line :: lines) =
      String.join ((q :: qs).flatten.map Piece.text) := by
    rw [intercalate_cons, htexts, List.flatten_cons, List.map_append, String.join_append, ← htext]
    rfl
  refine ⟨q :: qs, hpieces, ?_, ?_, ?_⟩
  · rw [hwritten]
    exact Markup.document?_join (List.forall_mem_append.mpr ⟨hclean, hcleans⟩)
      (isDocument_of_framed h hpieces)
  · rw [filterMap_of_pieces (fun _ _ => element_of_pieces) hpieces, ← h.elements]
    rw [enclosed, List.cons_append, List.filterMap_cons, List.filterMap_append]
    exact congrArg (List.cons "svg") (List.append_nil _)
  · rw [filterMap_of_pieces (fun _ _ => content_of_pieces) hpieces, ← h.captions]
    rw [enclosed, List.cons_append, List.filterMap_cons, List.filterMap_append]
    exact List.append_nil _

omit [PlainNumerals α] in
/-- The parts of a figure in its frame. -/
theorem exists_framed (ho : o.Intact) (hl : ∀ n ∈ l.drawing.nodes, Markup.Allowed (labelText n))
    (hps : parts o l = .ok ps) :
    ∃ width height inside placed, ps = enclosed width height inside ∧
      (l.drawing.nodes ≠ [] → drawnBoxes o l = .ok placed) ∧
      Framed inside
        (outline o.background.holds o.showLabels.holds o.shape placed.length
          (l.drawing.links.countP (isDrawn l.drawing.nodes)) l.drawing.nodes.length).tail
        (if o.showLabels.holds then l.drawing.nodes.map labelText else []) := by
  by_cases hnodes : l.drawing.nodes = []
  · rw [parts_of_nil hnodes] at hps
    refine ⟨.int 100, .int 100, backing o, [], (Except.ok.inj hps).symm, absurd hnodes, ?_⟩
    simpa [outline, hnodes] using framed_backing ho
  · rw [parts_eq hnodes] at hps
    cases hs : sheet o l with
    | error e =>
        rw [hs] at hps
        cases hps
    | ok s =>
        rw [hs] at hps
        obtain ⟨placed, hplaced, hframed⟩ := framed_sheet ho hl hnodes hs
        exact ⟨_, _, s.inside o, placed, (Except.ok.inj hps).symm.trans s.parts_eq_cons,
          fun _ => hplaced, hframed⟩

/-- A figure whose options have no text that ends the value of an attribute is read back: it is a
well-formed document of the pieces of its parts, in which each text of the options is the whole
value of its attribute. Its elements do not depend on the texts, and the labels that are shown have
the texts of the nodes as their whole contents. -/
theorem write_intact (ho : o.Intact) (hl : ∀ n ∈ l.drawing.nodes, Markup.Allowed (labelText n))
    (h : write o l = .ok text) :
    ∃ ps qs placed, parts o l = .ok ps ∧ ps.mapM Part.pieces = .ok qs ∧
      Markup.document? text = some qs.flatten ∧
      (l.drawing.nodes ≠ [] → drawnBoxes o l = .ok placed) ∧
      qs.flatten.filterMap Piece.element =
        outline o.background.holds o.showLabels.holds o.shape placed.length
          (l.drawing.links.countP (isDrawn l.drawing.nodes)) l.drawing.nodes.length ∧
      qs.flatten.filterMap content =
        if o.showLabels.holds then l.drawing.nodes.map labelText else [] := by
  obtain ⟨ps, ls, hps, hls, rfl⟩ := write_eq_ok_iff.mp h
  obtain ⟨width, height, inside, placed, rfl, hplaced, hframed⟩ := exists_framed ho hl hps
  obtain ⟨qs, hqs, hdocument, helements, hcaptions⟩ := document_of_framed hframed hls
  exact ⟨_, qs, placed, hps, hqs, hdocument, hplaced, helements, hcaptions⟩

end Documents

section Texts

/-- A layout of two linked nodes a hundred units apart, with labels. -/
def labelledPair (first second : String) : Layout Float :=
  let node (i : Int) (x : Float) (label : String) : Node Float :=
    { index := .int i, x := .real x, y := .real 0.0, z := .real 0.0, width := .null
      height := .null, extras := [("label", .text label)] }
  let link : Link Float :=
    { source := .member 0, target := .value (.int 1), length := .null, weight := .null
      bends := [], extras := [] }
  { method := .ring Ring.plain
    board := { drawing :=
      { nodes := [node 0 0.0 first, node 1 100.0 second], links := [link] } } }

/-- Colours and a font with characters that begin and end tags and entities. -/
def markedUp : Options Float :=
  { Options.usual with
    nodeColor := .text "url(#a&b)"
    fontFamily := .text "<Sans> & 'Serif'"
    background := .text "&quot;" }

/-- Labels may hold quotes and tags. -/
theorem write_intact_tagInLabel :
    markedUp.Intact ∧
      (∀ n ∈ (labelledPair "</text><b c=\"d\">" "").drawing.nodes, Markup.Allowed (labelText n)) ∧
      ∃ text ds, write markedUp (labelledPair "</text><b c=\"d\">" "") = .ok text ∧
        Markup.document? text = some ds ∧
        ds.filterMap Piece.element =
          ["svg", "rect", "g", "polyline", "g", "circle", "circle", "g", "text", "text"] ∧
        ds.filterMap content = ["</text><b c=\"d\">", ""] := by
  have ho : markedUp.Intact :=
    { nodeColor := by rintro _ ⟨⟩; decide
      nodeStroke := by rintro _ ⟨⟩; decide
      edgeColor := by rintro _ ⟨⟩; decide
      labelColor := by rintro _ ⟨⟩; decide
      fontFamily := by rintro _ ⟨⟩; decide
      boxColor := by rintro _ ⟨⟩; decide
      background := by rintro _ ⟨⟩; decide
      nodeStrokeWidth := ⟨_, rfl⟩
      edgeWidth := ⟨_, rfl⟩
      fontSize := ⟨_, rfl⟩ }
  have hl : ∀ n ∈ (labelledPair "</text><b c=\"d\">" "").drawing.nodes,
      Markup.Allowed (labelText n) := by
    intro n hn
    rcases List.mem_pair.mp hn with rfl | rfl
    · exact (by decide : Markup.Allowed "</text><b c=\"d\">")
    · exact (by decide : Markup.Allowed "")
  obtain ⟨text, htext⟩ : ∃ text, write markedUp (labelledPair "</text><b c=\"d\">" "") = .ok text :=
    ⟨_, rfl⟩
  obtain ⟨ps, qs, placed, _, _, hdocument, hplaced, helements, hcontents⟩ :=
    write_intact ho hl htext
  obtain rfl := Except.ok.inj (hplaced (List.cons_ne_nil _ _))
  exact ⟨ho, hl, text, qs.flatten, htext, hdocument, helements, hcontents⟩

/-- A layout without nodes. -/
def blank : Layout Float :=
  { method := .ring Ring.plain, board := { drawing := { nodes := [], links := [] } } }

/-- The usual options on a background. -/
def backedBy (colour : String) : Options Float :=
  { Options.usual with background := .text colour }

set_option maxRecDepth 100000 in
/-- Quotes are not escaped: with one in a colour, what follows it is read as an attribute of its
own, or the figure is no well-formed document at all. -/
theorem quote_ends_value :
    Markup.Allowed "red\" onload=\"x" ∧ Markup.Allowed "red\"" ∧
      (∃ text ds, write (backedBy "red\" onload=\"x") blank = .ok text ∧
        Markup.document? text = some ds ∧
        ds.map Piece.tag = [frameTag "100.0" "100.0",
          ⟨"rect", [⟨"width", "100%"⟩, ⟨"height", "100%"⟩, ⟨"fill", "red"⟩, ⟨"onload", "x"⟩]⟩,
          ⟨"svg", []⟩]) ∧
      ∃ text, write (backedBy "red\"") blank = .ok text ∧ Markup.document? text = none :=
  ⟨by decide, by decide, ⟨_, _, rfl, rfl, rfl⟩, _, rfl, rfl⟩

end Texts

end PackedDrawing.Svg
