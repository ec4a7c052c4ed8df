import PackedDrawing.Proofs.Svg.Ends

/-!
# The lines of links

A link is drawn as a line from its source through its bends to its target, and so a figure has the
lines of the links that join two nodes. What else there is in a figure does not depend on the ends
of links, which is said by a comparison with the same layout, its links loosened at both ends.

## Main definitions

* `Link.loose`, `Layout.loosened`: links with the same bends that are not drawn.
* `Svg.Writable`: a point of a line can be moved and written.
* `Svg.Part.isLine`: a part is written as a line.

## Main statements

* `Svg.exists_write_loosened_iff`: links cannot make a figure fail by their ends.
* `Svg.write_lines`: the lines of a figure are those of the links between nodes, in order.
-/

namespace PackedDrawing

namespace Link

variable {α : Type}

/-- A link with the same bends, at both of whose ends is a node without an index. -/
def loose (k : Link α) : Link α :=
  { k with source := .value (.thing (some .null)), target := .value (.thing (some .null)) }

end Link

namespace Svg

variable {α : Type} [Scalar α] {nodes : List (Node α)} {o : Options α} {shift : Point (Number α)}

/-- Loosening a link at both ends leaves nothing to be drawn of it. -/
theorem linkPart_loose (k : Link α) : linkPart o nodes shift k.loose = .ok none := rfl

section Written

variable [Written α] {q : Point (Number α)}

/-- A point of a line can be moved and written. -/
def Writable (shift : Point (Number α)) (p : Point (Value α)) : Prop :=
  ∃ q t, moved shift p = .ok q ∧ pointText q = .ok t

theorem exists_pointText {a b : α} (hx : q.x.toReal = .ok a) (hy : q.y.toReal = .ok b) :
    ∃ t, pointText q = .ok t :=
  ⟨_, bind_eq_ok.mpr ⟨_, coordinate_eq_ok_iff.mpr ⟨a, hx, rfl⟩,
    bind_eq_ok.mpr ⟨_, coordinate_eq_ok_iff.mpr ⟨b, hy, rfl⟩, rfl⟩⟩⟩

/-- A line can be written when its points can be moved and written, and its colour is a text. -/
theorem exists_polyline_iff {points : List (Point (Value α))} {v w : Value α} :
    (∃ qs line, points.mapM (moved shift) = .ok qs ∧ (Part.polyline qs v w).text = .ok line) ↔
      (∃ c, v = .text c) ∧ ∀ p ∈ points, Writable shift p := by
  constructor
  · rintro ⟨qs, line, hqs, hline⟩
    obtain ⟨ts, hts, hline⟩ := bind_eq_ok.mp hline
    obtain ⟨colour, hcolour, _⟩ := bind_eq_ok.mp hline
    obtain ⟨c, hc, _⟩ := escaped_eq_ok_iff.mp hcolour
    refine ⟨⟨c, hc⟩, ?_⟩
    intro p hp
    obtain ⟨q, hq, hmoved⟩ := exists_of_mapM hqs hp
    obtain ⟨t, _, ht⟩ := exists_of_mapM hts hq
    exact ⟨q, t, hmoved, ht⟩
  · rintro ⟨⟨c, rfl⟩, hpoints⟩
    obtain ⟨qs, hqs⟩ := exists_mapM_eq_ok (f := moved shift) fun p hp => by
      obtain ⟨q, _, hq, _⟩ := hpoints p hp
      exact ⟨q, hq⟩
    obtain ⟨ts, hts⟩ : ∃ ts, qs.mapM pointText = .ok ts := by
      apply exists_mapM_eq_ok
      intro q hq
      obtain ⟨p, hp, hmoved⟩ := (mem_iff_of_mapM hqs).mp hq
      obtain ⟨q', t, hmoved', ht⟩ := hpoints p hp
      obtain rfl := Except.ok.inj (hmoved.symm.trans hmoved')
      exact ⟨t, ht⟩
    exact ⟨qs, _, hqs, bind_eq_ok.mpr ⟨ts, hts, bind_eq_ok.mpr ⟨_, rfl, rfl⟩⟩⟩

omit [Written α] in
/-- From a number that has no scalar no quotient can be taken. -/
theorem exists_toReal_of_sub_div {x y z h : Number α} (hdiv : y.div (.int 2) = .ok h)
    (hsub : x.sub h = .ok z) : ∃ a, x.toReal = .ok a := by
  obtain ⟨r, rfl⟩ : ∃ r, h = .real r := by
    cases y with
    | int n =>
        obtain ⟨r, _, hr⟩ := bind_eq_ok.mp hdiv
        exact ⟨r, (pure_eq_ok.mp hr).symm⟩
    | real r =>
        obtain ⟨a, _, hdiv⟩ := bind_eq_ok.mp hdiv
        obtain ⟨b, _, hdiv⟩ := bind_eq_ok.mp hdiv
        by_cases hzero : Scalar.eq b 0.0 = true
        · rw [if_pos hzero] at hdiv
          cases hdiv
        · rw [if_neg hzero] at hdiv
          exact ⟨_, (pure_eq_ok.mp hdiv).symm⟩
  cases x with
  | real r => exact ⟨r, rfl⟩
  | int n =>
      obtain ⟨a, ha, _⟩ := bind_eq_ok.mp hsub
      exact ⟨a, ha⟩

/-- Where the shape of a node can be written, so can its position. -/
theorem writable_spot {n : Node α} {p : Part α} {line : String} (h : nodePart o shift n = .ok p)
    (hline : p.text = .ok line) : Writable shift (spot n) := by
  by_cases hshape : o.nodeShape.same (.text "rect") = true
  · obtain ⟨q, _, _, _, _, _, _, _, hq, _, _, _, ha, hx, hb, hy, _⟩ :=
      (nodePart_of_rectangle hshape).mp h
    obtain ⟨a, ha⟩ := exists_toReal_of_sub_div ha hx
    obtain ⟨b, hb⟩ := exists_toReal_of_sub_div hb hy
    obtain ⟨t, ht⟩ := exists_pointText ha hb
    exact ⟨q, t, hq, ht⟩
  · obtain ⟨q, _, r, hq, _, _, rfl⟩ := (nodePart_of_circle hshape).mp h
    obtain ⟨x, hx, hline⟩ := bind_eq_ok.mp hline
    obtain ⟨y, hy, _⟩ := bind_eq_ok.mp hline
    obtain ⟨a, ha, _⟩ := coordinate_eq_ok_iff.mp hx
    obtain ⟨b, hb, _⟩ := coordinate_eq_ok_iff.mp hy
    obtain ⟨t, ht⟩ := exists_pointText ha hb
    exact ⟨q, t, hq, ht⟩

end Written

end Svg

/-- A layout with the same bends, but with links that are not drawn. -/
def Layout.loosened {α : Type} (l : Layout α) : Layout α :=
  { l with board := { l.board with
      drawing := { l.board.drawing with links := l.board.drawing.links.map Link.loose } } }

namespace Svg

section Loosened

variable {α : Type} [Scalar α] [Written α] {o : Options α} {l : Layout α} {s : Sheet α}

omit [Written α] in
theorem framing_loosened : framing o l.loosened = framing o l := by
  have hbounds : Bounds.of l.loosened.drawing.nodes l.loosened.drawing.links false =
      Bounds.of l.drawing.nodes l.drawing.links false := by
    have hroutes : (l.loosened.drawing.links.map LinkEntry.ready).mapM LinkEntry.route =
        (l.drawing.links.map LinkEntry.ready).mapM LinkEntry.route := by
      change ((l.drawing.links.map Link.loose).map LinkEntry.ready).mapM LinkEntry.route = _
      rw [List.map_map, List.mapM_map, List.mapM_map]
      rfl
    rw [Bounds.of, Bounds.of, Bounds.ofEntries, Bounds.ofEntries, hroutes]
    rfl
  rw [framing, framing, hbounds]
  rfl

omit [Written α] in
theorem lines_loosened {shift : Point (Number α)} {lines : List (Option (Part α))}
    (h : l.drawing.links.mapM (linkPart o l.drawing.nodes shift) = .ok lines) :
    l.loosened.drawing.links.mapM (linkPart o l.loosened.drawing.nodes shift) =
      .ok (lines.map fun _ => none) := by
  change (l.drawing.links.map Link.loose).mapM _ = _
  rw [mapM_eq_map (g := fun _ => none) fun k hk => by
      obtain ⟨k', _, rfl⟩ := List.mem_map.mp hk
      exact linkPart_loose k', List.map_const', List.map_const', List.length_map,
    (mapM_eq_ok_iff.mp h).length_eq]

theorem sheet_loosened_iff {lines : List (Option (Part α))}
    (h : l.drawing.links.mapM (linkPart o l.drawing.nodes s.canvas.shift) = .ok lines) :
    sheet o l = .ok { s with lines } ↔
      sheet o l.loosened = .ok { s with lines := lines.map fun _ => none } := by
  rw [sheet_eq_ok_iff, sheet_eq_ok_iff, framing_loosened]
  constructor
  · rintro ⟨placed, hframing, hboxes, _, hrest⟩
    exact ⟨placed, hframing, hboxes, lines_loosened h, hrest⟩
  · rintro ⟨placed, hframing, hboxes, _, hrest⟩
    exact ⟨placed, hframing, hboxes, h, hrest⟩

omit [Written α] in
theorem mem_parts_iff {p : Part α} :
    p ∈ s.parts o ↔ p ∈ { s with lines := [] }.parts o ∨ some p ∈ s.lines := by
  simp only [Sheet.parts, grouped, List.mem_append, List.mem_cons, List.reduceOption_mem_iff,
    List.reduceOption_nil, List.not_mem_nil, or_false]
  tauto

/-- Where the parts of a sheet can be written, so can the positions of the nodes. -/
theorem writable_of_sheet (hs : sheet o l = .ok s)
    (hwritten : ∀ p ∈ s.parts o, ∃ line, p.text = .ok line) :
    ∀ n ∈ l.drawing.nodes, Writable s.canvas.shift (spot n) := by
  intro n hn
  obtain ⟨_, _, _, _, hshapes, _⟩ := sheet_eq_ok_iff.mp hs
  obtain ⟨p, hp, hpart⟩ := exists_of_mapM hshapes hn
  obtain ⟨line, hline⟩ := hwritten p (by simp [Sheet.parts, grouped, hp])
  exact writable_spot hpart hline

/-- What is drawn of a link can be written, if it is a line, when its colour is a text and its bends
can be written. -/
theorem exists_linkPart_iff {shift : Point (Number α)} {nodes : List (Node α)} {k : Link α}
    (hk : k.Followed nodes) (hspots : ∀ n ∈ nodes, Writable shift (spot n)) :
    (∃ drawn, linkPart o nodes shift k = .ok drawn ∧
      ∀ p, drawn = some p → ∃ line, p.text = .ok line) ↔
      (k.joins nodes = true →
        (∃ c, o.edgeColor = .text c) ∧ ∀ b ∈ k.bends, Writable shift b) := by
  have hjoins := Link.isSome_ends? nodes k
  cases hends : k.ends? nodes with
  | none =>
      rw [hends] at hjoins
      refine ⟨fun _ h => ?_, fun _ => ⟨none, linkPart_of_none hk hends, nofun⟩⟩
      rw [h] at hjoins
      cases hjoins
  | some ends =>
      obtain ⟨s, t⟩ := ends
      obtain ⟨hs, ht⟩ := Link.ends?_eq_some_iff.mp hends
      have hpoints : (∀ p ∈ spot s :: k.bends ++ [spot t], Writable shift p) ↔
          ∀ b ∈ k.bends, Writable shift b := by
        simp [or_imp, forall_and, hspots s (Endpoint.mem_of_under? hs),
          hspots t (Endpoint.mem_of_under? ht)]
      rw [hends] at hjoins
      rw [← hjoins, ← hpoints, ← exists_polyline_iff (w := o.edgeWidth)]
      simp only [linkPart_eq_ok_iff hk hends]
      constructor
      · rintro ⟨drawn, ⟨qs, hqs, rfl⟩, hwritten⟩ _
        obtain ⟨line, hline⟩ := hwritten _ rfl
        exact ⟨qs, line, hqs, hline⟩
      · intro h
        obtain ⟨qs, line, hqs, hline⟩ := h rfl
        refine ⟨_, ⟨qs, hqs, rfl⟩, ?_⟩
        intro p hp
        obtain rfl := Option.some.inj hp
        exact ⟨line, hline⟩

/-- A layout can be drawn when it can be drawn without the lines of its links, and these lines can
be written. -/
theorem exists_write_loosened_iff (hfollowed : ∀ k ∈ l.drawing.links, k.Followed l.drawing.nodes) :
    (∃ text, write o l = .ok text) ↔ (∃ text, write o l.loosened = .ok text) ∧
      ∀ k ∈ l.drawing.links, k.joins l.drawing.nodes = true → (∃ c, o.edgeColor = .text c) ∧
        ∀ c placed, framing o l = .ok (c, placed) → ∀ b ∈ k.bends, Writable c.shift b := by
  by_cases hnodes : l.drawing.nodes = []
  · have hparts : parts o l.loosened = parts o l := by
      rw [parts_of_nil hnodes, parts_of_nil (l := l.loosened) hnodes]
    simp [write_eq_ok_iff, hparts, hnodes, Link.joins_nil]
  · rw [exists_write_iff hnodes, exists_write_iff (l := l.loosened) hnodes]
    constructor
    · rintro ⟨s, hs, hwritten⟩
      obtain ⟨placed, hframing, _, hlines, _⟩ := sheet_eq_ok_iff.mp hs
      refine ⟨⟨_, (sheet_loosened_iff hlines).mp hs, ?_⟩, ?_⟩
      · intro p hp
        apply hwritten p
        rw [mem_parts_iff] at hp ⊢
        exact Or.inl (hp.resolve_right (by simp))
      · intro k hk hjoins
        obtain ⟨drawn, hdrawn, hpart⟩ := exists_of_mapM hlines hk
        obtain ⟨hcolour, hbends⟩ := (exists_linkPart_iff (hfollowed k hk)
          (writable_of_sheet hs hwritten)).mp ⟨drawn, hpart, fun p hp =>
            hwritten p (mem_parts_iff.mpr (Or.inr (hp ▸ hdrawn)))⟩ hjoins
        refine ⟨hcolour, ?_⟩
        intro c placed' hframing'
        obtain ⟨rfl, _⟩ := Prod.mk.inj (Except.ok.inj (hframing.symm.trans hframing'))
        exact hbends
    · rintro ⟨⟨s, hs, hwritten⟩, hlines⟩
      obtain ⟨placed, hframing, _, hloosened, _⟩ := sheet_eq_ok_iff.mp hs
      rw [framing_loosened] at hframing
      have hdrawn : ∀ k ∈ l.drawing.links, ∃ drawn,
          linkPart o l.drawing.nodes s.canvas.shift k = .ok drawn ∧
            ∀ p, drawn = some p → ∃ line, p.text = .ok line := fun k hk =>
        (exists_linkPart_iff (hfollowed k hk)
          (writable_of_sheet (l := l.loosened) hs hwritten)).mpr fun hjoins =>
            ⟨(hlines k hk hjoins).1, (hlines k hk hjoins).2 _ _ hframing⟩
      obtain ⟨lines, hparts⟩ := exists_mapM_eq_ok fun k hk => (hdrawn k hk).imp fun _ h => h.1
      -- loosened links leave one place each, as do the links themselves
      have hnone : s.lines = lines.map fun _ => none :=
        Except.ok.inj (hloosened.symm.trans (lines_loosened hparts))
      refine ⟨{ s with lines }, (sheet_loosened_iff hparts).mpr (hnone ▸ hs), ?_⟩
      intro p hp
      rcases mem_parts_iff.mp hp with hp | hp
      · exact hwritten p (mem_parts_iff.mpr (Or.inl hp))
      · obtain ⟨k, hk, hpart⟩ := (mem_iff_of_mapM hparts).mp hp
        obtain ⟨drawn, hpart', hline⟩ := hdrawn k hk
        obtain rfl := Except.ok.inj (hpart.symm.trans hpart')
        exact hline p rfl

end Loosened

section Lines

variable {α : Type} [Scalar α] [Written α] {o : Options α} {l : Layout α}

/-- Whether a part is written as a line. -/
def Part.isLine (p : Part α) : Bool := p.element == some "polyline"

omit [Scalar α] [Written α] in
theorem isLine_iff {p : Part α} : p.isLine = true ↔ p.element = some "polyline" := beq_iff_eq

omit [Scalar α] [Written α] in
@[simp] theorem isLine_frame (width height : Number α) : (Part.frame width height).isLine = false :=
  rfl

omit [Scalar α] [Written α] in
@[simp] theorem isLine_frameEnd : (Part.frameEnd : Part α).isLine = false := rfl

omit [Scalar α] [Written α] in
/-- There is no line among parts that are other elements. -/
theorem filter_isLine_eq_nil {n : String} {ps : List (Part α)}
    (h : ∀ p ∈ ps, p.element = some n) (hn : n ≠ "polyline") :
    ps.filter Part.isLine = [] := by
  rw [List.filter_eq_nil_iff]
  intro p hp hline
  rw [isLine_iff, h p hp, Option.some.injEq] at hline
  exact hn hline

omit [Scalar α] [Written α] in
theorem filter_isLine_grouped (name : String) (ps : List (Part α)) :
    (grouped name ps).filter Part.isLine = ps.filter Part.isLine := by
  simp [grouped, Part.isLine, Part.element]

omit [Written α] in
theorem filter_isLine_backing (o : Options α) : (backing o).filter Part.isLine = [] := by
  apply filter_isLine_eq_nil (n := "rect") _ (by decide)
  intro p hp
  rw [eq_of_mem_backing hp]
  rfl

/-- The lines among the parts of a figure are those of its links. -/
theorem filter_isLine_parts {s : Sheet α} (hs : sheet o l = .ok s) :
    (s.parts o).filter Part.isLine = s.lines.reduceOption := by
  have hsorted := sorted_of_sheet hs
  have hboxes : s.boxes.filter Part.isLine = [] :=
    filter_isLine_eq_nil hsorted.boxes (by decide)
  have hshapes : s.shapes.filter Part.isLine = [] := by
    apply filter_isLine_eq_nil hsorted.shapes
    rw [Options.shape]
    split <;> decide
  have hlabels : s.labels.filter Part.isLine = [] :=
    filter_isLine_eq_nil hsorted.labels (by decide)
  have hlines : s.lines.reduceOption.filter Part.isLine = s.lines.reduceOption :=
    List.filter_eq_self.mpr fun p hp => isLine_iff.mpr (hsorted.lines p hp)
  have hboxGroup : (if s.boxes.isEmpty then [] else grouped "components" s.boxes).filter
      Part.isLine = [] := by
    split
    · rfl
    · rw [filter_isLine_grouped, hboxes]
  have hlabelGroup : (if o.showLabels.holds then grouped "labels" s.labels else []).filter
      Part.isLine = [] := by
    split
    · rw [filter_isLine_grouped, hlabels]
    · rfl
  rw [Sheet.parts, List.filter_append, List.filter_append, List.filter_append, List.filter_append,
    List.filter_append, List.filter_cons_of_neg (by simp), filter_isLine_backing, hboxGroup,
    filter_isLine_grouped, hlines, filter_isLine_grouped, hshapes, hlabelGroup]
  simp

omit [Written α] in
/-- The lines of the links that are drawn, in order. -/
theorem forall₂_reduceOption {shift : Point (Number α)} {nodes : List (Node α)}
    {ks : List (Link α)} {drawn : List (Option (Part α))} (hindex : Node.Enumerated nodes)
    (hfollowed : ∀ k ∈ ks, k.Followed nodes)
    (h : List.Forall₂ (fun k d => linkPart o nodes shift k = .ok d) ks drawn) :
    List.Forall₂
      (fun k p => ∃ s t points, k.source.node? nodes = some s ∧ k.target.node? nodes = some t ∧
        (spot s :: k.bends ++ [spot t]).mapM (moved shift) = .ok points ∧
        p = .polyline points o.edgeColor o.edgeWidth)
      (ks.filter fun k => k.joins nodes) drawn.reduceOption := by
  induction h with
  | nil => exact List.Forall₂.nil
  | @cons k d ks drawn hd hrest ih =>
      have htail := ih fun k' hk' => hfollowed k' (List.mem_cons_of_mem k hk')
      have hk := hfollowed k List.mem_cons_self
      have hjoins := Link.isSome_ends? nodes k
      cases hends : k.ends? nodes with
      | none =>
          obtain rfl := Except.ok.inj (hd.symm.trans (linkPart_of_none hk hends))
          rw [hends] at hjoins
          rw [List.filter_cons_of_neg (by simp [← hjoins])]
          exact htail
      | some ends =>
          obtain ⟨s, t⟩ := ends
          obtain ⟨points, hpoints, rfl⟩ := (linkPart_eq_ok_iff hk hends).mp hd
          obtain ⟨hs, ht⟩ := Link.ends?_eq_some_iff.mp hends
          rw [← Endpoint.node?_eq hindex] at hs ht
          rw [hends] at hjoins
          rw [List.filter_cons_of_pos hjoins.symm, List.reduceOption_cons_of_some]
          exact List.Forall₂.cons ⟨s, t, points, hs, ht, hpoints, rfl⟩ htail

/-- For links whose ends are whole numbers or nodes, none of them with an index below zero: a layout
can be drawn exactly when it can be drawn without the lines of its links, unless one of these cannot
be written for its bends or its colour. The lines of a figure are those of the links both of whose
ends have the index of a node, in the order of the links, and each goes from the source through the
bends to the target, all moved by the same offset. -/
theorem write_lines (hindex : Node.Enumerated l.drawing.nodes)
    (hfollowed : ∀ k ∈ l.drawing.links, k.Followed l.drawing.nodes) :
    ((∃ text, write o l = .ok text) ↔ (∃ text, write o l.loosened = .ok text) ∧
      ∀ k ∈ l.drawing.links, k.joins l.drawing.nodes = true → (∃ c, o.edgeColor = .text c) ∧
        ∀ c placed, framing o l = .ok (c, placed) → ∀ b ∈ k.bends, Writable c.shift b) ∧
      ∀ text, write o l = .ok text → ∃ ps ls shift, parts o l = .ok ps ∧
        ps.mapM Part.text = .ok ls ∧ text = "\n".intercalate ls ∧
        List.Forall₂
          (fun k p => ∃ s t points, k.source.node? l.drawing.nodes = some s ∧
            k.target.node? l.drawing.nodes = some t ∧
            (spot s :: k.bends ++ [spot t]).mapM (moved shift) = .ok points ∧
            p = .polyline points o.edgeColor o.edgeWidth)
          (l.drawing.links.filter fun k => k.joins l.drawing.nodes)
          (ps.filter Part.isLine) := by
  refine ⟨exists_write_loosened_iff hfollowed, ?_⟩
  intro text htext
  obtain ⟨ps, ls, hps, hls, rfl⟩ := write_eq_ok_iff.mp htext
  by_cases hnodes : l.drawing.nodes = []
  · refine ⟨ps, ls, ⟨.int 0, .int 0⟩, hps, hls, rfl, ?_⟩
    have hjoins : l.drawing.links.filter (fun k => k.joins l.drawing.nodes) = [] := by
      rw [List.filter_eq_nil_iff]
      intro k _
      rw [hnodes, Link.joins_nil]
      exact Bool.false_ne_true
    have hlines : ps.filter Part.isLine = [] := by
      rw [parts_of_nil hnodes] at hps
      rw [← Except.ok.inj hps, List.filter_append, List.filter_cons_of_neg (by simp),
        filter_isLine_backing]
      rfl
    rw [hjoins, hlines]
    exact List.Forall₂.nil
  · rw [parts_eq hnodes] at hps
    cases hs : sheet o l with
    | error e =>
        rw [hs] at hps
        cases hps
    | ok s =>
        rw [hs] at hps
        obtain rfl := Except.ok.inj hps
        obtain ⟨placed, _, _, hlines, _⟩ := sheet_eq_ok_iff.mp hs
        refine ⟨s.parts o, ls, s.canvas.shift, ?_, hls, rfl, ?_⟩
        · rw [parts_eq hnodes, hs]
          rfl
        · rw [filter_isLine_parts hs]
          exact forall₂_reduceOption hindex hfollowed (mapM_eq_ok_iff.mp hlines)

end Lines

section Pairs

/-- A link between two ends with the given bends. -/
def plainLink (source target : Endpoint Float) (bends : List (Point (Value Float))) : Link Float :=
  { source, target, length := .null, weight := .null, bends, extras := [] }

/-- A layout of two nodes a hundred units apart. -/
def pairLayout (links : List (Link Float)) : Layout Float :=
  let node (i : Int) (x : Float) : Node Float :=
    { index := .int i, x := .real x, y := .real 0.0, z := .real 0.0, width := .null
      height := .null, extras := [] }
  { method := .ring Ring.plain
    board := { drawing := { nodes := [node 0 0.0, node 1 100.0], links } } }

/-- Of a link with a bend between the two nodes, and one that leads behind the last node, the first
one is drawn. -/
theorem write_lines_looseLink :
    let l := pairLayout [plainLink (.member 0) (.value (.int 1)) [⟨.real 50.0, .real 30.0⟩],
      plainLink (.value (.int 0)) (.value (.int 7)) []]
    Node.Enumerated l.drawing.nodes ∧ (∀ k ∈ l.drawing.links, k.Followed l.drawing.nodes) ∧
      ∃ text ps shift points, write Options.usual l = .ok text ∧ parts Options.usual l = .ok ps ∧
        ps.filter Part.isLine = [.polyline points (.text "#666666") (.real 1.5)] ∧
        [⟨.real 0.0, .real 0.0⟩, ⟨.real 50.0, .real 30.0⟩, ⟨.real 100.0, .real 0.0⟩].mapM
          (moved shift) = .ok points := by
  intro l
  have hindex : Node.Enumerated l.drawing.nodes := by
    intro i n hn
    match i, hn with
    | 0, hn | 1, hn =>
        obtain rfl := Option.some.inj hn
        rfl
  have hfollowed : ∀ k ∈ l.drawing.links, k.Followed l.drawing.nodes := by
    intro k hk e he
    rcases List.mem_pair.mp hk with rfl | rfl <;> rcases List.mem_pair.mp he with rfl | rfl
    · exact ⟨⟨0, rfl⟩, by rintro i ⟨⟩; decide⟩
    · exact ⟨trivial, by rintro i ⟨⟩; decide⟩
    · exact ⟨trivial, by rintro i ⟨⟩; decide⟩
    · exact ⟨trivial, by rintro i ⟨⟩; decide⟩
  obtain ⟨text, htext⟩ : ∃ text, write Options.usual l = .ok text := ⟨_, rfl⟩
  obtain ⟨ps, _, shift, hps, _, _, hlines⟩ := (write_lines hindex hfollowed).2 text htext
  -- only the first link joins two nodes
  change List.Forall₂ _ [plainLink (.member 0) (.value (.int 1)) [⟨.real 50.0, .real 30.0⟩]] _
    at hlines
  obtain ⟨p, rest, ⟨s, t, points, hs, ht, hpoints, rfl⟩, hrest, heq⟩ :=
    List.forall₂_cons_left_iff.mp hlines
  obtain rfl := Option.some.inj hs
  obtain rfl := Option.some.inj ht
  obtain rfl := List.forall₂_nil_left_iff.mp hrest
  exact ⟨hindex, hfollowed, text, ps, shift, points, htext, hps, heq, hpoints⟩

/-- An index below zero counts from the last node: a link from there is drawn although it joins no
nodes, and one from farther away lets the whole figure fail. -/
theorem line_from_last_node :
    let behind := plainLink (.value (.int (-1))) (.value (.int 0)) []
    let beyond := plainLink (.value (.int (-3))) (.value (.int 0)) []
    behind.joins (pairLayout [behind]).drawing.nodes = false ∧
      (∃ ps p, parts Options.usual (pairLayout [behind]) = .ok ps ∧ p ∈ ps.filter Part.isLine) ∧
      write Options.usual (pairLayout [beyond]) = .error .outOfRange ∧
      ∃ text, write Options.usual (pairLayout [beyond]).loosened = .ok text := by
  refine ⟨rfl, ⟨_, _, rfl, List.mem_cons_self⟩, rfl, ⟨_, rfl⟩⟩

end Pairs

end Svg

end PackedDrawing
