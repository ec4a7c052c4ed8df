import PackedDrawing.Proofs.Svg.Canvas
import PackedDrawing.Proofs.Svg.Ends

/-!
# What lies in the view of a figure

The view of a figure is as large as its canvas. In exact arithmetic all boxes and lines lie in the
view. So does a node whose size is at most twice the radius and the padding together; a larger one
may stand out by as much as half its size exceeds these.

## Main definitions

* `Value.Sized`: a size is missing, or a number above zero.
* `Svg.overhang`: by how much half of a size exceeds a reach.

## Main statements

* `Svg.parts_inView`: where the parts of a figure lie.
* `Svg.oversized_standsOut`: a large node stands out of the view.
-/

namespace PackedDrawing

namespace Value

/-- A size is nothing at all, or a number above zero. -/
def Sized (v : Value ℝ) : Prop := v = .null ∨ ∃ x, v.scalar = .ok x ∧ 0 < x

/-- Half of a size; nothing at all has none. -/
noncomputable def half (v : Value ℝ) : ℝ :=
  match v.scalar with
  | .ok x => x / (2 : ℕ)
  | .error _ => 0

/-- A number above zero counts as a size. -/
theorem holds_of_pos {v : Value ℝ} {x : ℝ} (h : v.scalar = .ok x) (hpos : 0 < x) :
    v.holds = true := by
  obtain ⟨y, hy, rfl⟩ := scalar_eq_ok_iff.mp h
  cases v with
  | int n =>
      obtain rfl := Except.ok.inj hy
      have hn : n ≠ 0 := by
        rintro rfl
        simp at hpos
      simpa [holds] using hn
  | real r =>
      obtain rfl := Except.ok.inj hy
      simpa [holds] using hpos.ne'
  | bool b =>
      obtain rfl := Except.ok.inj hy
      cases b with
      | true => rfl
      | false => simp at hpos
  | null | text | list | table | thing => cases hy

end Value

namespace Svg

section Shapes

/-- By how much half of a size exceeds a reach. -/
noncomputable def overhang (reach : ℝ) (v : Value ℝ) : ℝ := max 0 (v.half - reach)

theorem half_le (reach : ℝ) (v : Value ℝ) : v.half ≤ reach + overhang reach v := by
  have h := le_max_right 0 (v.half - reach)
  rw [overhang]
  linarith

theorem le_reach {radius reach : ℝ} (h : radius ≤ reach) (v : Value ℝ) :
    radius ≤ reach + overhang reach v :=
  h.trans (le_add_of_nonneg_right (le_max_left _ _))

variable {v : Value ℝ} {radius : Number ℝ} {reach : ℝ} {n : Node ℝ} {c : Canvas ℝ}
  {q : Point (Number ℝ)}

/-- What is drawn for a size is the size, or twice the radius. -/
theorem exists_sizeOr (hv : v.Sized) (hreach : radius.exact ≤ reach) :
    ∃ w, sizeOr v radius = .ok w ∧ w.exact / 2 ≤ reach + overhang reach v := by
  rcases hv with rfl | ⟨x, hx, hpos⟩
  · obtain ⟨w, hw, hexact⟩ := Number.exists_mul radius (.int 2)
    refine ⟨w, hw, ?_⟩
    have hdiameter : w.exact / 2 = radius.exact := by
      rw [hexact, Number.exact_int]
      norm_num
    rw [hdiameter]
    exact le_reach hreach _
  · obtain ⟨y, hy, rfl⟩ := Value.scalar_eq_ok_iff.mp hx
    refine ⟨y, ?_, ?_⟩
    · rw [sizeOr, if_pos (Value.holds_of_pos hx hpos), hy]
    · have hhalf := half_le reach v
      simp only [Value.half, hx, Nat.cast_ofNat] at hhalf
      exact hhalf

/-- The radius of a circle is half of the smaller size, or the set one. -/
theorem exists_circleRadius (hw : n.width.Sized) (hh : n.height.Sized) (hpos : 0 ≤ radius.exact)
    (hreach : radius.exact ≤ reach) :
    ∃ r, circleRadius n radius = .ok r ∧ 0 ≤ r.exact ∧
      r.exact ≤ reach + overhang reach n.width ∧ r.exact ≤ reach + overhang reach n.height := by
  have hset : ∃ r : Number ℝ, Except.ok radius = (.ok r : Except Fault (Number ℝ)) ∧
      0 ≤ r.exact ∧ r.exact ≤ reach + overhang reach n.width ∧
      r.exact ≤ reach + overhang reach n.height :=
    ⟨radius, rfl, hpos, le_reach hreach _, le_reach hreach _⟩
  rw [circleRadius]
  rcases hw with hw | ⟨w, hw, hwpos⟩
  · have hnone : ¬ (n.width.holds && n.height.holds) = true := by
      rw [hw]
      exact Bool.false_ne_true
    rw [if_neg hnone]
    exact hset
  · rcases hh with hh | ⟨h, hh, hhpos⟩
    · have hnone : ¬ (n.width.holds && n.height.holds) = true := by
        rw [hh, Bool.and_comm]
        exact Bool.false_ne_true
      rw [if_neg hnone]
      exact hset
    · have hboth : (n.width.holds && n.height.holds) = true := by
        rw [Value.holds_of_pos hw hwpos, Value.holds_of_pos hh hhpos]
        rfl
      have hwidth := half_le reach n.width
      have hheight := half_le reach n.height
      simp only [Value.half, hw, Nat.cast_ofNat] at hwidth
      simp only [Value.half, hh, Nat.cast_ofNat] at hheight
      obtain ⟨a, ha, rfl⟩ := Value.scalar_eq_ok_iff.mp hw
      obtain ⟨b, hb, rfl⟩ := Value.scalar_eq_ok_iff.mp hh
      obtain ⟨r, hr, hexact⟩ := Number.exists_half (a.smaller b)
      rw [Number.exact_smaller] at hexact
      have hleft := min_le_left a.exact b.exact
      have hright := min_le_right a.exact b.exact
      have hmin := lt_min hwpos hhpos
      refine ⟨r, ?_, ?_, ?_, ?_⟩
      · rw [if_pos hboth, ha, ok_bind, hb, ok_bind, hr]
      · linarith
      · linarith
      · linarith

/-- A circle lies in the view as far as its radius lets it. -/
theorem region_circle_subset {r : Number ℝ} {fill stroke strokeWidth : Value ℝ}
    {across down : ℝ} (hshows : c.Shows reach q) (hpos : 0 ≤ r.exact)
    (hacross : r.exact ≤ reach + across) (hdown : r.exact ≤ reach + down) :
    (Part.circle q r fill stroke strokeWidth).region ⊆ c.view across down := by
  intro p hp
  obtain ⟨h₁, h₂, h₃, h₄⟩ := hshows
  have hx : |p.x - q.x.exact| ≤ r.exact := by
    apply abs_le_of_sq_le_sq _ hpos
    exact (le_add_of_nonneg_right (sq_nonneg _)).trans hp
  have hy : |p.y - q.y.exact| ≤ r.exact := by
    apply abs_le_of_sq_le_sq _ hpos
    exact (le_add_of_nonneg_left (sq_nonneg _)).trans hp
  rw [abs_le] at hx hy
  refine ⟨?_, ?_, ?_, ?_⟩ <;> linarith

/-- The shape of a node stands out by no more than its size lets it. -/
theorem exists_nodePart {o : Options ℝ} {spotRadius : ℝ} (hw : n.width.Sized) (hh : n.height.Sized)
    (hradius : o.nodeRadius.scalar = .ok spotRadius) (hpos : 0 ≤ spotRadius)
    (hreach : spotRadius ≤ reach) (hmoved : moved c.shift (spot n) = .ok q)
    (hshows : c.Shows reach q) :
    ∃ p, nodePart o c.shift n = .ok p ∧
      p.region ⊆ c.view (overhang reach n.width) (overhang reach n.height) := by
  obtain ⟨radius, hr, rfl⟩ := Value.scalar_eq_ok_iff.mp hradius
  by_cases hshape : o.nodeShape.same (.text "rect") = true
  · obtain ⟨w, hw, hwide⟩ := exists_sizeOr hw hreach
    obtain ⟨h, hh, hhigh⟩ := exists_sizeOr hh hreach
    obtain ⟨a, ha, haExact⟩ := Number.exists_half w
    obtain ⟨x, hx, hxExact⟩ := Number.exists_sub q.x a
    obtain ⟨b, hb, hbExact⟩ := Number.exists_half h
    obtain ⟨y, hy, hyExact⟩ := Number.exists_sub q.y b
    refine ⟨.rectangle ⟨x, y⟩ w h o.nodeColor o.nodeStroke o.nodeStrokeWidth,
      (nodePart_of_rectangle hshape).mpr
        ⟨q, radius, w, h, a, x, b, y, hmoved, hr, hw, hh, ha, hx, hb, hy, rfl⟩, ?_⟩
    obtain ⟨h₁, h₂, h₃, h₄⟩ := hshows
    rintro p ⟨hleft, hright, htop, hbottom⟩
    dsimp only at hleft hright htop hbottom
    refine ⟨?_, ?_, ?_, ?_⟩ <;> linarith
  · obtain ⟨r, hround, hrpos, hacross, hdown⟩ := exists_circleRadius hw hh hpos hreach
    exact ⟨_, (nodePart_of_circle hshape).mpr ⟨q, radius, r, hmoved, hr, hround, rfl⟩,
      region_circle_subset hshows hrpos hacross hdown⟩

/-- A line between nodes of the drawing lies in the view. -/
theorem exists_linkPart {o : Options ℝ} {nodes : List (Node ℝ)} {k : Link ℝ}
    (hjoins : k.joins nodes = true) (hreach : 0 ≤ reach)
    (hnodes : ∀ n ∈ nodes, ∃ p', moved c.shift (spot n) = .ok p' ∧ c.Shows reach p')
    (hbends : ∀ b ∈ k.bends, ∃ p', moved c.shift b = .ok p' ∧ c.Shows reach p') :
    ∃ p, linkPart o nodes c.shift k = .ok (some p) ∧ p.region ⊆ c.view 0 0 := by
  have hk := Link.followed_of_joins hjoins
  obtain ⟨⟨s, t⟩, hends⟩ := Option.isSome_iff_exists.mp ((Link.isSome_ends? nodes k).trans hjoins)
  obtain ⟨hs, ht⟩ := Link.ends?_eq_some_iff.mp hends
  have hpoints : ∀ p ∈ spot s :: k.bends ++ [spot t],
      ∃ p', moved c.shift p = .ok p' ∧ c.Shows reach p' := by
    intro p hp
    simp only [List.cons_append, List.mem_cons, List.mem_append, List.not_mem_nil, or_false] at hp
    rcases hp with rfl | hp | rfl
    · exact hnodes s (Endpoint.mem_of_under? hs)
    · exact hbends p hp
    · exact hnodes t (Endpoint.mem_of_under? ht)
  obtain ⟨points, hmoved⟩ := exists_mapM_eq_ok fun p hp => (hpoints p hp).imp fun _ h => h.1
  refine ⟨_, (linkPart_eq_ok_iff hk hends).mpr ⟨points, hmoved, rfl⟩, ?_⟩
  rintro q ⟨p', hp', rfl⟩
  obtain ⟨p, hp, hpp'⟩ := (mem_iff_of_mapM hmoved).mp hp'
  obtain ⟨p'', hp'', h₁, h₂, h₃, h₄⟩ := hpoints p hp
  obtain rfl := Except.ok.inj (hpp'.symm.trans hp'')
  refine ⟨?_, ?_, ?_, ?_⟩ <;> dsimp only <;> linarith

end Shapes

section Figures

variable [Written ℝ] {o : Options ℝ} {l : Layout ℝ} {s : Sheet ℝ}

omit [Written ℝ] in
/-- What covers anything in a figure is a box, a line or a shape. -/
theorem region_cases {p : Part ℝ} (hlabels : ∀ p ∈ s.labels, p.element = some "text")
    (hp : p ∈ s.parts o) :
    p.region = ∅ ∨ p ∈ s.boxes ∨ some p ∈ s.lines ∨ p ∈ s.shapes := by
  have hlabel : ∀ p ∈ s.labels, p.region = ∅ := by
    intro p hp
    have hp := hlabels p hp
    cases p with
    | label => rfl
    | frame | background | groupStart | groupEnd | box | polyline | circle | rectangle
    | frameEnd => simp [Part.element] at hp
  have hgroup : ∀ {name : String} {ps : List (Part ℝ)}, p ∈ grouped name ps →
      p.region = ∅ ∨ p ∈ ps := by
    intro name ps hp
    rcases mem_grouped.mp hp with rfl | hp | rfl
    · exact Or.inl rfl
    · exact Or.inr hp
    · exact Or.inl rfl
  simp only [Sheet.parts, List.mem_append, List.mem_cons, List.not_mem_nil, or_false] at hp
  rcases hp with (((((rfl | hp) | hp) | hp) | hp) | hp) | rfl
  · exact Or.inl rfl
  · rw [eq_of_mem_backing hp]
    exact Or.inl rfl
  · split at hp
    · cases hp
    · exact (hgroup hp).imp_right Or.inl
  · exact (hgroup hp).imp_right fun h => Or.inr (Or.inl (List.reduceOption_mem_iff.mp h))
  · exact (hgroup hp).imp_right fun h => Or.inr (Or.inr h)
  · split at hp
    · exact Or.inl ((hgroup hp).elim id (hlabel p))
    · cases hp
  · exact Or.inl rfl

omit [Written ℝ] in
/-- The boxes of a layout can be drawn, unless values were put on a ring in their place. -/
theorem exists_drawnBoxes (o : Options ℝ) (hring : ∀ r, l.method = .ring r →
      l.extras.get? "offsets" = none ∧ l.extras.get? "boxes" = none) :
    ∃ placed, drawnBoxes o l = .ok placed := by
  rw [drawnBoxes]
  split
  · rw [placedBoxes]
    cases hmethod : l.method with
    | mosaic =>
        obtain ⟨boxes, hboxes⟩ : ∃ boxes, l.results.poses.mapM Pose.box = .ok boxes :=
          exists_mapM_eq_ok fun g _ => ⟨_, rfl⟩
        exact ⟨_, bind_eq_ok.mpr ⟨boxes, hboxes, rfl⟩⟩
    | ring r =>
        obtain ⟨hoffsets, hboxes⟩ := hring r hmethod
        refine ⟨[], ?_⟩
        simp only [attached, hoffsets, hboxes]
        rfl
  · exact ⟨[], rfl⟩

/-- In exact arithmetic, where positions and bends are numbers, sizes are missing or above zero, and
all links join nodes, a layout with nodes has a figure. Its boxes and lines lie in the view, whose
size is that of the frame; and so does the shape of a node, except that it may stand out to the left
and right, or upwards and downwards, by as much as half of its width, or of its height, exceeds the
radius and the padding together. -/
theorem parts_inView {radius padding : ℝ} (hnodes : l.drawing.nodes ≠ [])
    (hpoints : ∀ p ∈ l.drawing.points, ∃ q, p.Reads q)
    (hsizes : ∀ n ∈ l.drawing.nodes, n.width.Sized ∧ n.height.Sized)
    (hjoins : ∀ k ∈ l.drawing.links, k.joins l.drawing.nodes = true)
    (hring : ∀ r, l.method = .ring r →
      l.extras.get? "offsets" = none ∧ l.extras.get? "boxes" = none)
    (hradius : o.nodeRadius.scalar = .ok radius) (hradiusPos : 0 ≤ radius)
    (hpadding : o.padding.scalar = .ok padding) (hpaddingPos : 0 ≤ padding) :
    ∃ (c : Canvas ℝ) (ps : List (Part ℝ)), parts o l = .ok ps ∧
      ps.head? = some (.frame c.width c.height) ∧
      ∀ p ∈ ps, p.region ⊆ c.view 0 0 ∨ ∃ n ∈ l.drawing.nodes, nodePart o c.shift n = .ok p ∧
        p.region ⊆ c.view (overhang (radius + padding) n.width)
          (overhang (radius + padding) n.height) := by
  obtain ⟨placed, hplaced⟩ := exists_drawnBoxes o hring
  obtain ⟨c, hframing, hshown, hboxParts⟩ :=
    exists_framing hpoints hradius hpadding hpaddingPos hplaced
  have hspots : ∀ n ∈ l.drawing.nodes,
      ∃ p', moved c.shift (spot n) = .ok p' ∧ c.Shows (radius + padding) p' := fun n hn =>
    hshown _ (List.mem_append_left _ (List.mem_map_of_mem hn))
  have hlineParts : ∀ k ∈ l.drawing.links, ∃ p,
      linkPart o l.drawing.nodes c.shift k = .ok (some p) ∧ p.region ⊆ c.view 0 0 := fun k hk =>
    exists_linkPart (hjoins k hk) (add_nonneg hradiusPos hpaddingPos) hspots fun b hb =>
      hshown b (List.mem_append_right _ (List.mem_flatMap.mpr ⟨k, hk, hb⟩))
  have hshapeParts : ∀ n ∈ l.drawing.nodes, ∃ p, nodePart o c.shift n = .ok p ∧
      p.region ⊆ c.view (overhang (radius + padding) n.width)
        (overhang (radius + padding) n.height) := by
    intro n hn
    obtain ⟨p', hp', hshows⟩ := hspots n hn
    exact exists_nodePart (hsizes n hn).1 (hsizes n hn).2 hradius hradiusPos
      (le_add_of_nonneg_right hpaddingPos) hp' hshows
  have hlabelParts : ∀ n ∈ l.drawing.nodes, ∃ p, labelPart o c.shift n = .ok p := by
    intro n hn
    obtain ⟨p', hp', _⟩ := hspots n hn
    exact ⟨_, bind_eq_ok.mpr ⟨p', hp', rfl⟩⟩
  obtain ⟨boxes, hboxes⟩ := exists_mapM_eq_ok fun b hb => (hboxParts b hb).imp fun _ h => h.1
  obtain ⟨lines, hlines⟩ := exists_mapM_eq_ok fun k hk =>
    (hlineParts k hk).elim fun p h => ⟨some p, h.1⟩
  obtain ⟨shapes, hshapes⟩ := exists_mapM_eq_ok fun n hn =>
    (hshapeParts n hn).imp fun _ h => h.1
  obtain ⟨labels, hlabels⟩ : ∃ labels, drawnLabels o c.shift l.drawing.nodes = .ok labels := by
    rw [drawnLabels]
    split
    · exact exists_mapM_eq_ok hlabelParts
    · exact ⟨[], rfl⟩
  have hsheet : sheet o l = .ok ⟨c, boxes, lines, shapes, labels⟩ :=
    sheet_eq_ok_iff.mpr ⟨placed, hframing, hboxes, hlines, hshapes, hlabels⟩
  refine ⟨c, Sheet.parts o ⟨c, boxes, lines, shapes, labels⟩, ?_, rfl, ?_⟩
  · rw [parts_eq hnodes, hsheet]
    rfl
  intro p hp
  rcases region_cases (sorted_of_sheet hsheet).labels hp with hempty | hbox | hline | hshape
  · rw [hempty]
    exact Or.inl (Set.empty_subset _)
  · obtain ⟨b, hb, h⟩ := (mem_iff_of_mapM hboxes).mp hbox
    obtain ⟨p', hp', hregion⟩ := hboxParts b hb
    obtain rfl := Except.ok.inj (h.symm.trans hp')
    exact Or.inl hregion
  · obtain ⟨k, hk, h⟩ := (mem_iff_of_mapM hlines).mp hline
    obtain ⟨p', hp', hregion⟩ := hlineParts k hk
    obtain rfl := Option.some.inj (Except.ok.inj (h.symm.trans hp'))
    exact Or.inl hregion
  · obtain ⟨n, hn, h⟩ := (mem_iff_of_mapM hshapes).mp hshape
    obtain ⟨p', hp', hregion⟩ := hshapeParts n hn
    obtain rfl := Except.ok.inj (h.symm.trans hp')
    exact Or.inr ⟨n, hn, h, hregion⟩

/-- A tall node, linked through a bend to one without a size. -/
noncomputable def tallAndPlain : Layout ℝ :=
  let node (i x : Int) (width height : Value ℝ) : Node ℝ :=
    { index := .int i, x := .int x, y := .int 0, z := .real 0, width, height, extras := [] }
  let link : Link ℝ :=
    { source := .member 0, target := .value (.int 1), length := .null, weight := .null
      bends := [⟨.int 50, .int (-80)⟩], extras := [] }
  { method := .ring Ring.plain
    board := { drawing := { nodes := [node 0 0 (.int 30) (.int 400), node 1 100 .null .null]
                            links := [link] } } }

omit [Written ℝ] in
theorem view_mono (c : Canvas ℝ) {across down across' down' : ℝ} (hacross : across ≤ across')
    (hdown : down ≤ down') : c.view across down ⊆ c.view across' down' := by
  rintro q ⟨h₁, h₂, h₃, h₄⟩
  refine ⟨?_, ?_, ?_, ?_⟩ <;> linarith

omit [Written ℝ] in
/-- The tall node stands out by what half of its height exceeds the radius and the padding. -/
theorem parts_inView_tallAndPlain :
    tallAndPlain.drawing.nodes ≠ [] ∧ (∀ p ∈ tallAndPlain.drawing.points, ∃ q, p.Reads q) ∧
      (∀ n ∈ tallAndPlain.drawing.nodes, n.width.Sized ∧ n.height.Sized) ∧
      (∀ k ∈ tallAndPlain.drawing.links, k.joins tallAndPlain.drawing.nodes = true) ∧
      ∃ (c : Canvas ℝ) (ps : List (Part ℝ)),
        @parts ℝ _ Mosaic.silent Options.usual tallAndPlain = .ok ps ∧
        ps.head? = some (.frame c.width c.height) ∧ ∀ p ∈ ps, p.region ⊆ c.view 0 150 := by
  have hpoints : ∀ p ∈ tallAndPlain.drawing.points, ∃ q, p.Reads q := by
    intro p hp
    change p ∈ [_, _, _] at hp
    simp only [List.mem_cons, List.not_mem_nil, or_false] at hp
    rcases hp with rfl | rfl | rfl <;> exact ⟨_, rfl⟩
  have hsizes : ∀ n ∈ tallAndPlain.drawing.nodes, n.width.Sized ∧ n.height.Sized := by
    intro n hn
    rcases List.mem_pair.mp hn with rfl | rfl
    · exact ⟨Or.inr ⟨_, rfl, by norm_num⟩, Or.inr ⟨_, rfl, by norm_num⟩⟩
    · exact ⟨Or.inl rfl, Or.inl rfl⟩
  have hjoins : ∀ k ∈ tallAndPlain.drawing.links,
      k.joins tallAndPlain.drawing.nodes = true := by
    intro k hk
    rw [List.mem_singleton.mp hk]
    rfl
  have hradius : (Options.usual : Options ℝ).nodeRadius.scalar = .ok 10 :=
    congrArg Except.ok (by norm_num : (10.0 : ℝ) = 10)
  have hpadding : (Options.usual : Options ℝ).padding.scalar = .ok 40 :=
    congrArg Except.ok (by norm_num : (40.0 : ℝ) = 40)
  obtain ⟨c, ps, hps, hframe, hregions⟩ := @parts_inView Mosaic.silent Options.usual tallAndPlain
    10 40 (List.cons_ne_nil _ _) hpoints hsizes hjoins (fun _ _ => ⟨rfl, rfl⟩) hradius
    (by norm_num) hpadding (by norm_num)
  refine ⟨List.cons_ne_nil _ _, hpoints, hsizes, hjoins, c, ps, hps, hframe, ?_⟩
  intro p hp
  rcases hregions p hp with hinside | ⟨n, hn, _, hregion⟩
  · exact hinside.trans (view_mono c le_rfl (by norm_num))
  · refine hregion.trans (view_mono c ?_ ?_) <;> rcases List.mem_pair.mp hn with rfl | rfl
    · change max 0 (((30 : Int) : ℝ) / (2 : ℕ) - (10 + 40)) ≤ 0
      norm_num
    · change max 0 ((0 : ℝ) - (10 + 40)) ≤ 0
      norm_num
    · change max 0 (((400 : Int) : ℝ) / (2 : ℕ) - (10 + 40)) ≤ 150
      norm_num
    · change max 0 ((0 : ℝ) - (10 + 40)) ≤ 150
      norm_num

end Figures

section Oversized

/-- A node at the origin that is as wide and high as a thousand units. -/
def oversized : Layout Float :=
  { method := .ring Ring.plain
    board := { drawing := { nodes :=
      [{ index := .int 0, x := .real 0.0, y := .real 0.0, z := .real 0.0, width := .real 1000.0
         height := .real 1000.0, extras := [] }] } } }

/-- The view is made for the radius of nodes without a size, so a large node stands out: its circle
begins to the left of the view, which is a hundred units wide. -/
theorem oversized_standsOut :
    ∃ ps width height x y r, parts Options.usual oversized = .ok ps ∧
      ps.head? = some (.frame (.real width) (.real height)) ∧
      .circle ⟨.real x, .real y⟩ (.real r) (.text "#4a90d9") (.text "#2c5aa0") (.real 2.0) ∈ ps ∧
      Scalar.lt (x - r) 0.0 = true ∧ Scalar.eq width 100.0 = true :=
  ⟨_, _, _, _, _, _, rfl, rfl, List.mem_iff_getElem?.mpr ⟨4, rfl⟩, rfl, rfl⟩

end Oversized

end Svg

end PackedDrawing
