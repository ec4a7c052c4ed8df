import PackedDrawing.Proofs.Placement.Moves

/-!
# Exact placement of a component

Centring a component, choosing its pose and placing it succeed together and put the component where
its box has room for it: flush with the border on the left and below, and inside it everywhere. All
that is asked of the envelope is that its polygon spans the centred points.

## Main definitions

* `Envelope.Spans`: an envelope spans what it is given.

## Main statements

* `exists_orient_settle`: exact placement.
* `Envelope.spans_convex` and its companions for the other envelopes.
-/

namespace PackedDrawing

open Point Record

namespace Envelope

/-- The polygons of an envelope span the points they are built from. -/
def Spans (envelope : Envelope ℝ) : Prop :=
  ∀ ps, ps ≠ [] → ∃ outline, envelope ps = .ok outline ∧ SameHull outline.vertices ps

theorem spans_convex : Spans convex := fun ps _ => ⟨_, rfl, Hull.sameHull_corners ps⟩

theorem spans_clockwise : Spans clockwise := by
  intro ps _
  refine ⟨_, rfl, SameHull.trans (sameHull_of_mem_iff ?_) (Hull.sameHull_corners ps)⟩
  intro p
  exact List.mem_reverse

theorem spans_doubled : Spans doubled := by
  intro ps _
  refine ⟨_, rfl, SameHull.trans (sameHull_of_mem_iff ?_) (Hull.sameHull_corners ps)⟩
  intro p
  simp [List.mem_flatMap]

theorem spans_same : Spans same := fun _ _ => ⟨_, rfl, rfl⟩

end Envelope

/-- A component whose records have different homes is placed exactly: it is never taller than wide,
it touches the border of its box on the left and below, it stays inside the border, and the box is
at most one wider and higher than it has to be. -/
theorem exists_orient_settle {records : List Record} {d : Drawing ℝ} {ps : List (Point ℝ)}
    (hne : records ≠ []) (hslots : (records.map (home d)).Nodup)
    (hread : records.mapM (Record.point d) = .ok ps) {envelope : Envelope ℝ} {outline : Polygon ℝ}
    (henvelope : envelope (centred ps) = .ok outline)
    (hspan : SameHull outline.vertices (centred ps)) (border : Int) (offset : Offset) :
    (∃ g d₁ d₂ placed size, orient records border envelope d = (.ok g, d₁) ∧
      settle records g offset d₁ = (.ok (), d₂) ∧
      records.mapM (Record.point d₂) = .ok placed ∧ g.border = border ∧ 1 ≤ g.height ∧
      g.height ≤ g.width ∧ g.Holds offset placed ∧ g.box = .ok size ∧ g.Boxed size) ∧
    ∀ e ∈ [Envelope.convex, Envelope.clockwise, Envelope.doubled, Envelope.same], e.Spans := by
  constructor
  · have hlength := (mapM_eq_ok_iff.mp hread).length_eq
    have hps : ps ≠ [] := by
      rintro rfl
      exact hne (List.length_eq_zero_iff.mp hlength)
    have hcentred : centred ps ≠ [] := by
      intro h
      exact hps (List.map_eq_nil_iff.mp h)
    obtain ⟨d₁, hwrites₁, horient⟩ := orient_writes border envelope hread hps
    have hmoves₁ := hwrites₁.moves
    obtain ⟨g, hg, hborder, hone, hflat, hholds⟩ :=
      Pose.exists_ofPolygon hcentred hspan border
    have hread₁ := hmoves₁.mapM_point hread
    have hhomes : records.map (home d₁) = records.map (home d) :=
      List.map_congr_left fun r _ => hmoves₁.shape.home_eq r
    obtain ⟨d₂, hsettle, hmoves₂⟩ := settle_moves g offset (hhomes ▸ hslots) (by
      intro r hr
      obtain ⟨p, _, hp⟩ := exists_of_mapM hread₁ hr
      exact ⟨p, hp⟩)
    refine ⟨g, d₁, d₂, _, g.boxOf, ?_, hsettle, hmoves₂.mapM_point hread₁, hborder, hone, hflat,
      hholds offset, g.box_eq_boxOf, g.boxed_boxOf⟩
    rw [horient, henvelope]
    exact congrArg (·, d₁) hg
  · intro e he
    simp only [List.mem_cons, List.not_mem_nil, or_false] at he
    rcases he with rfl | rfl | rfl | rfl
    · exact Envelope.spans_convex
    · exact Envelope.spans_clockwise
    · exact Envelope.spans_doubled
    · exact Envelope.spans_same

/-- Two nodes and a link with a bend. -/
noncomputable def bentLink : Drawing ℝ :=
  { nodes := [{ Node.blank with x := .int 0, y := .int 0 },
      { Node.blank with x := .int 3, y := .int 4 }]
    links := [{ source := .value (.int 0), target := .value (.int 1), length := .null
                weight := .null, bends := [⟨.int 1, .int 5⟩], extras := [] }] }

/-- The bend counted from the back. -/
theorem exists_orient_settle_bentLink : ∃ g d₁ d₂ placed,
    orient [node 0, node 1, bend 0 (-1)] (30 : Int) Envelope.convex bentLink = (.ok g, d₁) ∧
      settle [node 0, node 1, bend 0 (-1)] g ⟨5, 7⟩ d₁ = (.ok (), d₂) ∧
      [node 0, node 1, bend 0 (-1)].mapM (Record.point d₂) = .ok placed ∧
      g.Holds ⟨5, 7⟩ placed := by
  have hread : [node 0, node 1, bend 0 (-1)].mapM (Record.point bentLink) =
      .ok [⟨(0 : Int), (0 : Int)⟩, ⟨(3 : Int), (4 : Int)⟩, ⟨(1 : Int), (5 : Int)⟩] := rfl
  have henvelope (ps : List (Point ℝ)) : Envelope.convex ps = .ok (Polygon.hull ps) := rfl
  obtain ⟨⟨g, d₁, d₂, placed, _, horient, hsettle, hplaced, _, _, _, hholds, _⟩, _⟩ :=
    exists_orient_settle (List.cons_ne_nil _ _) (by decide) hread (henvelope _)
      (Hull.sameHull_corners _) 30 ⟨5, 7⟩
  exact ⟨g, d₁, d₂, placed, horient, hsettle, hplaced, hholds⟩

end PackedDrawing
