import PackedDrawing.Proofs.Layout.Translated

/-!
# Packings that are refused

A packer has to answer with one offset for each box. When it does not, settling fails. By then the
components are known and have been centred, which is done to the drawing itself; poses and offsets
are still those of the last packing.

## Main definitions

* `Centred`: the components of a drawing were centred, and nothing else was changed.
* `Mosaic.Asked`: the boxes that a packer is asked about.

## Main statements

* `Mosaic.centred_of_poseAll`: posing components centres them.
* `Mosaic.settle_refused`: what is left when an answer of the packer is refused.
-/

namespace PackedDrawing

open Record

variable {α : Type} [Scalar α]

/-- Components of a drawing were centred: the mean of the points of each of them was subtracted from
these points, and nothing else was changed. -/
structure Centred (flags : Flags) (parts : List (List Handle × List Nat)) (d d' : Drawing α) :
    Prop where
  shape : SameShape d d'
  frame : d'.frame = d.frame
  centred : ∀ part ∈ parts, ∃ p ps c,
    (ofPart d flags part).mapM (Record.point d) = .ok (p :: ps) ∧ mean p ps = .ok c ∧
      ∀ r ∈ ofPart d flags part, ∃ q, r.point d = .ok q ∧ held d' r = some ((q - c).map .real)
  kept : ∀ r : Record, (∀ part ∈ parts, home d r ∉ ofPart d flags part) → held d' r = held d r

namespace Centred

variable {flags : Flags} {parts : List (List Handle × List Nat)} {d u d' : Drawing α}

theorem nil (flags : Flags) (d : Drawing α) : Centred flags [] d d :=
  ⟨SameShape.refl d, rfl, fun _ hpart => absurd hpart List.not_mem_nil, fun _ _ => rfl⟩

/-- One component is centred first, and then others that share no record with it. -/
theorem cons {x : List Handle × List Nat} {p c : Point α} {ps : List (Point α)}
    (hread : (ofPart d flags x).mapM (Record.point d) = .ok (p :: ps)) (hmean : mean p ps = .ok c)
    (hwrites : Writes (ofPart d flags x) (· - c) d u) (h : Centred flags parts u d')
    (hdisjoint : ∀ y ∈ parts, (ofPart d flags x).Disjoint (ofPart d flags y)) :
    Centred flags (x :: parts) d d' := by
  have hpart := hwrites.shape.ofPart_eq flags
  constructor
  case shape => exact hwrites.shape.trans h.shape
  case frame => rw [h.frame, hwrites.frame]
  case centred =>
    intro y hy
    rcases List.mem_cons.mp hy with rfl | hy
    · refine ⟨p, ps, c, hread, hmean, ?_⟩
      intro r hr
      obtain ⟨q, hq, hheld⟩ := hwrites.written r ((home_ofPart hr).symm ▸ hr)
      refine ⟨q, hq, ?_⟩
      rw [h.kept r, hheld]
      intro z hz
      rw [hwrites.shape.home_eq, hpart, home_ofPart hr]
      exact hdisjoint z hz hr
    · -- the points of the others are still where they were
      have hkept : ∀ r ∈ ofPart d flags y, r.point u = r.point d := by
        intro r hr
        apply hwrites.moves.point_kept
        rw [home_ofPart hr]
        exact fun hr' => hdisjoint y hy hr' hr
      obtain ⟨q, qs, c', hread', hmean', hmoved⟩ := h.centred y hy
      rw [hpart] at hread' hmoved
      rw [mapM_congr hkept] at hread'
      refine ⟨q, qs, c', hread', hmean', ?_⟩
      intro r hr
      rw [← hkept r hr]
      exact hmoved r hr
  case kept =>
    intro r hr
    rw [List.forall_mem_cons] at hr
    rw [h.kept r, hwrites.kept r hr.1]
    intro y hy
    rw [hwrites.shape.home_eq, hpart]
    exact hr.2 y hy

end Centred

namespace Mosaic

variable {s : Mosaic α} {d d' : Drawing α} {parts : List (List Handle × List Nat)} {g : Grouping}

/-- Posing components that share no record centres them. -/
theorem centred_of_poseAll {oriented : List (List Record × Pose α Int)}
    (hparts : ∀ x ∈ parts, HasPart d x)
    (hdisjoint : parts.Pairwise fun x y => (ofPart d s.flags x).Disjoint (ofPart d s.flags y))
    (h : s.poseAll parts d = (.ok oriented, d')) : Centred s.flags parts d d' := by
  induction parts generalizing d oriented with
  | nil =>
      obtain ⟨_, rfl⟩ := Act.pure_eq_ok.mp h
      exact Centred.nil s.flags d
  | cons x rest ih =>
      rw [List.pairwise_cons] at hdisjoint
      rw [List.forall_mem_cons] at hparts
      obtain ⟨first, u, hfirst, h⟩ := Act.bind_eq_ok.mp h
      obtain ⟨others, u', hothers, h⟩ := Act.bind_eq_ok.mp h
      obtain ⟨_, rfl⟩ := Act.pure_eq_ok.mp h
      rw [poseComponent_eq hparts.1] at hfirst
      obtain ⟨g, u'', horient, hpair⟩ := Act.bind_eq_ok.mp hfirst
      obtain ⟨_, rfl⟩ := Act.pure_eq_ok.mp hpair
      obtain ⟨c, hcentre⟩ := centre_of_orient horient
      obtain ⟨p, ps, hread, hmean, hwrites⟩ := writes_of_centre hcentre
      rw [map_home_ofPart] at hwrites
      refine Centred.cons hread hmean hwrites (ih ?_ ?_ hothers) hdisjoint.1
      · exact fun y hy => (hparts.2 y hy).of_sameShape hwrites.shape
      · refine hdisjoint.2.imp ?_
        intro y z hyz
        rw [hwrites.shape.ofPart_eq, hwrites.shape.ofPart_eq]
        exact hyz

/-- The boxes that the packer is asked about, and the drawing as it is then. -/
def Asked (s : Mosaic α) (g : Grouping) (d : Drawing α) (boxes : List Box) (d' : Drawing α) :
    Prop :=
  ∃ oriented, s.poseAll (g.nodes.zip g.links) d = (.ok oriented, d') ∧
    boxesOf (oriented.map Prod.snd) = .ok boxes

omit [Scalar α] in
theorem pack_of_refused {boxes : List Box} {offsets : List Offset}
    (hanswer : s.packer boxes s.ratio = .ok offsets) (hcount : offsets.length ≠ boxes.length) :
    s.pack boxes = .error (.offsetCount offsets.length boxes.length) := by
  have hcount' : ¬ (offsets.length : Int) = boxes.length := fun h => hcount (Int.ofNat.inj h)
  rw [pack, hanswer, ok_bind, Check.offsets, if_neg hcount']
  rfl

theorem Asked.packComponents {boxes : List Box} {e : Fault} (h : s.Asked g d boxes d')
    (hpack : s.pack boxes = .error e) : s.packComponents g d = (.error e, d') := by
  obtain ⟨oriented, hposes, hboxes⟩ := h
  rw [Mosaic.packComponents, Act.bind_of_ok hposes, hboxes, Act.bind_of_ok (Act.attempt_apply _ _),
    hpack, Act.bind_of_error (Act.attempt_apply _ _)]

/-- Until the packer is asked, the components of the drawing have been centred. -/
theorem Asked.centred {boxes : List Box} (h : s.Asked g d boxes d')
    (hshares : g.Shares d.nodes.length d.ends) :
    Centred s.flags (g.nodes.zip g.links) d d' := by
  obtain ⟨oriented, hposes, _⟩ := h
  refine centred_of_poseAll (fun x hx => part_of_shares hshares hx) ?_ hposes
  refine hshares.pairwise_disjoint.imp_of_mem ?_
  intro x y hx hy hxy
  exact disjoint_ofPart s.flags (part_of_shares hshares hx) (part_of_shares hshares hy) hxy

/-- When the packer answers with the wrong number of offsets, the drawing has been centred by its
components, the components are known, and everything else is as it was. -/
theorem settle_refused (s : Mosaic α) (b : Board α) (given : Option Grouping)
    (hg : groupingOf b.drawing.numberNodes = .ok g) (hgiven : given = none ∨ given = some g)
    {boxes : List Box} (hasked : s.Asked g b.drawing.numberNodes boxes d')
    {offsets : List Offset} (hanswer : s.packer boxes s.ratio = .ok offsets)
    (hcount : offsets.length ≠ boxes.length) :
    s.settle given b = (.error (.offsetCount offsets.length boxes.length),
        { b with drawing := d', results := { b.results with components := some g } }) ∧
      Centred s.flags (g.nodes.zip g.links) b.drawing.numberNodes d' := by
  have hpack := hasked.packComponents (pack_of_refused hanswer hcount)
  refine ⟨settle_of_checked given ?_ hpack, hasked.centred (shares_of_groupingOf hg).2⟩
  rcases hgiven with rfl | rfl
  · exact hg
  · rfl

theorem exists_asked_bentLinkAndNode :
    ∃ boxes d', forgetful.Asked linkAndNode bentLinkAndNode.numberNodes boxes d' ∧
      boxes.length = 2 := by
  obtain ⟨_, hshares⟩ := shares_of_groupingOf groupingOf_bentLinkAndNode
  have hparts := apart_of_shares hshares Flags.plain
  obtain ⟨oriented, d', hposes⟩ := exists_poseAll (s := forgetful) hparts
    (fun part hpart => typed_bentLinkAndNode.readable.point (part_of_shares hshares hpart))
    (fun part hpart => ofPart_ne_nil hshares Flags.plain hpart) (fun ps _ => ⟨_, rfl⟩)
  obtain ⟨hrecords, _⟩ := posed_of_poseAll hparts hposes
  refine ⟨_, d', ⟨oriented, hposes, boxesOf_eq _⟩, ?_⟩
  have hlength := congrArg List.length hrecords
  rw [List.length_map, List.length_map] at hlength
  rw [List.length_map, List.length_map, hlength]
  rfl

theorem settle_refused_bentLinkAndNode :
    ∃ boxes d', groupingOf bentLinkAndNode.numberNodes = .ok linkAndNode ∧
      forgetful.Asked linkAndNode bentLinkAndNode.numberNodes boxes d' ∧
      forgetful.packer boxes forgetful.ratio = .ok [] ∧ ([] : List Offset).length ≠ boxes.length ∧
      forgetful.settle none { drawing := bentLinkAndNode } = (.error (.offsetCount 0 boxes.length),
        { drawing := d', results := { components := some linkAndNode } }) ∧
      Centred Flags.plain (linkAndNode.nodes.zip linkAndNode.links) bentLinkAndNode.numberNodes
        d' := by
  obtain ⟨boxes, d', hasked, hlength⟩ := exists_asked_bentLinkAndNode
  have hcount : ([] : List Offset).length ≠ boxes.length := by
    rw [hlength]
    decide
  have hanswer : forgetful.packer boxes forgetful.ratio = .ok [] := rfl
  obtain ⟨hsettle, hcentred⟩ := settle_refused forgetful { drawing := bentLinkAndNode } none
    groupingOf_bentLinkAndNode (Or.inl rfl) hasked hanswer hcount
  exact ⟨boxes, d', groupingOf_bentLinkAndNode, hasked, hanswer, hcount, hsettle, hcentred⟩

/-- The node apart from the link is not where it was, and the components are known. -/
theorem moved_by_refused_packing :
    ∃ b', forgetful.settle none { drawing := bentLinkAndNode } = (.error (.offsetCount 0 2), b') ∧
      (node 2).point bentLinkAndNode = .ok ⟨(7 : Int), (7 : Int)⟩ ∧
      (node 2).point b'.drawing = .ok ⟨0, 0⟩ ∧ b'.results.components = some linkAndNode := by
  obtain ⟨boxes, d', hasked, hlength⟩ := exists_asked_bentLinkAndNode
  obtain ⟨_, hshares⟩ := shares_of_groupingOf groupingOf_bentLinkAndNode
  have hanswer : forgetful.packer boxes forgetful.ratio = .ok [] := rfl
  have hpack : forgetful.pack boxes = .error (.offsetCount 0 2) := by
    rw [pack_of_refused hanswer (by rw [hlength]; decide), hlength]
    rfl
  refine ⟨_, settle_of_checked (b := { drawing := bentLinkAndNode }) none
    groupingOf_bentLinkAndNode (hasked.packComponents hpack), rfl, ?_, rfl⟩
  have hpart : ([⟨2, false⟩], []) ∈ linkAndNode.nodes.zip linkAndNode.links := by decide
  obtain ⟨p, ps, c, hread, hmean, hmoved⟩ := (hasked.centred hshares).centred _ hpart
  obtain ⟨q, hq, hheld⟩ := hmoved (node 2) List.mem_cons_self
  have hthere : (node 2).point bentLinkAndNode.numberNodes = .ok ⟨(7 : Int), (7 : Int)⟩ := rfl
  obtain rfl := Except.ok.inj (hthere.symm.trans hq)
  have halone : (ofPart bentLinkAndNode.numberNodes forgetful.flags ([⟨2, false⟩], [])).mapM
      (Record.point bentLinkAndNode.numberNodes) = .ok [⟨(7 : Int), (7 : Int)⟩] := rfl
  obtain ⟨rfl, rfl⟩ := List.cons.inj (Except.ok.inj (halone.symm.trans hread))
  rw [Point.mean_eq, Except.ok.injEq] at hmean
  subst hmean
  rw [point_eq, hheld]
  have horigin : (⟨(7 : Int), (7 : Int)⟩ : Point ℝ) - Point.centroid [⟨(7 : Int), (7 : Int)⟩] =
      ⟨0, 0⟩ := by
    apply Point.ext_iff.mpr
    simp [Point.centroid]
  rw [horigin]
  rfl

end Mosaic

end PackedDrawing
