import PackedDrawing.Proofs.Plane.Isometry
import PackedDrawing.Proofs.Layout.Translated

/-!
# The area of a component's rectangle

With the convex hull as envelope, the rectangle of a component has the same area wherever the
component lies and however it is turned or mirrored. Packing moves components rigidly, so packing
what was packed already finds the same areas again.

## Main statements

* `Mosaic.area_of_posed`: the area of a pose is that of the smallest rectangle around the points.
* `Mosaic.settled_again`: packing again keeps the areas.
* `Mosaic.area_of_shape`: the area depends only on the shape.
-/

namespace PackedDrawing

open Point (Isometric centroid centred)
open Record

/-- A pose has the area of the smallest rectangle on an edge. -/
theorem Pose.area_ofPolygon {outline : Polygon ℝ} {border : Int} {g : Pose ℝ Int}
    (h : Pose.ofPolygon outline border = .ok g) :
    g.width * g.height = (Rectangle.smallest outline).area := by
  rcases Rectangle.flat_cases (Rectangle.smallest outline) with ⟨_, hflat⟩ | ⟨_, hflat⟩
  · obtain ⟨g', hg', _, hwidth, hheight, _⟩ := ofPolygon_eq outline border hflat
    obtain rfl := Except.ok.inj (hg'.symm.trans h)
    rw [hwidth, hheight, Rectangle.area]
  · obtain ⟨g', hg', _, hwidth, hheight, _⟩ := ofPolygon_eq outline border hflat
    obtain rfl := Except.ok.inj (hg'.symm.trans h)
    rw [hwidth, hheight, Rectangle.area, mul_comm]

/-- Points have the same rectangle when they are centred. -/
theorem Point.area_hull_centred (ps : List (Point ℝ)) :
    (Rectangle.smallest (Polygon.hull (centred ps))).area =
      (Rectangle.smallest (Polygon.hull ps)).area :=
  Rectangle.area_hull_of_image (isometric_sub (centroid ps)) fun _ => List.mem_map

namespace Mosaic

variable {s : Mosaic ℝ} {b b' : Board ℝ} {d d' : Drawing ℝ} {g : Grouping}

/-- Choosing a pose for the convex hull of points succeeds. -/
theorem exists_orient_convex {records : List Record} {ps : List (Point ℝ)} (border : Int)
    (hread : records.mapM (Record.point d) = .ok ps) (hne : ps ≠ []) :
    ∃ (pose : Pose ℝ Int) (u : Drawing ℝ), orient records border Envelope.convex d = (.ok pose, u) ∧
      pose.width * pose.height = (Rectangle.smallest (Polygon.hull ps)).area := by
  obtain ⟨u, _, horient⟩ := orient_writes border Envelope.convex hread hne
  obtain ⟨pose, hpose, _⟩ := Pose.ofPolygon_eq (Polygon.hull (centred ps)) border rfl
  refine ⟨pose, u, ?_, ?_⟩
  · rw [horient]
    exact congrArg (·, u) hpose
  · rw [Pose.area_ofPolygon hpose, Point.area_hull_centred]

/-- The pose of a component has the area of the smallest rectangle around its points. -/
theorem area_of_posed {records : List Record} {pose : Pose ℝ Int} (henvelope : s.envelope = .convex)
    (h : s.Posed d records pose) : pose.width * pose.height =
      (Rectangle.smallest (Polygon.hull (records.map (read d)))).area := by
  obtain ⟨outline, houtline, hpose⟩ := h.chosen
  rw [henvelope] at houtline
  obtain rfl := Except.ok.inj houtline
  rw [Pose.area_ofPolygon hpose, Point.area_hull_centred]

theorem isometric_place (x : Placed) (c : Point ℝ) : Isometric fun p => x.place (p - c) :=
  (Point.isometric_carry _ _).comp (Point.isometric_sub c)

/-- A component that is posed again where it was placed has the same area. -/
theorem area_of_placed (henvelope : s.envelope = .convex) {x x' : Placed}
    (hrecords : x.records = x'.records) (h : s.Posed d x.records x.pose)
    (h' : s.Posed d' x'.records x'.pose)
    (hmoved : ∀ r ∈ x.records,
      r.point d' = (r.point d).map fun p => x.place (p - centreOf d x.records)) :
    x.pose.width * x.pose.height = x'.pose.width * x'.pose.height := by
  have hread : ∀ r ∈ x.records, read d' r = x.place (read d r - centreOf d x.records) := by
    intro r hr
    rw [Record.read, hmoved r hr, point_eq_read (h.readable r hr)]
    rfl
  rw [area_of_posed henvelope h, area_of_posed henvelope h', ← hrecords]
  symm
  apply Rectangle.area_hull_of_image (isometric_place x (centreOf d x.records))
  intro q
  rw [List.mem_map]
  constructor
  · rintro ⟨r, hr, rfl⟩
    exact ⟨_, List.mem_map_of_mem hr, (hread r hr).symm⟩
  · rintro ⟨_, hp, rfl⟩
    obtain ⟨r, hr, rfl⟩ := List.mem_map.mp hp
    exact ⟨r, hr, hread r hr⟩

section Frames

variable {α : Type} [Scalar α] {s : Mosaic α} {d d' : Drawing α}

theorem frame_poseComponent {nodes : List Handle} {edges : List Nat}
    {answer : List Record × Pose α Int} (h : s.poseComponent nodes edges d = (.ok answer, d')) :
    d'.frame = d.frame := by
  obtain ⟨_, d₁, hstate, h⟩ := Act.bind_eq_ok.mp h
  obtain ⟨records, d₂, hrecords, h⟩ := Act.bind_eq_ok.mp h
  obtain ⟨pose, d₃, horient, hpair⟩ := Act.bind_eq_ok.mp h
  obtain rfl := (Prod.mk.inj hstate).2
  obtain ⟨_, rfl⟩ := Act.attempt_eq_ok.mp hrecords
  obtain ⟨_, rfl⟩ := Act.pure_eq_ok.mp hpair
  obtain ⟨c, hcentre⟩ := centre_of_orient horient
  obtain ⟨_, _, _, _, hwrites⟩ := writes_of_centre hcentre
  exact hwrites.frame

/-- Posing changes only positions and bends, and poses each component once. -/
theorem frame_poseAll {parts : List (List Handle × List Nat)}
    {oriented : List (List Record × Pose α Int)} (h : s.poseAll parts d = (.ok oriented, d')) :
    d'.frame = d.frame ∧ oriented.length = parts.length := by
  induction parts generalizing d oriented with
  | nil =>
      obtain ⟨rfl, rfl⟩ := Act.pure_eq_ok.mp h
      exact ⟨rfl, rfl⟩
  | cons x rest ih =>
      obtain ⟨first, u, hfirst, h⟩ := Act.bind_eq_ok.mp h
      obtain ⟨others, u', hothers, h⟩ := Act.bind_eq_ok.mp h
      obtain ⟨rfl, rfl⟩ := Act.pure_eq_ok.mp h
      obtain ⟨hframe, hlength⟩ := ih hothers
      exact ⟨hframe.trans (frame_poseComponent hfirst), congrArg Nat.succ hlength⟩

theorem frame_placeRecord {pose : Pose α Int} {offset : Offset} {r : Record}
    (h : placeRecord pose offset r d = (.ok (), d')) : d'.frame = d.frame := by
  obtain ⟨u, d₁, hstate, h⟩ := Act.bind_eq_ok.mp h
  obtain ⟨p, d₂, hpoint, h⟩ := Act.bind_eq_ok.mp h
  obtain ⟨q, d₃, hplace, h⟩ := Act.bind_eq_ok.mp h
  obtain rfl := (Prod.mk.inj hstate).2
  obtain ⟨_, rfl⟩ := Act.attempt_eq_ok.mp hpoint
  obtain ⟨_, rfl⟩ := Act.attempt_eq_ok.mp hplace
  obtain rfl := (Prod.mk.inj h).2
  exact frame_move q d r

/-- Packing changes only positions and bends, and answers with a pose, a box and an offset for each
component. -/
theorem frame_packComponents {g : Grouping} {poses : List (Pose α Int)} {offsets : List Offset}
    (h : s.packComponents g d = (.ok (poses, offsets), d')) :
    d'.frame = d.frame ∧ poses.length = (g.nodes.zip g.links).length ∧
      ∃ sizes, boxesOf poses = .ok sizes ∧ sizes.length = poses.length ∧
        offsets.length = poses.length := by
  obtain ⟨os, u, hposes, h⟩ := Act.bind_eq_ok.mp h
  obtain ⟨sizes, u₁, hboxes, h⟩ := Act.bind_eq_ok.mp h
  obtain ⟨answer, u₂, hpack, h⟩ := Act.bind_eq_ok.mp h
  obtain ⟨_, u₃, hsettle, h⟩ := Act.bind_eq_ok.mp h
  obtain ⟨hanswer, rfl⟩ := Act.pure_eq_ok.mp h
  obtain ⟨rfl, rfl⟩ := Prod.mk.inj hanswer
  obtain ⟨hsizes, rfl⟩ := Act.attempt_eq_ok.mp hboxes
  obtain ⟨hoffsets, rfl⟩ := Act.attempt_eq_ok.mp hpack
  obtain ⟨hposed, hlength⟩ := frame_poseAll hposes
  have hplaced : u₃.frame = u.frame := by
    apply Act.each_keeps _ hsettle
    intro x _ t t' hx
    apply Act.each_keeps _ hx
    intro r _ t t' hr
    exact frame_placeRecord hr
  have hcount : sizes.length = (os.map Prod.snd).length :=
    (mapM_eq_ok_iff.mp hsizes).length_eq.symm
  refine ⟨hplaced.trans hposed, (List.length_map _).trans hlength, sizes, hsizes, hcount, ?_⟩
  exact (pack_eq_ok_iff.mp hoffsets).2.trans hcount

end Frames

/-- What settling the components of a drawing amounts to. -/
theorem settled_of_settle {poses : List (Pose ℝ Int)} (h : s.settle none b = (.ok poses, b')) :
    ∃ g xs, groupingOf b.drawing.numberNodes = .ok g ∧
      s.Packed (g.nodes.zip g.links) xs b.drawing.numberNodes b'.drawing ∧
      poses = xs.map Placed.pose ∧ b'.drawing.frame = b.drawing.numberNodes.frame := by
  obtain ⟨g, offsets, d', hg, hpack, rfl⟩ := settle_eq_ok_iff.mp h
  have hparts := apart_of_shares (shares_of_groupingOf hg).2 s.flags
  obtain ⟨xs, hpacked, hposes, _⟩ := packed_of_packComponents hparts hpack
  exact ⟨g, xs, hg, hpacked, hposes, (frame_packComponents hpack).1⟩

/-- A settled drawing is numbered, and has the components that were settled. -/
theorem groupingOf_settled (hg : groupingOf b.drawing.numberNodes = .ok g)
    (hframe : b'.drawing.frame = b.drawing.numberNodes.frame) :
    b'.drawing.numberNodes = b'.drawing ∧ groupingOf b'.drawing.numberNodes = .ok g := by
  have hgraph := Drawing.graph_of_frame hframe
  have hnumbered := Drawing.numberNodes_of_graph hgraph
  refine ⟨hnumbered, ?_⟩
  rw [hnumbered, Drawing.groupingOf_of_graph hgraph, hg]

/-- Settling what was settled succeeds if the packer answers, and finds the same areas. -/
theorem settled_again {poses : List (Pose ℝ Int)} (henvelope : s.envelope = .convex)
    (h : s.settle none b = (.ok poses, b')) :
    (∀ poses' b'', s.settle none b' = (.ok poses', b'') →
      List.Forall₂ (fun pose pose' => pose.width * pose.height = pose'.width * pose'.height)
        poses poses') ∧
    ((∀ sizes, ∃ offsets, s.packer sizes s.ratio = .ok offsets ∧ offsets.length = sizes.length) →
      ∃ poses' b'', s.settle none b' = (.ok poses', b'')) := by
  obtain ⟨g, xs, hg, hpacked, rfl, hframe⟩ := settled_of_settle h
  obtain ⟨hnumbered, hagain⟩ := groupingOf_settled hg hframe
  have hshape := hpacked.moved.shape
  have hsame : ∀ part, ofPart b'.drawing s.flags part = ofPart b.drawing.numberNodes s.flags part :=
    fun part => hshape.ofPart_eq s.flags part
  constructor
  · intro poses' b'' h'
    obtain ⟨g', xs', hg', hpacked', rfl, _⟩ := settled_of_settle h'
    obtain rfl := Except.ok.inj (hagain.symm.trans hg')
    rw [hnumbered] at hpacked'
    have hrecords : xs.map Placed.records = xs'.map Placed.records := by
      rw [hpacked.records, hpacked'.records]
      exact List.map_congr_left fun part _ => (hsame part).symm
    have hpairs : List.Forall₂ (fun x x' => x.records = x'.records) xs xs' := by
      have heq : List.Forall₂ Eq (xs.map Placed.records) (xs'.map Placed.records) := by
        rw [hrecords]
        exact List.forall₂_refl _
      rwa [List.forall₂_map_left_iff, List.forall₂_map_right_iff] at heq
    rw [List.forall₂_map_left_iff, List.forall₂_map_right_iff]
    apply List.forall₂_iff_zip.mpr
    refine ⟨hpairs.length_eq, ?_⟩
    intro x x' hmem
    obtain ⟨hx, hx'⟩ := List.of_mem_zip hmem
    exact area_of_placed henvelope ((List.forall₂_iff_zip.mp hpairs).2 hmem) (hpacked.posed x hx)
      (hpacked'.posed x' hx') (hpacked.moved.moved x hx)
  · intro hpacker
    have hparts := apart_of_shares (shares_of_groupingOf hagain).2 s.flags
    have hplaced : ∀ part ∈ g.nodes.zip g.links, ∃ x ∈ xs,
        ofPart b'.drawing s.flags part = x.records := by
      intro part hpart
      rw [hsame]
      exact exists_of_map_eq hpacked.records.symm hpart
    rw [hnumbered] at hparts
    obtain ⟨⟨poses', offsets⟩, d'', hpack⟩ := exists_packComponents hparts
      (by
        intro part hpart r hr
        obtain ⟨x, hx, heq⟩ := hplaced part hpart
        rw [heq] at hr
        obtain ⟨p, hp⟩ := (hpacked.posed x hx).readable r hr
        rw [hpacked.moved.moved x hx r hr, hp]
        exact ⟨_, rfl⟩)
      (by
        intro part hpart
        obtain ⟨x, hx, heq⟩ := hplaced part hpart
        rw [heq]
        exact (hpacked.posed x hx).nonempty)
      (fun ps _ => ⟨Polygon.hull ps, henvelope ▸ rfl⟩) hpacker
    rw [← hnumbered] at hpack
    exact ⟨poses', _, settle_eq_ok_iff.mpr ⟨g, offsets, d'', hagain, hpack, rfl⟩⟩

/-- The area of the rectangle of a component depends only on its shape: on the points, turned,
mirrored or moved, in any order and any number, and for a polygon not on how it is listed. Settling
what was settled finds the same areas. -/
theorem area_of_shape (s : Mosaic ℝ) (henvelope : s.envelope = .convex) :
    (∀ f, Isometric f → ∀ (d d' : Drawing ℝ) (records records' : List Record)
      (ps qs : List (Point ℝ)) (border border' : Int),
      records.mapM (Record.point d) = .ok ps → records'.mapM (Record.point d') = .ok qs → ps ≠ [] →
      (∀ q, q ∈ qs ↔ ∃ p ∈ ps, f p = q) →
      ∃ (pose pose' : Pose ℝ Int) (u u' : Drawing ℝ),
        orient records border s.envelope d = (.ok pose, u) ∧
        orient records' border' s.envelope d' = (.ok pose', u') ∧
        pose.width * pose.height = pose'.width * pose'.height) ∧
    (∀ vs : List (Point ℝ),
      (Rectangle.smallest ⟨vs.reverse⟩).area = (Rectangle.smallest ⟨vs⟩).area ∧
      (∀ n, (Rectangle.smallest ⟨vs.rotate n⟩).area = (Rectangle.smallest ⟨vs⟩).area) ∧
      ∀ counts : List Nat, counts.length = vs.length →
        (Rectangle.smallest ⟨Rectangle.repeated vs counts⟩).area =
          (Rectangle.smallest ⟨vs⟩).area) ∧
    ∀ b poses b', s.settle none b = (.ok poses, b') →
      (∀ poses' b'', s.settle none b' = (.ok poses', b'') →
        List.Forall₂ (fun pose pose' => pose.width * pose.height = pose'.width * pose'.height)
          poses poses') ∧
      ((∀ sizes, ∃ offsets, s.packer sizes s.ratio = .ok offsets ∧
        offsets.length = sizes.length) → ∃ poses' b'', s.settle none b' = (.ok poses', b'')) := by
  refine ⟨?_, ?_, fun b poses b' => settled_again henvelope⟩
  · intro f hf d d' records records' ps qs border border' hps hqs hne himage
    have hne' : qs ≠ [] := by
      obtain ⟨p, hp⟩ := List.exists_mem_of_ne_nil ps hne
      exact List.ne_nil_of_mem ((himage (f p)).mpr ⟨p, hp, rfl⟩)
    obtain ⟨pose, u, hpose, harea⟩ := exists_orient_convex border hps hne
    obtain ⟨pose', u', hpose', harea'⟩ := exists_orient_convex border' hqs hne'
    rw [henvelope]
    refine ⟨pose, pose', u, u', hpose, hpose', ?_⟩
    rw [harea, harea', Rectangle.area_hull_of_image hf himage]
  · intro vs
    exact ⟨Rectangle.area_reverse vs, Rectangle.area_rotate vs, fun _ => Rectangle.area_repeated vs⟩

/-- The link of `bentLinkAndNode`, mirrored, with its points in another order and one of them
twice. -/
noncomputable def mirroredLink : Drawing ℝ :=
  { nodes := [{ Node.blank with x := .int 1, y := .int (-5) },
      { Node.blank with x := .int 0, y := .int 0 }, { Node.blank with x := .int 3, y := .int (-4) },
      { Node.blank with x := .int 0, y := .int 0 }]
    links := [] }

theorem area_of_shape_bentLinkAndNode :
    (∃ (pose pose' : Pose ℝ Int) (u u' : Drawing ℝ),
      orient [node 0, node 1, bend 0 0] 30 piled.envelope bentLinkAndNode = (.ok pose, u) ∧
      orient [node 0, node 1, node 2, node 3] 7 piled.envelope mirroredLink = (.ok pose', u') ∧
      pose.width * pose.height = pose'.width * pose'.height) ∧
    (Rectangle.smallest ⟨[⟨0, 0⟩, ⟨3, 4⟩, ⟨3, 4⟩, ⟨3, 4⟩, ⟨1, 5⟩]⟩).area =
      (Rectangle.smallest (⟨[⟨0, 0⟩, ⟨3, 4⟩, ⟨1, 5⟩]⟩ : Polygon ℝ)).area ∧
    ∃ poses b' poses' b'', piled.settle none { drawing := bentLinkAndNode } = (.ok poses, b') ∧
      piled.settle none b' = (.ok poses', b'') ∧
      List.Forall₂ (fun pose pose' => pose.width * pose.height = pose'.width * pose'.height)
        poses poses' := by
  obtain ⟨hmotions, hlistings, hagain⟩ := area_of_shape piled rfl
  refine ⟨?_, (hlistings [⟨0, 0⟩, ⟨3, 4⟩, ⟨1, 5⟩]).2.2 [0, 2, 0] rfl, ?_⟩
  · have hread : [node 0, node 1, bend 0 0].mapM (Record.point bentLinkAndNode) =
        .ok [⟨(0 : Int), (0 : Int)⟩, ⟨(3 : Int), (4 : Int)⟩, ⟨(1 : Int), (5 : Int)⟩] := rfl
    have hread' : [node 0, node 1, node 2, node 3].mapM (Record.point mirroredLink) =
        .ok [⟨(1 : Int), (-5 : Int)⟩, ⟨(0 : Int), (0 : Int)⟩, ⟨(3 : Int), (-4 : Int)⟩,
          ⟨(0 : Int), (0 : Int)⟩] := rfl
    apply hmotions Point.mirror Point.isometric_mirror _ _ _ _ _ _ 30 7 hread hread'
      (List.cons_ne_nil _ _)
    intro q
    simp [Point.mirror]
    tauto
  · obtain ⟨poses, b', hok⟩ := exists_settle_bentLinkAndNode
    obtain ⟨hsame, htotal⟩ := hagain _ poses b' hok
    obtain ⟨poses', b'', hok'⟩ := htotal fun sizes => ⟨_, rfl, List.length_map _⟩
    exact ⟨poses, b', poses', b'', hok, hok', hsame poses' b'' hok'⟩

end Mosaic

end PackedDrawing
