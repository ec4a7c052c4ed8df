import PackedDrawing.Proofs.Layout.Home
import PackedDrawing.Proofs.Packing.Shelves
import PackedDrawing.Proofs.Placement.Exact

/-!
# Packed components are apart

Every component lies inside its box with half a border on each side, and boxes do not overlap. So
when a drawing has been laid out by components, any two points of different components differ by the
border in one of the coordinates, give or take the slack by which the sides of boxes are rounded.

## Main definitions

* `Point.Clear`: two points differ by a distance in one of the coordinates.
* `Separated`: any two points of different components are clear of each other by the border.

## Main statements

* `Pose.Holds.clear`: the contents of boxes that do not overlap.
* `Mosaic.run_eq_ok_iff`: what a run amounts to.
* `Mosaic.run_separated`: a run separates the components, and it succeeds on checked drawings.
-/

namespace PackedDrawing

open Point (centred centroid carry)
open Record

namespace Point

/-- Two points differ by at least a distance in one of the coordinates. -/
def Clear (distance : ℝ) (p q : Point ℝ) : Prop :=
  distance ≤ |p.x - q.x| ∨ distance ≤ |p.y - q.y|

theorem Clear.ne {distance : ℝ} {p q : Point ℝ} (h : Clear distance p q) (hpos : 0 < distance) :
    p ≠ q := by
  rintro rfl
  simp only [Clear, sub_self, abs_zero, or_self] at h
  exact absurd hpos (not_lt.mpr h)

end Point

namespace Pose

/-- What lies in two boxes side by side, with half a border on each side. -/
theorem le_abs_sub_of_beside {o o' side : Int} {border extent p p' : ℝ} (h : o + side ≤ o')
    (hside : border + extent - 1e-9 ≤ side) (hp : p ≤ o + border / 2 + extent)
    (hp' : o' + border / 2 ≤ p') : border - 1e-9 ≤ |p - p'| := by
  have hcast : (o : ℝ) + side ≤ o' := by exact_mod_cast h
  calc
    border - 1e-9 ≤ side - extent := by linarith
    _ ≤ p' - p := by linarith
    _ = -(p - p') := (neg_sub p p').symm
    _ ≤ |p - p'| := neg_le_abs (p - p')

/-- The contents of boxes that do not overlap are clear of each other by the border. -/
theorem Holds.clear {g g' : Pose ℝ Int} {o o' : Offset} {ps ps' : List (Point ℝ)} {size size' : Box}
    (h : g.Holds o ps) (h' : g'.Holds o' ps') (hborder : g'.border = g.border)
    (hsize : g.Boxed size) (hsize' : g'.Boxed size')
    (hapart : Packing.overlap o size o' size' = false) :
    ∀ p ∈ ps, ∀ p' ∈ ps', Point.Clear (g.border - 1e-9) p p' := by
  intro p hp p' hp'
  have hwidth := hsize'.le_width
  have hheight := hsize'.le_height
  have hleft := h'.left_le p' hp'
  have hright := h'.le_right p' hp'
  have htop := h'.top_le p' hp'
  have hbottom := h'.le_bottom p' hp'
  rw [hborder] at hwidth hheight hleft hright htop hbottom
  rcases Packing.overlap_eq_false_iff.mp hapart with hx | hx | hy | hy
  · exact Or.inl (le_abs_sub_of_beside hx hsize.le_width (h.le_right p hp) hleft)
  · rw [Point.Clear, abs_sub_comm]
    exact Or.inl (le_abs_sub_of_beside hx hwidth hright (h.left_le p hp))
  · exact Or.inr (le_abs_sub_of_beside hy hsize.le_height (h.le_bottom p hp) htop)
  · rw [Point.Clear, abs_sub_comm p.y]
    exact Or.inr (le_abs_sub_of_beside hy hheight hbottom (h.top_le p hp))

theorem Boxed.width_nonneg {g : Pose ℝ Int} {size : Box} (h : g.Boxed size)
    (hborder : 0 ≤ g.border) (hwidth : 1 ≤ g.width) : 0 ≤ size.x := by
  have hle := h.le_width
  have hcast : (0 : ℝ) ≤ g.border := by exact_mod_cast hborder
  have hpos : (-1 : ℝ) < size.x := by linarith
  have hlt : -1 < size.x := by exact_mod_cast hpos
  omega

end Pose

/-- Any point at one of the records is clear of any point at the others by the border, give or take
the slack. If there is a border they are not the same point. -/
def ClearOf (border : Int) (d : Drawing ℝ) (records records' : List Record) : Prop :=
  ∀ r ∈ records, ∀ r' ∈ records', ∃ p p', r.point d = .ok p ∧ r'.point d = .ok p' ∧
    Point.Clear (border - 1e-9) p p' ∧ (1 ≤ border → p ≠ p')

/-- Any two components are clear of each other by the border. -/
def Separated (flags : Flags) (g : Grouping) (border : Int) (d : Drawing ℝ) : Prop :=
  (g.nodes.zip g.links).Pairwise fun part part' =>
    ClearOf border d (ofPart d flags part) (ofPart d flags part')

namespace Mosaic

section Placing

variable {s : Mosaic ℝ} {d d' : Drawing ℝ} {parts : List (List Handle × List Nat)}
  {xs : List Placed}

/-- Placed components are clear of each other by the border when their boxes do not overlap. -/
theorem Packed.clearOf (h : s.Packed parts xs d d') (hspans : Envelope.Spans s.envelope)
    {x y : Placed} (hx : x ∈ xs) (hy : y ∈ xs)
    (hxy : Packing.overlap x.offset x.pose.boxOf y.offset y.pose.boxOf = false) :
    ClearOf s.border d' x.records y.records := by
  intro r hr r' hr'
  obtain ⟨p, hp, hpoint⟩ := h.point_mem hx hr
  obtain ⟨p', hp', hpoint'⟩ := h.point_mem hy hr'
  obtain ⟨hborder, _, hholds⟩ := (h.posed x hx).holds hspans
  obtain ⟨hborder', _, hholds'⟩ := (h.posed y hy).holds hspans
  have hclear := (hholds x.offset).clear (hholds' y.offset) (hborder'.trans hborder.symm)
    x.pose.boxed_boxOf y.pose.boxed_boxOf hxy p hp p' hp'
  rw [hborder] at hclear
  refine ⟨p, p', hpoint, hpoint', hclear, ?_⟩
  intro hone
  have hcast : (1 : ℝ) ≤ s.border := by exact_mod_cast hone
  apply hclear.ne
  linarith

/-- A packer that keeps boxes apart keeps components apart. -/
theorem Packed.pairwise_clearOf (h : s.Packed parts xs d d') (hspans : Envelope.Spans s.envelope)
    (hapart : ((xs.map Placed.offset).zip (xs.map fun x => x.pose.boxOf)).Pairwise fun a b =>
      Packing.overlap a.1 a.2 b.1 b.2 = false) :
    parts.Pairwise fun part part' =>
      ClearOf s.border d' (ofPart d' s.flags part) (ofPart d' s.flags part') := by
  rw [List.zip_map', List.pairwise_map] at hapart
  have hplaced : (xs.map Placed.records).Pairwise (ClearOf s.border d') := by
    rw [List.pairwise_map]
    exact hapart.imp_of_mem fun hx hy hxy => h.clearOf hspans hx hy hxy
  rw [h.records, List.pairwise_map] at hplaced
  refine hplaced.imp ?_
  intro part part' hclear
  rw [h.moved.shape.ofPart_eq, h.moved.shape.ofPart_eq]
  exact hclear

end Placing

section Run

variable {α : Type} [Scalar α] {s : Mosaic α} {l : Listeners α} {arrange : Arrangement α}
  {b b' : Board α}

/-- A board on which a run has been announced. -/
def begun (l : Listeners α) (b : Board α) : Board α :=
  { b with
    drawing := b.drawing.numberNodes
    journal := b.journal.announce l { kind := .start, alpha := some (.real 1.0) } }

/-- A board on which the end of a run has been announced. -/
def finished (l : Listeners α) (b : Board α) : Board α :=
  { b with journal := b.journal.announce l { kind := .finish, alpha := some (.real 0.0) } }

/-- A run of a drawing with nodes, once it has been announced. -/
theorem run_eq (hne : b.drawing.nodes ≠ []) :
    s.run l (some arrange) b =
      (Act.attempt (groupingOf b.drawing.numberNodes) >>= fun g =>
        s.layOutFrom l arrange g.count 0 (g.nodes.zip g.links) >>= fun _ =>
          s.settle (some g) >>= fun _ =>
            Board.announce l { kind := .finish, alpha := some (.real 0.0) }) (begun l b) := by
  have hsome : ¬ b.drawing.numberNodes.nodes.isEmpty = true := by
    rw [List.isEmpty_iff, ← List.length_eq_zero_iff, Drawing.length_nodes_numberNodes,
      List.length_eq_zero_iff]
    exact hne
  have hdrawn : Board.drawn (begun l b) = (.ok b.drawing.numberNodes, begun l b) := rfl
  have hwork : s.work l (some arrange) (begun l b) =
      (Act.attempt (groupingOf b.drawing.numberNodes) >>= fun g =>
        s.layOutFrom l arrange g.count 0 (g.nodes.zip g.links) >>= fun _ =>
          s.settle (some g) >>= fun _ => pure ()) (begun l b) := by
    rw [work, Act.bind_of_ok hdrawn, if_neg hsome]
  calc
    s.run l (some arrange) b
      = (s.work l (some arrange) >>= fun _ =>
          Board.announce l { kind := .finish, alpha := some (.real 0.0) }) (begun l b) := rfl
    _ = ((Act.attempt (groupingOf b.drawing.numberNodes) >>= fun g =>
          s.layOutFrom l arrange g.count 0 (g.nodes.zip g.links) >>= fun _ =>
            s.settle (some g) >>= fun _ => pure ()) >>= fun _ =>
              Board.announce l { kind := .finish, alpha := some (.real 0.0) }) (begun l b) := by
      rw [Act.bind_apply, hwork, ← Act.bind_apply]
    _ = _ := by simp only [bind_assoc, pure_bind]

/-- A run finds the grouping, lays out its components, and packs them. -/
theorem run_eq_ok_iff (hne : b.drawing.nodes ≠ []) :
    s.run l (some arrange) b = (.ok (), b') ↔
      ∃ g b₁ poses b₂, groupingOf b.drawing.numberNodes = .ok g ∧
        s.layOutFrom l arrange g.count 0 (g.nodes.zip g.links) (begun l b) = (.ok (), b₁) ∧
        s.settle (some g) b₁ = (.ok poses, b₂) ∧ b' = finished l b₂ := by
  rw [run_eq hne]
  constructor
  · intro h
    obtain ⟨g, b₁, hg, h⟩ := Act.bind_eq_ok.mp h
    obtain ⟨_, b₂, hlaid, h⟩ := Act.bind_eq_ok.mp h
    obtain ⟨poses, b₃, hsettle, hfinish⟩ := Act.bind_eq_ok.mp h
    obtain ⟨hgrouping, rfl⟩ := Act.attempt_eq_ok.mp hg
    exact ⟨g, b₂, poses, b₃, hgrouping, hlaid, hsettle, (Prod.mk.inj hfinish).2.symm⟩
  · rintro ⟨g, b₁, poses, b₂, hgrouping, hlaid, hsettle, rfl⟩
    rw [hgrouping, Act.bind_of_ok (Act.attempt_apply _ _), Act.bind_of_ok hlaid,
      Act.bind_of_ok hsettle]
    rfl

/-- The grouping of a drawing is still that of the drawing with its components laid out. -/
theorem shares_of_layOutFrom {g : Grouping} (hg : groupingOf b.drawing.numberNodes = .ok g)
    {count i : Nat} {parts : List (List Handle × List Nat)} {b₁ : Board α}
    (hlaid : s.layOutFrom l arrange count i parts (begun l b) = (.ok (), b₁)) :
    b₁.drawing.numberNodes = b₁.drawing ∧
      g.Shares b₁.drawing.numberNodes.nodes.length b₁.drawing.numberNodes.ends := by
  have hgraph : b₁.drawing.graph = b.drawing.numberNodes.graph := graph_layOutFrom hlaid
  have hnumbered := Drawing.numberNodes_of_graph hgraph
  obtain ⟨_, hshares⟩ := shares_of_groupingOf hg
  refine ⟨hnumbered, ?_⟩
  rw [hnumbered, Drawing.length_nodes_of_graph hgraph, Drawing.ends_of_graph hgraph]
  exact hshares

end Run

section Separation

variable [Written ℝ]

/-- A ratio that is not below zero is valid in exact arithmetic. -/
theorem packer_rows_eq {ratio : ℝ} (h : 0 ≤ ratio) (sizes : List Box) :
    Packer.rows sizes ratio = Packing.rows sizes ratio := by
  have hvalid : Check.targetRatio (.real ratio) = .ok ratio := by
    have hnot : ¬ (!Scalar.isFinite ratio || Scalar.lt ratio 0.0) = true := by
      rw [Scalar.lt_eq_decide, Scalar.zero_eq]
      simpa [Scalar.isFinite] using h
    rw [Check.targetRatio, Value.toReal_real, ok_bind, if_neg hnot]
    rfl
  rw [Packer.rows, Packer.rowsFor, hvalid, ok_bind]

/-- A run that packs convex envelopes into rows leaves all components clear of each other by the
border. It succeeds on checked drawings when what is laid out can be brought home. -/
theorem run_separated {s : Mosaic ℝ} (hpacker : s.packer = Packer.rows)
    (henvelope : s.envelope = Envelope.convex) (hborder : 0 ≤ s.border) (hratio : 0 ≤ s.ratio)
    (l : Listeners ℝ) (arrange : Arrangement ℝ) {b : Board ℝ} (hne : b.drawing.nodes ≠ []) :
    (∀ b', s.run l (some arrange) b = (.ok (), b') →
      ∃ g, b'.results.components = some g ∧ groupingOf b.drawing.numberNodes = .ok g ∧
        Separated s.flags g s.border b'.drawing) ∧
    (b.drawing.numberNodes.validate = .ok () → b.drawing.numberNodes.Typed s.flags →
      arrange.Returns s.flags → ∃ b', s.run l (some arrange) b = (.ok (), b')) := by
  have hspans : Envelope.Spans s.envelope := henvelope ▸ Envelope.spans_convex
  constructor
  · intro b' h
    obtain ⟨g, b₁, poses, b₂, hg, hlaid, hsettle, rfl⟩ := (run_eq_ok_iff hne).mp h
    obtain ⟨_, hshares⟩ := shares_of_layOutFrom hg hlaid
    obtain ⟨g', xs, hgiven, hkept, hpacked⟩ :=
      packed_of_settle (fun _ hgiven => Except.ok.inj hgiven ▸ hshares) hsettle
    obtain rfl := Except.ok.inj hgiven
    refine ⟨g, hkept, hg, hpacked.pairwise_clearOf hspans ?_⟩
    have hrows := hpacked.packed
    rw [hpacker, packer_rows_eq hratio] at hrows
    apply Packing.rows_separate hrows
    rw [List.forall_mem_map]
    intro x hx
    obtain ⟨hequal, hwidth, _⟩ := (hpacked.posed x hx).holds hspans
    exact x.pose.boxed_boxOf.width_nonneg (hequal.symm ▸ hborder) hwidth
  · intro hvalid htyped harrange
    obtain ⟨g, hg⟩ := exists_groupingOf hvalid htyped.whole
    obtain ⟨_, hshares⟩ := shares_of_groupingOf hg
    have hclosed : ∀ part ∈ g.nodes.zip g.links, Copy.Closed b.drawing.numberNodes part :=
      fun _ hpart => Copy.closed_of_shares hvalid htyped.whole hshares hpart
    obtain ⟨b₁, hlaid, hread⟩ :=
      @exists_layOutFrom s l arrange (begun l b) harrange g.count 0 _ hclosed htyped.readable
    obtain ⟨hnumbered, hshares₁⟩ := shares_of_layOutFrom hg hlaid
    have hanswer : ∀ sizes, ∃ offsets, s.packer sizes s.ratio = .ok offsets ∧
        offsets.length = sizes.length := by
      intro sizes
      obtain ⟨offsets, hoffsets⟩ := Packing.exists_rows s.ratio sizes
      rw [hpacker, packer_rows_eq hratio]
      exact ⟨offsets, hoffsets, Packing.length_rows hoffsets⟩
    obtain ⟨poses, b₂, hsettle⟩ := @exists_settle s b₁ g (some g) rfl hshares₁
      (hnumbered.symm ▸ hread) (fun ps hps => (hspans ps hps).imp fun _ h => h.1) hanswer
    exact ⟨_, (run_eq_ok_iff hne).mpr ⟨g, b₁, poses, b₂, hg, hlaid, hsettle, rfl⟩⟩

end Separation

/-- In exact arithmetic nothing is written. -/
abbrev silent : Written ℝ := ⟨fun _ => "", fun _ _ => ""⟩

/-- All nodes are put in the same place, and every link gets a bend. -/
noncomputable def heaped : Arrangement ℝ := fun d j =>
  (.ok { nodes := d.nodes.map (·.moveTo 0 0)
         links := d.links.map fun l => { l with bends := [⟨.real 1, .real 2⟩] } }, j)

theorem returns_heaped (flags : Flags) : heaped.Returns flags := by
  intro d nodes links c _ hc j
  obtain ⟨nodeHomes, _, hc⟩ := bind_eq_ok.mp hc
  obtain ⟨linkHomes, _, hc⟩ := bind_eq_ok.mp hc
  obtain ⟨copied, _, hc⟩ := bind_eq_ok.mp hc
  obtain rfl := pure_eq_ok.mp hc
  refine ⟨_, j, rfl, ?_, ?_, ?_⟩
  · intro n hn
    obtain ⟨m, hm, rfl⟩ := List.mem_map.mp hn
    obtain ⟨i, _, rfl⟩ := List.mem_mapIdx.mp hm
    exact Or.inr ⟨i, rfl⟩
  · intro n hn
    obtain ⟨m, _, rfl⟩ := List.mem_map.mp hn
    exact ⟨⟨0, 0⟩, rfl⟩
  · intro _ link hlink v hv
    obtain ⟨link', _, rfl⟩ := List.mem_map.mp hlink
    obtain rfl := List.mem_singleton.mp hv
    exact ⟨⟨1, 2⟩, rfl⟩

theorem run_separated_bentLinkAndNode :
    ∃ b', (@plain ℝ _ silent).run {} (some heaped) { drawing := bentLinkAndNode } = (.ok (), b') ∧
      b'.results.components = some linkAndNode ∧
      Separated Flags.plain linkAndNode 30 b'.drawing := by
  have hratio : (0 : ℝ) ≤ 1.0 := by norm_num
  obtain ⟨hseparated, htotal⟩ := @run_separated silent (@plain ℝ _ silent) rfl rfl (by decide)
    hratio {} heaped { drawing := bentLinkAndNode } (List.cons_ne_nil _ _)
  obtain ⟨b', h⟩ := htotal rfl typed_bentLinkAndNode (returns_heaped _)
  obtain ⟨g, hg, hgrouping, hclear⟩ := hseparated b' h
  obtain rfl := Except.ok.inj (hgrouping.symm.trans groupingOf_bentLinkAndNode)
  exact ⟨b', h, hg, hclear⟩

end Mosaic

end PackedDrawing
