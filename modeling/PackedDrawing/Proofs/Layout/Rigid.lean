import PackedDrawing.Proofs.Layout.Packed

/-!
# Settling a drawing is a rigid motion of each component

When the components of a drawing are turned and packed, all points of a component are moved by one
rotation and one translation. The components share out the nodes of the drawing, and its links when
their ends are whole numbers, so no point is left behind and none is moved twice.

The check of a drawing makes a scalar index whole before it compares it with the number of nodes,
while the search for components takes it as it is. A link can therefore be accepted and still belong
to no component; its bends are then left behind.

## Main definitions

* `Drawing.Readable`, `Drawing.Typed`: positions, bends and ends of links are the numbers they are
  meant to be.
* `RigidlyMoved`: each component of a drawing was moved by one rotation and one translation.

## Main statements

* `Mosaic.settle_eq_ok_iff`: what settling amounts to.
* `Mosaic.settle_rigid`: settling moves rigidly, and it succeeds on checked drawings with whole
  ends.
* `Mosaic.settle_leaves_bend`: an accepted link whose bend is left behind.
-/

namespace PackedDrawing

open Point (carry)
open Record

namespace Drawing

/-- The positions in a drawing, and the bends if they take part, can be read as scalars. -/
structure Readable (flags : Flags) (d : Drawing ℝ) : Prop where
  node : ∀ n ∈ d.nodes, ∃ p, Point.mapM Value.toReal ⟨n.x, n.y⟩ = .ok p
  bend : flags.bends = true → ∀ l ∈ d.links, ∀ v ∈ l.bends, ∃ p, v.mapM Value.toReal = .ok p

/-- A readable drawing whose links mention their ends by whole numbers. -/
structure Typed (flags : Flags) (d : Drawing ℝ) : Prop where
  whole : d.WholeEnds
  readable : d.Readable flags

theorem held_numberNodes {α : Type} (d : Drawing α) (r : Record) :
    held d.numberNodes r = held d r := by
  cases r with
  | bend l i => rfl
  | node k =>
      rw [held, held, numberNodes, List.getElem?_mapIdx]
      cases d.nodes[k]? with
      | none => rfl
      | some n =>
          rw [Option.map_some, Option.map_some, Option.map_some]
          cases n.index <;> rfl

theorem point_numberNodes {α : Type} [Scalar α] (d : Drawing α) (r : Record) :
    r.point d.numberNodes = r.point d := by
  rw [point_eq, point_eq, held_numberNodes]

theorem sameShape_numberNodes {α : Type} (d : Drawing α) : SameShape d d.numberNodes :=
  ⟨length_nodes_numberNodes d, rfl, fun _ => rfl⟩

/-- The records of a component of a readable drawing can all be read. -/
theorem Readable.point {flags : Flags} {d : Drawing ℝ} (h : d.Readable flags)
    {part : List Handle × List Nat} (hpart : HasPart d part) :
    ∀ r ∈ ofPart d flags part, ∃ p, r.point d = .ok p := by
  intro r hr
  rcases mem_ofPart_iff.mp hr with ⟨a, ha, rfl⟩ | ⟨hbends, l, hl, k, hk, rfl⟩
  · have hin := hpart.node a ha
    unfold InGraph at hin
    have hlength : a.position.toNat < d.nodes.length := by omega
    rw [point_eq, held, List.getElem?_eq_getElem hlength]
    exact h.node _ (List.getElem_mem hlength)
  · obtain ⟨link, hlink⟩ : ∃ link, d.links[l]? = some link :=
      ⟨_, List.getElem?_eq_getElem (hpart.link l hl)⟩
    have hlength : k < link.bends.length := count_of_some hlink ▸ hk
    rw [point_eq, held, hlink, Option.bind_some, at?_ofNat, List.getElem?_eq_getElem hlength]
    exact h.bend hbends link (List.mem_of_getElem? hlink) _ (List.getElem_mem hlength)

end Drawing

/-- The bends of a link as they are kept. -/
def bendsAt (d : Drawing ℝ) (l : Nat) : Option (List (Point (Value ℝ))) :=
  d.links[l]?.map (·.bends)

theorem bendsAt_eq_of_held {d d' : Drawing ℝ} (hshape : SameShape d d') {l : Nat}
    (h : ∀ k < count d l, held d' (bend l (k : Nat)) = held d (bend l (k : Nat))) :
    bendsAt d' l = bendsAt d l := by
  rw [bendsAt, bendsAt]
  cases hlink : d.links[l]? with
  | none =>
      have hlength : d'.links.length ≤ l := hshape.links ▸ List.getElem?_eq_none_iff.mp hlink
      rw [List.getElem?_eq_none hlength]
  | some link =>
      obtain ⟨hl, _⟩ := List.getElem?_eq_some_iff.mp hlink
      obtain ⟨link', hlink'⟩ : ∃ link', d'.links[l]? = some link' :=
        ⟨_, List.getElem?_eq_getElem (hshape.links.symm ▸ hl)⟩
      have hlength : link'.bends.length = link.bends.length := by
        rw [← count_of_some hlink', hshape.bends, count_of_some hlink]
      rw [hlink', Option.map_some, Option.map_some, Option.some.injEq]
      apply List.ext_getElem?
      intro k
      by_cases hk : k < link.bends.length
      · have hheld := h k (count_of_some hlink ▸ hk)
        simpa only [held, hlink, hlink', Option.bind_some, at?_ofNat] using hheld
      · rw [List.getElem?_eq_none (not_lt.mp hk), List.getElem?_eq_none (hlength ▸ not_lt.mp hk)]

/-- Each component of a drawing was moved by one rotation and one translation, each node belongs to
one component, and the bends of links in no component were not moved. -/
structure RigidlyMoved (flags : Flags) (g : Grouping) (d d' : Drawing ℝ) : Prop where
  shape : SameShape d d'
  grouped : Mosaic.groupingOf d.numberNodes = .ok g
  nodes_once : (g.nodes.map Search.positions).flatten.Perm
    ((List.range d.nodes.length).map Int.ofNat)
  carried : ∀ part ∈ g.nodes.zip g.links, ∃ angle vector, ∀ r ∈ ofPart d flags part,
    ∃ p, r.point d = .ok p ∧ r.point d' = .ok (carry angle vector p)
  distance : ∀ part ∈ g.nodes.zip g.links, ∀ r ∈ ofPart d flags part,
    ∀ r' ∈ ofPart d flags part, ∃ p p' q q', r.point d = .ok p ∧ r'.point d = .ok p' ∧
      r.point d' = .ok q ∧ r'.point d' = .ok q' ∧ q.distance q' = p.distance p'
  bends_kept : ∀ l, flags.bends = false ∨ l ∉ g.links.flatten → bendsAt d' l = bendsAt d l

namespace Mosaic

variable {s : Mosaic ℝ} {b b' : Board ℝ} {d d' : Drawing ℝ} {g : Grouping}

section Settle

variable {α : Type} [Scalar α] {s : Mosaic α} {b b' : Board α} {g : Grouping} {d' : Drawing α}

/-- A drawing that is not accepted is left with its indices set. -/
theorem settle_of_unchecked (given : Option Grouping) {e : Fault}
    (h : given.elim (groupingOf b.drawing.numberNodes) .ok = .error e) :
    s.settle given b = (.error e, { b with drawing := b.drawing.numberNodes }) := by
  cases given with
  | some g => cases h
  | none =>
      have hnumber : Board.onDrawing (Act.change Drawing.numberNodes) b =
          (.ok (), { b with drawing := b.drawing.numberNodes }) := rfl
      have hdrawn : Board.drawn { b with drawing := b.drawing.numberNodes } =
          (.ok b.drawing.numberNodes, { b with drawing := b.drawing.numberNodes }) := rfl
      have hfound : groupingOf b.drawing.numberNodes = .error e := h
      rw [settle, Act.bind_of_ok hnumber, Act.bind_of_ok hdrawn, hfound,
        Act.bind_of_error (Act.attempt_apply _ _)]

/-- Settling a drawing with a grouping ends as packing its components does, and it keeps what it
knows. -/
theorem settle_of_checked (given : Option Grouping)
    (hg : given.elim (groupingOf b.drawing.numberNodes) .ok = .ok g)
    {r : Except Fault (List (Pose α Int) × List Offset)} :
    s.packComponents g b.drawing.numberNodes = (r, d') →
      s.settle given b = (r.map Prod.fst, { b with
        drawing := d'
        results := match r with
          | .error _ => { b.results with components := some g }
          | .ok (poses, offsets) => { components := some g, poses, offsets } }) := by
  intro hpack
  have hnumber : Board.onDrawing (Act.change Drawing.numberNodes) b =
      (.ok (), { b with drawing := b.drawing.numberNodes }) := rfl
  have hdrawn : Board.drawn { b with drawing := b.drawing.numberNodes } =
      (.ok b.drawing.numberNodes, { b with drawing := b.drawing.numberNodes }) := rfl
  have hwithin : Board.onDrawing (s.packComponents g)
      { b with
        drawing := b.drawing.numberNodes
        results := { b.results with components := some g } } =
      (r, { b with
        drawing := d'
        results := { b.results with components := some g } }) := by
    rw [Board.onDrawing, Act.within, hpack]
  rw [settle, Act.bind_of_ok hnumber, Act.bind_of_ok hdrawn]
  refine (Act.bind_of_ok (b := g) (Act.attempt_eq_ok.mpr ⟨?_, rfl⟩)).trans ?_
  · cases given with
    | none => exact hg
    | some g' => exact hg
  rw [Act.bind_of_ok (Act.change_apply _ _)]
  cases r with
  | error e => exact Act.bind_of_error hwithin
  | ok answer => exact Act.bind_of_ok hwithin

/-- Settling finds the grouping of the numbered drawing, unless it is given, and packs it. -/
theorem settle_eq_ok_iff {given : Option Grouping} {poses : List (Pose α Int)} :
    s.settle given b = (.ok poses, b') ↔
      ∃ g offsets d', given.elim (groupingOf b.drawing.numberNodes) .ok = .ok g ∧
        s.packComponents g b.drawing.numberNodes = (.ok (poses, offsets), d') ∧
        b' = { b with drawing := d', results := { components := some g, poses, offsets } } := by
  constructor
  · intro h
    cases hg : given.elim (groupingOf b.drawing.numberNodes) .ok with
    | error e =>
        rw [settle_of_unchecked given hg] at h
        cases (Prod.mk.inj h).1
    | ok g =>
        rcases hpack : s.packComponents g b.drawing.numberNodes with ⟨r, d'⟩
        obtain ⟨houtcome, rfl⟩ := Prod.mk.inj ((settle_of_checked given hg hpack).symm.trans h)
        cases r with
        | error e => cases houtcome
        | ok answer =>
            obtain rfl := Except.ok.inj houtcome
            exact ⟨g, answer.2, d', rfl, hpack, rfl⟩
  · rintro ⟨g, offsets, d', hg, hpack, rfl⟩
    exact settle_of_checked given hg hpack

end Settle

theorem shares_of_groupingOf {α : Type} [Scalar α] {d : Drawing α} (h : groupingOf d = .ok g) :
    d.validate = .ok () ∧ g.Shares d.nodes.length d.ends := by
  obtain ⟨_, hvalid, h⟩ := bind_eq_ok.mp h
  exact ⟨hvalid, Grouping.shares_of h⟩

theorem apart_of_shares (h : g.Shares d.nodes.length d.ends) (flags : Flags) :
    Apart d flags (g.nodes.zip g.links) :=
  ⟨fun _ hx => part_of_shares h hx, nodup_parts h flags⟩

/-- A placed component was moved by one rotation and one translation. -/
theorem Packed.carried {xs : List Placed} {parts : List (List Handle × List Nat)}
    (h : s.Packed parts xs d d') {x : Placed} (hx : x ∈ xs) :
    ∃ angle vector, ∀ r ∈ x.records,
      ∃ p, r.point d = .ok p ∧ r.point d' = .ok (carry angle vector p) := by
  refine ⟨x.pose.rotation,
    x.pose.vector x.offset - (centreOf d x.records).rotate x.pose.rotation, ?_⟩
  intro r hr
  obtain ⟨p, hp⟩ := (h.posed x hx).readable r hr
  refine ⟨p, hp, ?_⟩
  rw [h.moved.moved x hx r hr, hp, ← Point.carry_sub]
  rfl

/-- Bends that take no part, and those of links in no component, stay where they are. -/
theorem Packed.bends_kept {xs : List Placed} (h : s.Packed (g.nodes.zip g.links) xs d d') {l : Nat}
    (hl : s.flags.bends = false ∨ l ∉ g.links.flatten) : bendsAt d' l = bendsAt d l := by
  apply bendsAt_eq_of_held h.moved.shape
  intro k hk
  apply h.moved.kept
  intro x hx hmem
  obtain ⟨part, hpart, hrecords⟩ := exists_of_map_eq h.records hx
  rw [home, Handle.place?_ofNat hk, hrecords] at hmem
  rcases mem_ofPart_iff.mp hmem with ⟨a, _, heq⟩ | ⟨hbends, l', hl', k', _, heq⟩
  · cases heq
  · obtain rfl := (Record.bend.inj heq).1
    rcases hl with hoff | hout
    · exact Bool.false_ne_true (hoff.symm.trans hbends)
    · exact hout (List.mem_flatten.mpr ⟨part.2, (List.of_mem_zip hpart).2, hl'⟩)

theorem rigidlyMoved_of_packed {xs : List Placed} (hg : groupingOf d.numberNodes = .ok g)
    (h : s.Packed (g.nodes.zip g.links) xs d.numberNodes d') : RigidlyMoved s.flags g d d' := by
  obtain ⟨_, hshares⟩ := shares_of_groupingOf hg
  have hnumber := d.sameShape_numberNodes
  have hcarried : ∀ part ∈ g.nodes.zip g.links, ∃ angle vector, ∀ r ∈ ofPart d s.flags part,
      ∃ p, r.point d = .ok p ∧ r.point d' = .ok (carry angle vector p) := by
    intro part hpart
    obtain ⟨x, hx, hrecords⟩ := exists_of_map_eq h.records.symm hpart
    obtain ⟨angle, vector, hall⟩ := h.carried hx
    refine ⟨angle, vector, ?_⟩
    intro r hr
    rw [← hnumber.ofPart_eq, hrecords] at hr
    rw [← Drawing.point_numberNodes]
    exact hall r hr
  refine ⟨hnumber.trans h.moved.shape, hg, ?_, hcarried, ?_, ?_⟩
  · rw [← hnumber.nodes]
    exact hshares.classes.once
  · intro part hpart r hr r' hr'
    obtain ⟨angle, vector, hall⟩ := hcarried part hpart
    obtain ⟨p, hp, hq⟩ := hall r hr
    obtain ⟨p', hp', hq'⟩ := hall r' hr'
    exact ⟨p, p', _, _, hp, hp', hq, hq', Point.distance_carry angle vector p p'⟩
  · exact fun l hl => h.bends_kept hl

theorem ofPart_ne_nil (hshares : g.Shares d.nodes.length d.ends) (flags : Flags)
    {part : List Handle × List Nat} (hpart : part ∈ g.nodes.zip g.links) :
    ofPart d flags part ≠ [] := by
  have hne := hshares.classes.inhabited _ (List.mem_map_of_mem (List.of_mem_zip hpart).1)
  intro hnil
  rw [ofPart, List.append_eq_nil_iff, List.map_eq_nil_iff] at hnil
  exact hne (List.map_eq_nil_iff.mpr hnil.1)

/-- In a checked drawing with whole ends the grouping is answered. -/
theorem exists_groupingOf {α : Type} [Scalar α] {d : Drawing α} (hvalid : d.validate = .ok ())
    (hwhole : d.WholeEnds) : ∃ g, groupingOf d = .ok g := by
  obtain ⟨g, hg⟩ := Grouping.exists_of (n := d.nodes.length) hwhole
  exact ⟨g, bind_eq_ok.mpr ⟨(), hvalid, hg⟩⟩

/-- What settling packs, when the grouping that it uses shares out the numbered drawing. -/
theorem packed_of_settle {given : Option Grouping} {poses : List (Pose ℝ Int)}
    (hshares : ∀ g, given.elim (groupingOf b.drawing.numberNodes) .ok = .ok g →
      g.Shares b.drawing.numberNodes.nodes.length b.drawing.numberNodes.ends)
    (h : s.settle given b = (.ok poses, b')) :
    ∃ g xs, given.elim (groupingOf b.drawing.numberNodes) .ok = .ok g ∧
      b'.results.components = some g ∧
      s.Packed (g.nodes.zip g.links) xs b.drawing.numberNodes b'.drawing := by
  obtain ⟨g, offsets, d', hg, hpack, rfl⟩ := settle_eq_ok_iff.mp h
  obtain ⟨xs, hpacked, _⟩ := packed_of_packComponents (apart_of_shares (hshares g hg) s.flags) hpack
  exact ⟨g, xs, hg, rfl, hpacked⟩

/-- Settling succeeds on a readable drawing when the envelope and the packer answer. -/
theorem exists_settle {given : Option Grouping}
    (hg : given.elim (groupingOf b.drawing.numberNodes) .ok = .ok g)
    (hshares : g.Shares b.drawing.numberNodes.nodes.length b.drawing.numberNodes.ends)
    (hread : b.drawing.numberNodes.Readable s.flags)
    (henvelope : ∀ ps, ps ≠ [] → ∃ outline, s.envelope ps = .ok outline)
    (hpacker : ∀ sizes, ∃ offsets, s.packer sizes s.ratio = .ok offsets ∧
      offsets.length = sizes.length) :
    ∃ poses b', s.settle given b = (.ok poses, b') := by
  obtain ⟨⟨poses, offsets⟩, d', hpack⟩ := exists_packComponents (apart_of_shares hshares s.flags)
    (fun part hpart => hread.point (part_of_shares hshares hpart))
    (fun part hpart => ofPart_ne_nil hshares s.flags hpart) henvelope hpacker
  exact ⟨poses, _, settle_eq_ok_iff.mpr ⟨g, offsets, d', hg, hpack, rfl⟩⟩

/-- Settling a drawing moves each component by one rotation and one translation, whatever envelope
and packer answer. If the ends of links are whole numbers, each link belongs to one component, so
each bend is moved once. It succeeds on checked drawings of this kind when envelope and packer do
answer. -/
theorem settle_rigid (s : Mosaic ℝ) (b : Board ℝ) :
    (∀ poses b', s.settle none b = (.ok poses, b') →
      ∃ g, b'.results.components = some g ∧ RigidlyMoved s.flags g b.drawing b'.drawing ∧
        (b.drawing.numberNodes.WholeEnds →
          g.links.flatten.Perm (List.range b.drawing.links.length))) ∧
    (b.drawing.numberNodes.validate = .ok () → b.drawing.numberNodes.Typed s.flags →
      (∀ ps, ps ≠ [] → ∃ outline, s.envelope ps = .ok outline) →
      (∀ sizes, ∃ offsets, s.packer sizes s.ratio = .ok offsets ∧
        offsets.length = sizes.length) →
      ∃ poses b', s.settle none b = (.ok poses, b')) := by
  constructor
  · intro poses b' h
    obtain ⟨g, xs, hg, hkept, hpacked⟩ :=
      @packed_of_settle s b b' none poses (fun _ hg => (shares_of_groupingOf hg).2) h
    obtain ⟨hvalid, hshares⟩ := shares_of_groupingOf hg
    refine ⟨g, hkept, rigidlyMoved_of_packed hg hpacked, ?_⟩
    exact fun hwhole => Drawing.links_perm (d := b.drawing.numberNodes) hvalid hwhole hshares
  · intro hvalid htyped henvelope hpacker
    obtain ⟨g, hg⟩ := exists_groupingOf hvalid htyped.whole
    obtain ⟨_, hshares⟩ := shares_of_groupingOf hg
    exact @exists_settle s b g none hg hshares htyped.readable henvelope hpacker

/-- A link with a bend, and a node apart from it. -/
noncomputable def bentLinkAndNode : Drawing ℝ :=
  { nodes := [{ Node.blank with x := .int 0, y := .int 0 },
      { Node.blank with x := .int 3, y := .int 4 }, { Node.blank with x := .int 7, y := .int 7 }]
    links := [{ source := .value (.int 0), target := .value (.int 1), length := .null
                weight := .null, bends := [⟨.int 1, .int 5⟩], extras := [] }] }

theorem typed_bentLinkAndNode : bentLinkAndNode.numberNodes.Typed Flags.plain := by
  refine ⟨?_, ?_, ?_⟩
  · intro e he
    obtain rfl := List.mem_singleton.mp he
    exact ⟨0, 1, _, _, rfl, rfl, rfl, rfl⟩
  · intro n hn
    simp only [bentLinkAndNode, Drawing.numberNodes, List.mapIdx_cons, List.mapIdx_nil,
      List.mem_cons, List.not_mem_nil, or_false] at hn
    rcases hn with rfl | rfl | rfl
    · exact ⟨⟨(0 : Int), (0 : Int)⟩, rfl⟩
    · exact ⟨⟨(3 : Int), (4 : Int)⟩, rfl⟩
    · exact ⟨⟨(7 : Int), (7 : Int)⟩, rfl⟩
  · intro _ l hl v hv
    obtain rfl := List.mem_singleton.mp hl
    obtain rfl := List.mem_singleton.mp hv
    exact ⟨⟨(1 : Int), (5 : Int)⟩, rfl⟩

/-- The link is a component with its two nodes, and the third node is one of its own. -/
def linkAndNode : Grouping := ⟨[[⟨0, false⟩, ⟨1, false⟩], [⟨2, false⟩]], [[0], []]⟩

theorem groupingOf_bentLinkAndNode : groupingOf bentLinkAndNode.numberNodes = .ok linkAndNode := by
  have hedges : Grouping.edgesWithin 3 bentLinkAndNode.numberNodes.ends =
      .ok [(⟨0, false⟩, ⟨1, false⟩)] := rfl
  have hsearch : Search.components 3 [(⟨0, false⟩, ⟨1, false⟩)] = linkAndNode.nodes := by cbv
  have hnodes : Grouping.components 3 bentLinkAndNode.numberNodes.ends = .ok linkAndNode.nodes :=
    bind_eq_ok.mpr ⟨_, hedges, congrArg Except.ok hsearch⟩
  exact bind_eq_ok.mpr ⟨(), rfl, bind_eq_ok.mpr ⟨_, hnodes, rfl⟩⟩

/-- All boxes are put in the same place. -/
noncomputable def piled : Mosaic ℝ :=
  { packer := fun sizes _ => .ok (sizes.map fun _ => ⟨0, 0⟩), envelope := .convex, ratio := 1.0
    border := 30, flags := .plain }

theorem exists_settle_bentLinkAndNode :
    ∃ poses b', piled.settle none { drawing := bentLinkAndNode } = (.ok poses, b') := by
  obtain ⟨_, hshares⟩ := shares_of_groupingOf groupingOf_bentLinkAndNode
  exact @exists_settle piled { drawing := bentLinkAndNode } linkAndNode none
    groupingOf_bentLinkAndNode hshares typed_bentLinkAndNode.readable (fun ps _ => ⟨_, rfl⟩)
    fun sizes => ⟨_, rfl, List.length_map _⟩

theorem settle_rigid_bentLinkAndNode :
    bentLinkAndNode.numberNodes.Typed Flags.plain ∧
      ∃ poses b', piled.settle none { drawing := bentLinkAndNode } = (.ok poses, b') ∧
        b'.results.components = some linkAndNode ∧
        RigidlyMoved Flags.plain linkAndNode bentLinkAndNode b'.drawing ∧
        linkAndNode.links.flatten.Perm (List.range bentLinkAndNode.links.length) := by
  obtain ⟨hrigid, htotal⟩ := settle_rigid piled { drawing := bentLinkAndNode }
  obtain ⟨poses, b', h⟩ := htotal rfl typed_bentLinkAndNode (fun ps _ => ⟨_, rfl⟩)
    fun sizes => ⟨_, rfl, List.length_map _⟩
  obtain ⟨g, hg, hmoved, hlinks⟩ := hrigid poses b' h
  obtain rfl := Except.ok.inj (hmoved.grouped.symm.trans groupingOf_bentLinkAndNode)
  exact ⟨typed_bentLinkAndNode, poses, b', h, hg, hmoved, hlinks typed_bentLinkAndNode.whole⟩

end Mosaic

/-- The scalar halfway between minus one and zero is cut to zero. -/
theorem Scalar.truncate_half : Scalar.truncate (-0.5 : ℝ) = .ok 0 := by
  have hneg : ¬ (0 : ℝ) ≤ -0.5 := by norm_num
  have hceil : ⌈(-0.5 : ℝ)⌉ = 0 := by
    rw [Int.ceil_eq_iff]
    norm_num
  change Except.ok (if (0 : ℝ) ≤ -0.5 then ⌊(-0.5 : ℝ)⌋ else ⌈(-0.5 : ℝ)⌉) = _
  rw [if_neg hneg, hceil]

/-- A scalar below zero lies in no graph. -/
theorem Value.inside_of_neg {x : ℝ} (h : x < 0) (n : Int) :
    (Value.real x).inside n = .ok false := by
  have hle : Number.le (.int 0) (.real x) = false := by
    have hcompare : Scalar.compareInt x 0 = some .lt := by
      change some (compare x ((0 : Int) : ℝ)) = some .lt
      rw [Int.cast_zero, compare_lt_iff_lt.mpr h]
    rw [Number.le, Number.lt, Number.eq, hcompare]
    rfl
  change Except.ok (Number.le (.int 0) (.real x) && Number.lt (.real x) (.int n)) = _
  rw [hle, Bool.false_and]

namespace Mosaic

/-- A node, and a link with a bend that leads to it from a thing whose index is a scalar between
minus one and zero. -/
noncomputable def cutEnd : Drawing ℝ :=
  { nodes := [{ Node.blank with x := .int 0, y := .int 0 }]
    links := [{ source := .value (.thing (some (.real (-0.5)))), target := .value (.int 0)
                length := .null, weight := .null, bends := [⟨.int 10, .int 0⟩], extras := [] }] }

/-- The node alone is the only component, and the link belongs to none. -/
def nodeOnly : Grouping := ⟨[[⟨0, false⟩]], [[]]⟩

theorem validate_cutEnd : cutEnd.numberNodes.validate = .ok () := by
  have hsource : Check.mentioned cutEnd.numberNodes.nodes .source (.ready cutEnd.links[0]) =
      .ok (some ⟨0, false⟩) :=
    bind_eq_ok.mpr ⟨0, Scalar.truncate_half, rfl⟩
  change Check.links cutEnd.numberNodes.nodes 1 [.ready cutEnd.links[0]] = .ok ()
  rw [Check.links, Check.linkIssues, Check.linkIssuesFrom, Check.issuesOf, hsource]
  rfl

theorem groupingOf_cutEnd : groupingOf cutEnd.numberNodes = .ok nodeOnly := by
  have hout : Value.inside 1 (.real (-0.5 : ℝ)) = .ok false :=
    Value.inside_of_neg (by norm_num) 1
  have hends : cutEnd.numberNodes.ends = [⟨.ok (.real (-0.5)), .ok (.int 0)⟩] := rfl
  have hedge : Grouping.edgeOf 1 (⟨.ok (.real (-0.5)), .ok (.int 0)⟩ : Ends ℝ) = .ok none := by
    rw [Grouping.edgeOf, ok_bind, ok_bind, hout]
    rfl
  have hsource : Grouping.sourceOf 1 (⟨.ok (.real (-0.5)), .ok (.int 0)⟩ : Ends ℝ) =
      .ok none := by
    rw [Grouping.sourceOf, ok_bind, hout]
    rfl
  have hedges : Grouping.edgesWithin 1 cutEnd.numberNodes.ends = .ok [] := by
    rw [Grouping.edgesWithin, hends, List.mapM_cons, hedge]
    rfl
  have hsearch : Search.components 1 [] = nodeOnly.nodes := by cbv
  have hnodes : Grouping.components 1 cutEnd.numberNodes.ends = .ok nodeOnly.nodes :=
    bind_eq_ok.mpr ⟨_, hedges, congrArg Except.ok hsearch⟩
  have hsources : cutEnd.numberNodes.ends.mapM (Grouping.sourceOf 1) = .ok [none] := by
    rw [hends, List.mapM_cons, hsource]
    rfl
  refine bind_eq_ok.mpr ⟨(), validate_cutEnd, bind_eq_ok.mpr ⟨_, hnodes, ?_⟩⟩
  exact bind_eq_ok.mpr ⟨_, hsources, rfl⟩

theorem readable_cutEnd : cutEnd.numberNodes.Readable Flags.plain := by
  constructor
  · intro n hn
    obtain rfl := List.mem_singleton.mp hn
    exact ⟨⟨(0 : Int), (0 : Int)⟩, rfl⟩
  · intro _ l hl v hv
    obtain rfl := List.mem_singleton.mp hl
    obtain rfl := List.mem_singleton.mp hv
    exact ⟨⟨(10 : Int), (0 : Int)⟩, rfl⟩

/-- The check takes the scalar index for the node, the search for components takes it for none. The
node is moved away, and the bend of the link stays where it is. -/
theorem settle_leaves_bend :
    cutEnd.numberNodes.validate = .ok () ∧ groupingOf cutEnd.numberNodes = .ok nodeOnly ∧
      (node 0).point cutEnd = .ok ⟨(0 : Int), (0 : Int)⟩ ∧
      (bend 0 0).point cutEnd = .ok ⟨(10 : Int), (0 : Int)⟩ ∧
      ∃ poses b' p, piled.settle none { drawing := cutEnd } = (.ok poses, b') ∧
        (node 0).point b'.drawing = .ok p ∧ 15 ≤ p.x ∧ 15 ≤ p.y ∧
        (bend 0 0).point b'.drawing = .ok ⟨(10 : Int), (0 : Int)⟩ := by
  have hg := groupingOf_cutEnd
  obtain ⟨_, hshares⟩ := shares_of_groupingOf hg
  obtain ⟨poses, b', hsettle⟩ := @exists_settle piled { drawing := cutEnd } nodeOnly none hg hshares
    readable_cutEnd (fun ps _ => ⟨_, rfl⟩) fun sizes => ⟨_, rfl, List.length_map _⟩
  obtain ⟨g, xs, hfound, _, hpacked⟩ := @packed_of_settle piled { drawing := cutEnd } b' none poses
    (fun _ h => (shares_of_groupingOf h).2) hsettle
  obtain rfl := Except.ok.inj (hg.symm.trans hfound)
  obtain ⟨x, rfl, hrecords⟩ := List.map_eq_singleton_iff.mp
    (hpacked.records.trans (rfl : _ = [[node 0]]))
  have hx : x ∈ [x] := List.mem_singleton.mpr rfl
  obtain ⟨p, hp, hpoint⟩ := hpacked.point_mem hx (hrecords.symm ▸ List.mem_cons_self : node 0 ∈ _)
  -- the box of the node is put at the origin, and the node is half a border away from its sides
  have hoffset : x.offset = ⟨0, 0⟩ :=
    (List.cons.inj (Except.ok.inj hpacked.packed)).1.symm
  obtain ⟨hborder, _, hholds⟩ := (hpacked.posed x hx).holds Envelope.spans_convex
  have hleft := (hholds x.offset).left_le p hp
  have htop := (hholds x.offset).top_le p hp
  have hbend : (bend 0 0).point b'.drawing = (bend 0 0).point cutEnd.numberNodes := by
    apply hpacked.moved.point_kept
    intro y hy
    obtain rfl := List.mem_singleton.mp hy
    rw [hrecords]
    decide
  have hthirty : ((piled.border : Int) : ℝ) = 30 := by norm_num [piled]
  rw [hborder, hoffset, hthirty] at hleft htop
  norm_num at hleft htop
  exact ⟨validate_cutEnd, hg, rfl, rfl, poses, b', p, hsettle, hpoint, hleft, htop, hbend⟩

end Mosaic

end PackedDrawing
