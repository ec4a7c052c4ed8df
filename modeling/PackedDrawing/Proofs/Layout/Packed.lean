import PackedDrawing.Proofs.Placement.Collect
import PackedDrawing.Proofs.Placement.Exact

/-!
# Packing the components of a drawing

Components are posed one after another, and placed one after another once the packer has answered.
As no record belongs to two of them, each component is posed and placed as if it were alone.

## Main definitions

* `Mosaic.Posed`: the pose of a component, chosen from the points it has in a drawing.
* `MovesEach`: one drawing comes from another by a motion for each component.
* `Mosaic.Packed`: what packing components does.

## Main statements

* `Mosaic.packed_of_packComponents`: whatever packing answers is described by `Mosaic.Packed`.
* `Mosaic.exists_packComponents`: packing succeeds on readable points with an envelope and a packer
  that answer.
-/

namespace PackedDrawing

open Point (centroid centred carry)
open Record

/-- The point at a record; the origin where there is none. -/
noncomputable def Record.read (d : Drawing ℝ) (r : Record) : Point ℝ :=
  (r.point d).toOption.getD Point.origin

theorem Record.point_eq_read {d : Drawing ℝ} {r : Record} (h : ∃ p, r.point d = .ok p) :
    r.point d = .ok (read d r) := by
  obtain ⟨p, hp⟩ := h
  rw [read, hp]
  rfl

theorem Record.mapM_point {d : Drawing ℝ} {records : List Record}
    (h : ∀ r ∈ records, ∃ p, r.point d = .ok p) :
    records.mapM (Record.point d) = .ok (records.map (read d)) :=
  mapM_eq_map fun r hr => point_eq_read (h r hr)

/-- One drawing comes from another of the same shape by a motion for each of several lists of
records. -/
structure MovesEach {γ : Type} (xs : List γ) (records : γ → List Record)
    (f : γ → Point ℝ → Point ℝ) (d d' : Drawing ℝ) : Prop where
  shape : SameShape d d'
  moved : ∀ x ∈ xs, ∀ r ∈ records x, r.point d' = (r.point d).map (f x)
  kept : ∀ r : Record, (∀ x ∈ xs, home d r ∉ records x) → held d' r = held d r

namespace MovesEach

variable {γ : Type} {xs : List γ} {records : γ → List Record} {f f' : γ → Point ℝ → Point ℝ}
  {d d' d'' : Drawing ℝ}

theorem point_kept (h : MovesEach xs records f d d') {r : Record}
    (hr : ∀ x ∈ xs, home d r ∉ records x) : r.point d' = r.point d := by
  rw [point_eq, point_eq, h.kept r hr]

theorem nil (d : Drawing ℝ) : MovesEach [] records f d d :=
  ⟨SameShape.refl d, fun _ hx => absurd hx List.not_mem_nil, fun _ _ => rfl⟩

/-- One list of records moves first, and then the others. -/
theorem cons {x : γ} (h : Moves (records x) (f x) d d') (h' : MovesEach xs records f d' d'')
    (hhome : ∀ y ∈ x :: xs, ∀ r ∈ records y, home d r = r)
    (hdisjoint : ∀ y ∈ xs, (records x).Disjoint (records y)) :
    MovesEach (x :: xs) records f d d'' := by
  refine ⟨h.shape.trans h'.shape, ?_, ?_⟩
  · intro y hy r hr
    have hr' := hhome y hy r hr
    rcases List.mem_cons.mp hy with rfl | hy
    · have hkept : ∀ z ∈ xs, home d' r ∉ records z := by
        intro z hz
        rw [h.shape.home_eq, hr']
        exact hdisjoint z hz hr
      rw [h'.point_kept hkept, h.moved r (hr'.symm ▸ hr)]
    · have hkept : home d r ∉ records x := by
        rw [hr']
        exact fun hrx => hdisjoint y hy hrx hr
      rw [h'.moved y hy r hr, h.point_kept hkept]
  · intro r hr
    rw [List.forall_mem_cons] at hr
    rw [h'.kept r fun y hy => h.shape.home_eq r ▸ hr.2 y hy, h.kept r hr.1]

/-- Each list of records moves twice. -/
theorem comp (h : MovesEach xs records f d d') (h' : MovesEach xs records f' d' d'') :
    MovesEach xs records (fun x => f' x ∘ f x) d d'' := by
  refine ⟨h.shape.trans h'.shape, ?_, ?_⟩
  · intro x hx r hr
    rw [h'.moved x hx r hr, h.moved x hx r hr]
    cases r.point d with
    | error e => rfl
    | ok p => rfl
  · intro r hr
    rw [h'.kept r fun x hx => h.shape.home_eq r ▸ hr x hx, h.kept r hr]

theorem of_map {δ : Type} {k : δ → γ} {ys : List δ}
    (h : MovesEach (ys.map k) records f d d') :
    MovesEach ys (fun y => records (k y)) (fun y => f (k y)) d d' :=
  ⟨h.shape, fun _ hy => h.moved _ (List.mem_map_of_mem hy),
    fun r hr => h.kept r (List.forall_mem_map.mpr hr)⟩

end MovesEach

namespace Mosaic

variable {s : Mosaic ℝ} {d d' : Drawing ℝ} {records : List Record} {g : Pose ℝ Int}

/-- The pose of a component is chosen for the polygon around its centred points. -/
structure Posed (s : Mosaic ℝ) (d : Drawing ℝ) (records : List Record) (g : Pose ℝ Int) : Prop where
  nonempty : records ≠ []
  readable : ∀ r ∈ records, ∃ p, r.point d = .ok p
  chosen : ∃ outline, s.envelope (centred (records.map (read d))) = .ok outline ∧
    Pose.ofPolygon outline s.border = .ok g

/-- The vector by which a component is centred. -/
noncomputable def centreOf (d : Drawing ℝ) (records : List Record) : Point ℝ :=
  centroid (records.map (read d))

theorem map_read_congr (h : ∀ r ∈ records, r.point d' = r.point d) :
    records.map (read d') = records.map (read d) := by
  apply List.map_congr_left
  intro r hr
  rw [Record.read, Record.read, h r hr]

theorem centreOf_congr (h : ∀ r ∈ records, r.point d' = r.point d) :
    centreOf d' records = centreOf d records := by
  rw [centreOf, centreOf, map_read_congr h]

theorem Posed.congr (hposed : s.Posed d' records g) (h : ∀ r ∈ records, r.point d' = r.point d) :
    s.Posed d records g := by
  refine ⟨hposed.nonempty, ?_, ?_⟩
  · intro r hr
    rw [← h r hr]
    exact hposed.readable r hr
  · rw [← map_read_congr h]
    exact hposed.chosen

theorem posed_of_orient (h : orient records s.border s.envelope d = (.ok g, d')) :
    s.Posed d records g ∧ Moves (records.map (home d)) (· - centreOf d records) d d' := by
  obtain ⟨c, u, hcentre, _⟩ := Act.bind_eq_ok.mp h
  obtain ⟨ps, u', hpoints, hcentre⟩ := Act.bind_eq_ok.mp hcentre
  have hread : records.mapM (Record.point d) = .ok ps := (Prod.mk.inj hpoints).1
  have hne : ps ≠ [] := by
    rintro rfl
    cases (Prod.mk.inj hcentre).1
  have hreadable : ∀ r ∈ records, ∃ p, r.point d = .ok p := by
    intro r hr
    obtain ⟨p, _, hp⟩ := exists_of_mapM hread hr
    exact ⟨p, hp⟩
  obtain rfl := Except.ok.inj (hread.symm.trans (Record.mapM_point hreadable))
  obtain ⟨d'', hwrites, horient⟩ := orient_writes s.border s.envelope hread hne
  obtain ⟨hchosen, rfl⟩ := Prod.mk.inj (horient.symm.trans h)
  obtain ⟨outline, henvelope, hpose⟩ := bind_eq_ok.mp hchosen
  exact ⟨⟨fun hnil => hne (hnil ▸ rfl), hreadable, outline, henvelope, hpose⟩, hwrites.moves⟩

theorem exists_orient (h : s.Posed d records g) :
    ∃ d', orient records s.border s.envelope d = (.ok g, d') := by
  obtain ⟨outline, henvelope, hpose⟩ := h.chosen
  have hne : records.map (read d) ≠ [] := fun hnil => h.nonempty (List.map_eq_nil_iff.mp hnil)
  obtain ⟨d', _, horient⟩ := orient_writes s.border s.envelope (Record.mapM_point h.readable) hne
  refine ⟨d', ?_⟩
  rw [horient, henvelope]
  exact congrArg (·, d') hpose

section PoseAll

variable {parts : List (List Handle × List Nat)}

/-- Components of a drawing that share no record. -/
structure Apart (d : Drawing ℝ) (flags : Flags) (parts : List (List Handle × List Nat)) : Prop where
  part : ∀ x ∈ parts, HasPart d x
  nodup : (parts.map (ofPart d flags)).flatten.Nodup

theorem Apart.of_sameShape {flags : Flags} (h : Apart d flags parts) (hshape : SameShape d d') :
    Apart d' flags parts := by
  refine ⟨fun x hx => (h.part x hx).of_sameShape hshape, ?_⟩
  rw [List.map_congr_left fun x _ => hshape.ofPart_eq flags x]
  exact h.nodup

theorem Apart.tail {flags : Flags} {x : List Handle × List Nat}
    (h : Apart d flags (x :: parts)) : Apart d flags parts := by
  refine ⟨fun y hy => h.part y (List.mem_cons_of_mem x hy), ?_⟩
  have hnodup := h.nodup
  rw [List.map_cons, List.flatten_cons] at hnodup
  exact hnodup.of_append_right

theorem Apart.disjoint_tail {flags : Flags} {x : List Handle × List Nat}
    (h : Apart d flags (x :: parts)) :
    ∀ y ∈ parts, (ofPart d flags x).Disjoint (ofPart d flags y) := by
  have hpairwise := (List.nodup_flatten.mp h.nodup).2
  rw [List.map_cons, List.pairwise_cons, List.forall_mem_map] at hpairwise
  exact hpairwise.1

/-- The first component is posed and centred before the others. As it shares no record with them,
they are posed from the points they have at first. -/
theorem posed_cons {u : Drawing ℝ} {others : List (List Record × Pose ℝ Int)}
    (hposed : s.Posed d records g) (hmoves : Moves records (· - centreOf d records) d u)
    (hall : ∀ o ∈ others, s.Posed u o.1 o.2)
    (heach : MovesEach others Prod.fst (fun o => (· - centreOf u o.1)) u d')
    (hhome : ∀ o ∈ (records, g) :: others, ∀ r ∈ o.1, home d r = r)
    (hdisjoint : ∀ o ∈ others, records.Disjoint o.1) :
    (∀ o ∈ (records, g) :: others, s.Posed d o.1 o.2) ∧
      MovesEach ((records, g) :: others) Prod.fst (fun o => (· - centreOf d o.1)) d d' := by
  have hkept : ∀ o ∈ others, ∀ r ∈ o.1, r.point u = r.point d := by
    intro o ho r hr
    apply hmoves.point_kept
    rw [hhome o (List.mem_cons_of_mem _ ho) r hr]
    exact fun hr' => hdisjoint o ho hr' hr
  have heach' : MovesEach others Prod.fst (fun o => (· - centreOf d o.1)) u d' :=
    ⟨heach.shape, fun o ho r hr => centreOf_congr (hkept o ho) ▸ heach.moved o ho r hr, heach.kept⟩
  constructor
  · rw [List.forall_mem_cons]
    exact ⟨hposed, fun o ho => (hall o ho).congr (hkept o ho)⟩
  · exact MovesEach.cons hmoves heach' hhome hdisjoint

/-- Components are posed from the points they have at first, and each of them is centred. -/
theorem posed_of_poseAll {oriented : List (List Record × Pose ℝ Int)}
    (hparts : Apart d s.flags parts) (h : s.poseAll parts d = (.ok oriented, d')) :
    oriented.map Prod.fst = parts.map (ofPart d s.flags) ∧
      (∀ o ∈ oriented, s.Posed d o.1 o.2) ∧
      MovesEach oriented Prod.fst (fun o => (· - centreOf d o.1)) d d' := by
  induction parts generalizing d oriented with
  | nil =>
      obtain ⟨hnil, rfl⟩ := Prod.mk.inj h
      obtain rfl := Except.ok.inj hnil
      exact ⟨rfl, fun _ ho => absurd ho List.not_mem_nil, MovesEach.nil d⟩
  | cons x rest ih =>
      obtain ⟨first, u, hfirst, h⟩ := Act.bind_eq_ok.mp h
      obtain ⟨others, u', hothers, h⟩ := Act.bind_eq_ok.mp h
      obtain ⟨rfl, rfl⟩ := Act.pure_eq_ok.mp h
      rw [poseComponent_eq (hparts.part x List.mem_cons_self)] at hfirst
      obtain ⟨g, u'', horient, hpair⟩ := Act.bind_eq_ok.mp hfirst
      obtain ⟨rfl, rfl⟩ := Act.pure_eq_ok.mp hpair
      obtain ⟨hposed, hmoves⟩ := posed_of_orient horient
      rw [map_home_ofPart] at hmoves
      obtain ⟨hrecords, hall, heach⟩ := ih (hparts.tail.of_sameShape hmoves.shape) hothers
      rw [List.map_congr_left fun y _ => hmoves.shape.ofPart_eq s.flags y] at hrecords
      have hrecords' : ((ofPart d s.flags x, g) :: others).map Prod.fst =
          (x :: rest).map (ofPart d s.flags) := by
        rw [List.map_cons, List.map_cons, hrecords]
      refine ⟨hrecords', posed_cons hposed hmoves hall heach ?_ ?_⟩
      · intro o ho r hr
        obtain ⟨y, _, heq⟩ := exists_of_map_eq hrecords' ho
        exact home_ofPart (heq ▸ hr)
      · intro o ho
        obtain ⟨y, hy, heq⟩ := exists_of_map_eq hrecords ho
        rw [heq]
        exact hparts.disjoint_tail y hy

/-- Posing succeeds on readable points when the envelope answers. -/
theorem exists_poseAll (hparts : Apart d s.flags parts)
    (hread : ∀ x ∈ parts, ∀ r ∈ ofPart d s.flags x, ∃ p, r.point d = .ok p)
    (hne : ∀ x ∈ parts, ofPart d s.flags x ≠ [])
    (henvelope : ∀ ps, ps ≠ [] → ∃ outline, s.envelope ps = .ok outline) :
    ∃ oriented d', s.poseAll parts d = (.ok oriented, d') := by
  induction parts generalizing d with
  | nil => exact ⟨[], d, rfl⟩
  | cons x rest ih =>
      obtain ⟨g, u, horient⟩ : ∃ g u,
          orient (ofPart d s.flags x) s.border s.envelope d = (.ok g, u) := by
        have hpoints : (ofPart d s.flags x).map (read d) ≠ [] := fun hnil =>
          hne x List.mem_cons_self (List.map_eq_nil_iff.mp hnil)
        obtain ⟨outline, houtline⟩ := henvelope (centred ((ofPart d s.flags x).map (read d)))
          fun hnil => hpoints (List.map_eq_nil_iff.mp hnil)
        obtain ⟨g, hg, _⟩ := Pose.ofPolygon_eq outline s.border rfl
        exact ⟨g, exists_orient
          ⟨hne x List.mem_cons_self, hread x List.mem_cons_self, outline, houtline, hg⟩⟩
      obtain ⟨_, hmoves⟩ := posed_of_orient horient
      rw [map_home_ofPart] at hmoves
      have hshape : ∀ y, ofPart u s.flags y = ofPart d s.flags y := fun y =>
        hmoves.shape.ofPart_eq s.flags y
      obtain ⟨others, d', hothers⟩ := @ih u (hparts.tail.of_sameShape hmoves.shape)
        (by
          intro y hy r hr
          rw [hshape y] at hr
          rw [hmoves.point_kept fun hr' =>
            hparts.disjoint_tail y hy (home_ofPart hr ▸ hr') hr]
          exact hread y (List.mem_cons_of_mem x hy) r hr)
        (fun y hy => hshape y ▸ hne y (List.mem_cons_of_mem x hy))
      refine ⟨(ofPart d s.flags x, g) :: others, d', ?_⟩
      have hfirst : s.poseComponent x.1 x.2 d = (.ok (ofPart d s.flags x, g), u) := by
        rw [poseComponent_eq (hparts.part x List.mem_cons_self), Act.bind_of_ok horient]
        rfl
      rw [poseAll, Act.bind_of_ok hfirst, Act.bind_of_ok hothers]
      rfl

end PoseAll

/-- A component with its pose and the offset of its box. -/
structure Placed where
  records : List Record
  pose : Pose ℝ Int
  offset : Offset

namespace Placed

/-- Where a component goes from the place where it was centred. -/
noncomputable def place (x : Placed) : Point ℝ → Point ℝ :=
  carry x.pose.rotation (x.pose.vector x.offset)

/-- A component with its pose. -/
def oriented (x : Placed) : List Record × Pose ℝ Int := (x.records, x.pose)

theorem exists_placed {os : List (List Record × Pose ℝ Int)} {offsets : List Offset}
    (h : os.length = offsets.length) :
    ∃ xs : List Placed, os = xs.map oriented ∧ offsets = xs.map offset := by
  refine ⟨(os.zip offsets).map fun x => ⟨x.1.1, x.1.2, x.2⟩, ?_, ?_⟩
  · rw [List.map_map]
    exact (List.map_fst_zip h.le).symm
  · rw [List.map_map]
    exact (List.map_snd_zip h.ge).symm

/-- Components are placed one after another, each of them where its pose and offset say. -/
theorem exists_settleAll {xs : List Placed} (hhome : ∀ x ∈ xs, ∀ r ∈ x.records, home d r = r)
    (hnodup : (xs.map Placed.records).flatten.Nodup)
    (hread : ∀ x ∈ xs, ∀ r ∈ x.records, ∃ p, r.point d = .ok p) :
    ∃ d', Act.each (fun p => PackedDrawing.settle p.1.1 p.1.2 p.2)
        ((xs.map oriented).zip (xs.map offset)) d = (.ok (), d') ∧
      MovesEach xs Placed.records place d d' := by
  induction xs generalizing d with
  | nil => exact ⟨d, rfl, MovesEach.nil d⟩
  | cons x rest ih =>
      have hhomes : x.records.map (home d) = x.records :=
        (List.map_congr_left (hhome x List.mem_cons_self)).trans (List.map_id _)
      rw [List.map_cons, List.flatten_cons, List.nodup_append'] at hnodup
      obtain ⟨hfirst, hrest, hdisjoint⟩ := hnodup
      obtain ⟨u, hu, hmoves⟩ := settle_moves x.pose x.offset (hhomes.symm ▸ hfirst)
        (hread x List.mem_cons_self)
      rw [hhomes] at hmoves
      have hdisjoint' : ∀ y ∈ rest, x.records.Disjoint y.records := by
        intro y hy r hr hr'
        exact hdisjoint hr (List.mem_flatten.mpr ⟨_, List.mem_map_of_mem hy, hr'⟩)
      obtain ⟨d', hd', heach⟩ := @ih u
        (fun y hy r hr => (hmoves.shape.home_eq r).trans (hhome y (List.mem_cons_of_mem x hy) r hr))
        hrest
        (by
          intro y hy r hr
          rw [hmoves.point_kept fun hr' =>
            hdisjoint' y hy (hhome y (List.mem_cons_of_mem x hy) r hr ▸ hr') hr]
          exact hread y (List.mem_cons_of_mem x hy) r hr)
      refine ⟨d', ?_, MovesEach.cons hmoves heach hhome hdisjoint'⟩
      rw [List.map_cons, List.map_cons, List.zip_cons_cons, Act.each_cons]
      exact (Act.bind_of_ok hu).trans hd'

end Placed

/-- What packing does: each component is posed from its points, the packer answers for the boxes of
all poses, and each component is centred and placed. -/
structure Packed (s : Mosaic ℝ) (parts : List (List Handle × List Nat)) (xs : List Placed)
    (d d' : Drawing ℝ) : Prop where
  records : xs.map Placed.records = parts.map (ofPart d s.flags)
  posed : ∀ x ∈ xs, s.Posed d x.records x.pose
  packed : s.packer (xs.map fun x => x.pose.boxOf) s.ratio = .ok (xs.map Placed.offset)
  moved : MovesEach xs Placed.records (fun x p => x.place (p - centreOf d x.records)) d d'

section PackComponents

variable {parts : List (List Handle × List Nat)} {grouping : Grouping} {xs : List Placed}

theorem boxesOf_eq (poses : List (Pose ℝ Int)) : boxesOf poses = .ok (poses.map Pose.boxOf) :=
  mapM_eq_map fun g _ => g.box_eq_boxOf

/-- A packer's answer is used when it has one offset for each box. -/
theorem pack_eq_ok_iff {α : Type} [Scalar α] {s : Mosaic α} {sizes : List Box}
    {offsets : List Offset} :
    s.pack sizes = .ok offsets ↔
      s.packer sizes s.ratio = .ok offsets ∧ offsets.length = sizes.length := by
  rw [pack]
  constructor
  · intro h
    obtain ⟨answer, hanswer, h⟩ := bind_eq_ok.mp h
    obtain ⟨_, hcheck, h⟩ := bind_eq_ok.mp h
    obtain rfl := pure_eq_ok.mp h
    rw [Check.offsets] at hcheck
    by_cases hlength : (answer.length : Int) = sizes.length
    · exact ⟨hanswer, Int.ofNat.inj hlength⟩
    · rw [if_neg hlength] at hcheck
      cases hcheck
  · rintro ⟨hanswer, hlength⟩
    have hequal : (offsets.length : Int) = sizes.length := congrArg Int.ofNat hlength
    rw [hanswer, ok_bind, Check.offsets, if_pos hequal]
    rfl

/-- Components that have been posed and centred can all be placed. -/
theorem exists_placeAll (hparts : Apart d s.flags parts) {u : Drawing ℝ}
    (hrecords : xs.map Placed.records = parts.map (ofPart d s.flags))
    (hposed : ∀ x ∈ xs, s.Posed d x.records x.pose)
    (hcentred : MovesEach xs Placed.records (fun x => (· - centreOf d x.records)) d u) :
    ∃ d', Act.each (fun p => PackedDrawing.settle p.1.1 p.1.2 p.2)
        ((xs.map Placed.oriented).zip (xs.map Placed.offset)) u = (.ok (), d') ∧
      MovesEach xs Placed.records (fun x p => x.place (p - centreOf d x.records)) d d' := by
  have hhome : ∀ x ∈ xs, ∀ r ∈ x.records, home u r = r := by
    intro x hx r hr
    obtain ⟨part, _, heq⟩ := exists_of_map_eq hrecords hx
    rw [hcentred.shape.home_eq]
    exact home_ofPart (heq ▸ hr)
  have hreadable : ∀ x ∈ xs, ∀ r ∈ x.records, ∃ p, r.point u = .ok p := by
    intro x hx r hr
    obtain ⟨p, hp⟩ := (hposed x hx).readable r hr
    rw [hcentred.moved x hx r hr, hp]
    exact ⟨_, rfl⟩
  obtain ⟨d', hsettle, hplaced⟩ :=
    Placed.exists_settleAll hhome (hrecords ▸ hparts.nodup) hreadable
  exact ⟨d', hsettle, hcentred.comp hplaced⟩

/-- Once the components are posed and the packer has answered, nothing fails any more. -/
theorem exists_packed (hparts : Apart d s.flags (grouping.nodes.zip grouping.links))
    {os : List (List Record × Pose ℝ Int)} {u : Drawing ℝ} {offsets : List Offset}
    (hposes : s.poseAll (grouping.nodes.zip grouping.links) d = (.ok os, u))
    (hpack : s.pack ((os.map Prod.snd).map Pose.boxOf) = .ok offsets) :
    ∃ xs d', s.packComponents grouping d =
        (.ok (xs.map Placed.pose, xs.map Placed.offset), d') ∧
      s.Packed (grouping.nodes.zip grouping.links) xs d d' := by
  obtain ⟨hpacker, hlength⟩ := pack_eq_ok_iff.mp hpack
  obtain ⟨hrecords, hposed, hcentred⟩ := posed_of_poseAll hparts hposes
  rw [List.length_map, List.length_map] at hlength
  obtain ⟨xs, rfl, rfl⟩ := Placed.exists_placed hlength.symm
  rw [List.map_map] at hrecords
  rw [List.map_map, List.map_map] at hpacker
  rw [List.forall_mem_map] at hposed
  obtain ⟨d', hsettle, hmoved⟩ := exists_placeAll hparts hrecords hposed hcentred.of_map
  refine ⟨xs, d', ?_, ⟨hrecords, hposed, hpacker, hmoved⟩⟩
  have hpose : (xs.map Placed.oriented).map Prod.snd = xs.map Placed.pose := by
    rw [List.map_map]
    rfl
  rw [packComponents, Act.bind_of_ok hposes, boxesOf_eq, Act.bind_of_ok (Act.attempt_apply _ _),
    hpack, Act.bind_of_ok (Act.attempt_apply _ _), Act.bind_of_ok hsettle, hpose]
  rfl

/-- Whatever packing answers, it is what is described by `Packed`. -/
theorem packed_of_packComponents {poses : List (Pose ℝ Int)} {offsets : List Offset}
    (hparts : Apart d s.flags (grouping.nodes.zip grouping.links))
    (h : s.packComponents grouping d = (.ok (poses, offsets), d')) :
    ∃ xs, s.Packed (grouping.nodes.zip grouping.links) xs d d' ∧
      poses = xs.map Placed.pose ∧ offsets = xs.map Placed.offset := by
  have hpacking := h
  obtain ⟨os, u, hposes, h⟩ := Act.bind_eq_ok.mp h
  obtain ⟨sizes, u₁, hboxes, h⟩ := Act.bind_eq_ok.mp h
  obtain ⟨answer, u₂, hpack, h⟩ := Act.bind_eq_ok.mp h
  obtain ⟨hsizes, rfl⟩ := Act.attempt_eq_ok.mp hboxes
  obtain rfl := Except.ok.inj ((boxesOf_eq _).symm.trans hsizes)
  obtain ⟨xs, d'', hdone, hpacked⟩ := exists_packed hparts hposes (Act.attempt_eq_ok.mp hpack).1
  obtain ⟨hanswer, rfl⟩ := Prod.mk.inj (hpacking.symm.trans hdone)
  obtain ⟨hposes', hoffsets⟩ := Prod.mk.inj (Except.ok.inj hanswer)
  exact ⟨xs, hpacked, hposes', hoffsets⟩

/-- Packing succeeds on readable points when the envelope and the packer answer. -/
theorem exists_packComponents (hparts : Apart d s.flags (grouping.nodes.zip grouping.links))
    (hread : ∀ x ∈ grouping.nodes.zip grouping.links, ∀ r ∈ ofPart d s.flags x,
      ∃ p, r.point d = .ok p)
    (hne : ∀ x ∈ grouping.nodes.zip grouping.links, ofPart d s.flags x ≠ [])
    (henvelope : ∀ ps, ps ≠ [] → ∃ outline, s.envelope ps = .ok outline)
    (hpacker : ∀ sizes, ∃ offsets, s.packer sizes s.ratio = .ok offsets ∧
      offsets.length = sizes.length) :
    ∃ r d', s.packComponents grouping d = (.ok r, d') := by
  obtain ⟨os, u, hposes⟩ := exists_poseAll hparts hread hne henvelope
  obtain ⟨offsets, hanswer⟩ := hpacker ((os.map Prod.snd).map Pose.boxOf)
  obtain ⟨xs, d', hdone, _⟩ := exists_packed hparts hposes (pack_eq_ok_iff.mpr hanswer)
  exact ⟨_, d', hdone⟩

/-- A pose that was chosen for a polygon around the points of a component holds them. -/
theorem Posed.holds (h : s.Posed d records g) (hspans : Envelope.Spans s.envelope) :
    g.border = s.border ∧ 1 ≤ g.width ∧ ∀ offset, g.Holds offset
      ((centred (records.map (read d))).map (carry g.rotation (g.vector offset))) := by
  have hne : centred (records.map (read d)) ≠ [] := by
    intro hnil
    exact h.nonempty (List.map_eq_nil_iff.mp (List.map_eq_nil_iff.mp hnil))
  obtain ⟨outline, henvelope, hpose⟩ := h.chosen
  obtain ⟨outline', henvelope', hspan⟩ := hspans _ hne
  obtain rfl := Except.ok.inj (henvelope.symm.trans henvelope')
  obtain ⟨g', hg', hborder, hone, hflat, hholds⟩ := Pose.exists_ofPolygon hne hspan s.border
  obtain rfl := Except.ok.inj (hpose.symm.trans hg')
  exact ⟨hborder, hone.trans hflat, hholds⟩

/-- Where the points of a placed component are. -/
theorem Packed.point_mem (h : s.Packed parts xs d d') {x : Placed} (hx : x ∈ xs) {r : Record}
    (hr : r ∈ x.records) :
    ∃ p ∈ (centred (x.records.map (read d))).map
      (carry x.pose.rotation (x.pose.vector x.offset)), r.point d' = .ok p := by
  refine ⟨x.place (read d r - centreOf d x.records), ?_, ?_⟩
  · apply List.mem_map_of_mem
    exact List.mem_map_of_mem (List.mem_map_of_mem hr)
  · rw [h.moved.moved x hx r hr, point_eq_read ((h.posed x hx).readable r hr)]
    rfl

end PackComponents

end Mosaic

end PackedDrawing
