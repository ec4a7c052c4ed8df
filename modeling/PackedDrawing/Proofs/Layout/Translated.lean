import PackedDrawing.Proofs.Layout.Home

/-!
# Where components lie before they are packed

Packing begins by centring each component, so it does not see where a component was. Two drawings
that differ by a translation of each component are packed alike, and an attempt that fails leaves
such a drawing behind.

## Main definitions

* `Shifted`: each of several parts of a drawing is translated.
* `Translated`: each component of a drawing is translated.

## Main statements

* `Mosaic.packComponents_shifted`: what is packed from translated parts.
* `Mosaic.shifted_of_packComponents`: what a failed attempt leaves behind.
* `Mosaic.settle_translated`: both, for the components of a drawing.
-/

namespace PackedDrawing

open Point (centroid centred)
open Record

namespace Point

/-- The mean moves with the points. -/
theorem centroid_add (vector : Point ℝ) {ps : List (Point ℝ)} (hne : ps ≠ []) :
    centroid (ps.map (· + vector)) = centroid ps + vector := by
  have hlength : (ps.length : ℝ) ≠ 0 := by
    rw [Nat.cast_ne_zero, Ne, List.length_eq_zero_iff]
    exact hne
  have hsum (f : Point ℝ → ℝ) (c : ℝ) :
      (ps.map fun p => f p + c).sum / ps.length = (ps.map f).sum / ps.length + c := by
    rw [List.sum_map_add, List.map_const', List.sum_replicate, nsmul_eq_mul, add_div,
      mul_div_cancel_left₀ c hlength]
  apply Point.ext_iff.mpr
  constructor
  · simp only [centroid, List.map_map, List.length_map]
    exact hsum x vector.x
  · simp only [centroid, List.map_map, List.length_map]
    exact hsum y vector.y

/-- Points look the same from their mean wherever they are. -/
theorem centred_add (vector : Point ℝ) (ps : List (Point ℝ)) :
    centred (ps.map (· + vector)) = centred ps := by
  rcases eq_or_ne ps [] with rfl | hne
  · rfl
  · rw [centred, centred, centroid_add vector hne, List.map_map]
    apply List.map_congr_left
    intro p _
    apply Point.ext_iff.mpr
    constructor
    · exact add_sub_add_right_eq_sub p.x (centroid ps).x vector.x
    · exact add_sub_add_right_eq_sub p.y (centroid ps).y vector.y

end Point

namespace Drawing

variable {α : Type} {d d' : Drawing α}

theorem graph_frame (d : Drawing α) : d.frame.graph = d.graph := by
  rw [graph, graph, frame, List.map_map, List.map_map]
  rfl

theorem graph_of_frame (h : d'.frame = d.frame) : d'.graph = d.graph := by
  rw [← graph_frame d', h, graph_frame]

theorem frame_numberNodes (d : Drawing α) : d.numberNodes.frame = d.frame.numberNodes := by
  have hnodes : d.numberNodes.frame.nodes = d.frame.numberNodes.nodes := by
    apply List.ext_getElem?
    intro i
    simp only [frame, numberNodes, List.getElem?_map, List.getElem?_mapIdx, Option.map_map]
    apply Option.map_congr
    rintro ⟨index, x, y, z, width, height, extras⟩ _
    cases index <;> rfl
  exact congrArg (fun nodes => { d.frame with nodes }) hnodes

theorem numberNodes_idem (d : Drawing α) : d.numberNodes.numberNodes = d.numberNodes :=
  numberNodes_of_graph rfl

/-- A drawing is known by its frame and by what is held at its records. -/
theorem eq_of_frame {d d' : Drawing ℝ} (hframe : d'.frame = d.frame) (hshape : SameShape d d')
    (hheld : ∀ r, held d' r = held d r) : d' = d := by
  have hnodes : d'.nodes = d.nodes := by
    apply List.ext_getElem?
    intro k
    have hk := congrArg (fun e : Drawing ℝ => e.nodes[k]?) hframe
    have hpoint := hheld (node k)
    simp only [frame, List.getElem?_map, held] at hk hpoint
    cases hn : d.nodes[k]? with
    | none =>
        rw [hn, Option.map_none, Option.map_eq_none_iff] at hk
        exact hk
    | some n =>
        rw [hn, Option.map_some, Option.map_eq_some_iff] at hk
        obtain ⟨n', hn', heq⟩ := hk
        rw [hn, hn', Option.map_some, Option.map_some, Option.some.injEq, Point.mk.injEq] at hpoint
        cases n
        cases n'
        simp_all
  have hlinks : d'.links = d.links := by
    apply List.ext_getElem?
    intro l
    have hl := congrArg (fun e : Drawing ℝ => e.links[l]?) hframe
    have hbends := bendsAt_eq_of_held (l := l) hshape fun k _ => hheld (bend l (k : Nat))
    simp only [frame, List.getElem?_map, bendsAt] at hl hbends
    cases hn : d.links[l]? with
    | none =>
        rw [hn, Option.map_none, Option.map_eq_none_iff] at hl
        exact hl
    | some n =>
        rw [hn, Option.map_some, Option.map_eq_some_iff] at hl
        obtain ⟨n', hn', heq⟩ := hl
        rw [hn, hn', Option.map_some, Option.map_some, Option.some.injEq] at hbends
        cases n
        cases n'
        simp_all
  cases d
  cases d'
  simp_all

end Drawing

/-- One drawing comes from another by a translation of each of several parts. -/
structure Shifted (flags : Flags) (parts : List (List Handle × List Nat)) (d d' : Drawing ℝ) :
    Prop where
  shape : SameShape d d'
  frame : d'.frame = d.frame
  shifted : ∀ part ∈ parts, ∃ vector : Point ℝ, ∀ r ∈ ofPart d flags part,
    r.point d' = (r.point d).map (· + vector)
  kept : ∀ r : Record, (∀ part ∈ parts, home d r ∉ ofPart d flags part) → held d' r = held d r

namespace Shifted

variable {flags : Flags} {part : List Handle × List Nat} {parts : List (List Handle × List Nat)}
  {d d' u u' : Drawing ℝ}

theorem refl (flags : Flags) (parts : List (List Handle × List Nat)) (d : Drawing ℝ) :
    Shifted flags parts d d := by
  refine ⟨SameShape.refl d, rfl, ?_, fun _ _ => rfl⟩
  intro part _
  refine ⟨⟨0, 0⟩, ?_⟩
  intro r _
  cases r.point d with
  | error e => rfl
  | ok p =>
      apply congrArg Except.ok
      apply Point.ext_iff.mpr
      exact ⟨(add_zero p.x).symm, (add_zero p.y).symm⟩

/-- Where no part is translated, nothing is. -/
theorem eq_of_nil (h : Shifted flags [] d d') : d' = d := by
  apply Drawing.eq_of_frame h.frame h.shape
  intro r
  apply h.kept
  intro part hpart
  cases hpart

/-- Numbering nodes goes well with translations. -/
theorem numberNodes (h : Shifted flags parts d d') :
    Shifted flags parts d.numberNodes d'.numberNodes := by
  have hshape := d.sameShape_numberNodes
  constructor
  case shape => exact (hshape.symm.trans h.shape).trans d'.sameShape_numberNodes
  case frame => rw [Drawing.frame_numberNodes, Drawing.frame_numberNodes, h.frame]
  case shifted =>
    intro part hpart
    obtain ⟨vector, hvector⟩ := h.shifted part hpart
    refine ⟨vector, ?_⟩
    intro r hr
    rw [hshape.ofPart_eq] at hr
    rw [Drawing.point_numberNodes, Drawing.point_numberNodes, hvector r hr]
  case kept =>
    intro r hr
    rw [Drawing.held_numberNodes, Drawing.held_numberNodes]
    apply h.kept
    intro part hpart
    rw [← hshape.home_eq, ← hshape.ofPart_eq]
    exact hr part hpart

end Shifted

namespace Mosaic

variable {s : Mosaic ℝ} {flags : Flags} {x : List Handle × List Nat}
  {parts : List (List Handle × List Nat)} {d d' u u' : Drawing ℝ}

theorem homes_of_sameShape (h : SameShape d d') (flags : Flags) (x : List Handle × List Nat) :
    (ofPart d flags x).map (home d') = ofPart d flags x := by
  rw [← h.ofPart_eq, map_home_ofPart]

/-- A component that was written leaves the records of the others as they are. -/
theorem point_other (hparts : Apart d flags (x :: parts)) {f : Point ℝ → Point ℝ}
    (hwrites : Writes (ofPart d flags x) f d u) {y : List Handle × List Nat} (hy : y ∈ parts)
    {r : Record} (hr : r ∈ ofPart d flags y) : r.point u = r.point d := by
  apply hwrites.moves.point_kept
  rw [home_ofPart hr]
  exact fun hrx => hparts.disjoint_tail y hy hrx hr

/-- Once a component was centred in both drawings, it is the others that are translated. -/
theorem shifted_tail {vector : Point ℝ} (hparts : Apart d flags (x :: parts))
    (h : Shifted flags (x :: parts) d d')
    (hvector : ∀ r ∈ ofPart d flags x, r.point d' = (r.point d).map (· + vector))
    {ps : List (Point ℝ)} (hne : ps ≠ [])
    (hwrites : Writes (ofPart d flags x) (· - centroid ps) d u)
    (hwrites' : Writes (ofPart d flags x) (· - centroid (ps.map (· + vector))) d' u') :
    Shifted flags parts u u' := by
  have hhome : ∀ r, home d' r = home d r := h.shape.home_eq
  constructor
  case shape => exact (hwrites.shape.symm.trans h.shape).trans hwrites'.shape
  case frame => rw [hwrites'.frame, h.frame, hwrites.frame]
  case shifted =>
    intro y hy
    obtain ⟨w, hw⟩ := h.shifted y (List.mem_cons_of_mem x hy)
    refine ⟨w, ?_⟩
    intro r hr
    rw [hwrites.shape.ofPart_eq] at hr
    have hother : r.point u' = r.point d' := by
      apply hwrites'.moves.point_kept
      rw [hhome, home_ofPart hr]
      exact fun hrx => hparts.disjoint_tail y hy hrx hr
    rw [hother, point_other hparts hwrites hy hr, hw r hr]
  case kept =>
    intro r hr
    by_cases hx : home d r ∈ ofPart d flags x
    · obtain ⟨p, hp, hheld⟩ := hwrites.written r hx
      obtain ⟨p', hp', hheld'⟩ := hwrites'.written r (hhome r ▸ hx)
      -- both drawings have the record at the same distance from the mean
      have hmoved : p' = p + vector := by
        have hpoint := hvector (home d r) hx
        rw [← hhome r, point_home, hhome r, point_home, hp, hp'] at hpoint
        exact Except.ok.inj hpoint
      have hsame : p' - centroid (ps.map (· + vector)) = p - centroid ps := by
        rw [hmoved, Point.centroid_add vector hne]
        apply Point.ext_iff.mpr
        exact ⟨add_sub_add_right_eq_sub _ _ _, add_sub_add_right_eq_sub _ _ _⟩
      rw [hheld, hheld', hsame]
    · rw [hwrites'.kept r (hhome r ▸ hx), hwrites.kept r hx]
      apply h.kept
      rw [List.forall_mem_cons]
      refine ⟨hx, ?_⟩
      intro y hy
      rw [← hwrites.shape.ofPart_eq, ← hwrites.shape.home_eq]
      exact hr y hy

/-- A component that cannot be read is not centred. -/
theorem orient_of_unread {records : List Record} {border : Int} {envelope : Envelope ℝ}
    {e : Fault} (h : records.mapM (Record.point d) = .error e) :
    orient records border envelope d = (.error e, d) := by
  have hcentre : centre records d = (.error e, d) := by
    rw [centre]
    exact Act.bind_of_error (congrArg (·, d) h)
  rw [orient, Act.bind_of_error hcentre]

theorem orient_of_empty {records : List Record} {border : Int} {envelope : Envelope ℝ}
    (h : records.mapM (Record.point d) = .ok []) :
    orient records border envelope d = (.error .noPoints, d) := by
  have hpoints : points records d = (.ok [], d) := by rw [points, h]
  have hcentre : centre records d = (.error .noPoints, d) := by
    rw [centre, Act.bind_of_ok hpoints]
    rfl
  rw [orient, Act.bind_of_error hcentre]

/-- A translated component is posed as it is without the translation, and it is the others that are
still translated. -/
theorem orient_shifted (hparts : Apart d flags (x :: parts)) (h : Shifted flags (x :: parts) d d')
    (border : Int) (envelope : Envelope ℝ) :
    Act.Alike (fun u u' => Apart u flags parts ∧ Shifted flags parts u u')
      (orient (ofPart d flags x) border envelope d)
      (orient (ofPart d flags x) border envelope d') := by
  obtain ⟨vector, hvector⟩ := h.shifted x List.mem_cons_self
  have hread : (ofPart d flags x).mapM (Record.point d') =
      ((ofPart d flags x).mapM (Record.point d)).map (List.map (· + vector)) := by
    rw [mapM_congr hvector, mapM_map]
  cases hps : (ofPart d flags x).mapM (Record.point d) with
  | error e =>
      rw [hps] at hread
      rw [orient_of_unread hps, orient_of_unread hread]
      exact Act.Alike.failed e d d'
  | ok ps =>
      rw [hps] at hread
      by_cases hne : ps = []
      · rw [hne] at hps hread
        rw [orient_of_empty hps, orient_of_empty hread]
        exact Act.Alike.failed .noPoints d d'
      · obtain ⟨u, hwrites, horient⟩ := orient_writes border envelope hps hne
        obtain ⟨u', hwrites', horient'⟩ := orient_writes border envelope hread
          (fun hnil => hne (List.map_eq_nil_iff.mp hnil))
        rw [map_home_ofPart] at hwrites
        rw [homes_of_sameShape h.shape] at hwrites'
        rw [Point.centred_add] at horient'
        rw [horient, horient']
        cases (envelope (centred ps)).bind (Pose.ofPolygon · border) with
        | error e => exact Act.Alike.failed e u u'
        | ok g =>
            apply Act.Alike.answered g
            exact ⟨hparts.tail.of_sameShape hwrites.shape,
              shifted_tail hparts h hvector hne hwrites hwrites'⟩

/-- Translated components are posed alike, and once they are posed nothing is left of the
translations. -/
theorem poseAll_shifted (hparts : Apart d s.flags parts) (h : Shifted s.flags parts d d') :
    Act.Alike Eq (s.poseAll parts d) (s.poseAll parts d') := by
  induction parts generalizing d d' with
  | nil =>
      obtain rfl := h.eq_of_nil
      exact Act.Alike.refl Eq.refl _
  | cons x rest ih =>
      have hx := hparts.part x List.mem_cons_self
      have hfirst := orient_shifted hparts h s.border s.envelope
      have hcomponent : Act.Alike (fun u u' => Apart u s.flags rest ∧ Shifted s.flags rest u u')
          (s.poseComponent x.1 x.2 d) (s.poseComponent x.1 x.2 d') := by
        rw [poseComponent_eq hx, poseComponent_eq (hx.of_sameShape h.shape), h.shape.ofPart_eq]
        apply hfirst.bind
        intro g u u' hrest
        exact Act.Alike.answered _ hrest
      apply hcomponent.bind
      rintro first u u' ⟨hrest, hshifted⟩
      apply (ih hrest hshifted).bind
      rintro others t _ rfl
      exact Act.Alike.refl Eq.refl _

/-- What is packed from translated components is what is packed without the translations. -/
theorem packComponents_shifted {g : Grouping} (hparts : Apart d s.flags (g.nodes.zip g.links))
    (h : Shifted s.flags (g.nodes.zip g.links) d d') :
    Act.Alike Eq (s.packComponents g d) (s.packComponents g d') := by
  apply (poseAll_shifted hparts h).bind
  rintro oriented t _ rfl
  exact Act.Alike.refl Eq.refl _

/-- A component that was written is left as it is when the others are translated. -/
theorem point_first (hparts : Apart d flags (x :: parts)) {f : Point ℝ → Point ℝ}
    (hwrites : Writes (ofPart d flags x) f d u) (h : Shifted flags parts u u') {r : Record}
    (hr : r ∈ ofPart d flags x) : r.point u' = (r.point d).map f := by
  have hkept : held u' r = held u r := by
    apply h.kept
    intro y hy
    rw [hwrites.shape.home_eq, hwrites.shape.ofPart_eq, home_ofPart hr]
    exact hparts.disjoint_tail y hy hr
  rw [point_eq u', hkept, ← point_eq, hwrites.moves.moved r ((home_ofPart hr).symm ▸ hr)]

/-- A component is translated first, and then the others. -/
theorem shifted_cons {vector : Point ℝ} (hparts : Apart d flags (x :: parts))
    (hwrites : Writes (ofPart d flags x) (· + vector) d u) (h : Shifted flags parts u u') :
    Shifted flags (x :: parts) d u' := by
  constructor
  case shape => exact hwrites.shape.trans h.shape
  case frame => rw [h.frame, hwrites.frame]
  case shifted =>
    intro y hy
    rcases List.mem_cons.mp hy with rfl | hy
    · exact ⟨vector, fun r hr => point_first hparts hwrites h hr⟩
    · obtain ⟨w, hw⟩ := h.shifted y hy
      refine ⟨w, ?_⟩
      intro r hr
      rw [hw r (hwrites.shape.ofPart_eq flags y ▸ hr), point_other hparts hwrites hy hr]
  case kept =>
    intro r hr
    rw [List.forall_mem_cons] at hr
    rw [h.kept r, hwrites.kept r hr.1]
    intro y hy
    rw [hwrites.shape.home_eq, hwrites.shape.ofPart_eq]
    exact hr.2 y hy

/-- Components that can be read can be translated, each by a vector of its own. -/
theorem exists_shifted (v : List Handle × List Nat → Point ℝ) (hparts : Apart d flags parts)
    (hread : ∀ x ∈ parts, ∀ r ∈ ofPart d flags x, ∃ p, r.point d = .ok p) :
    ∃ d', Shifted flags parts d d' ∧
      ∀ x ∈ parts, ∀ r ∈ ofPart d flags x, r.point d' = (r.point d).map (· + v x) := by
  induction parts generalizing d with
  | nil => exact ⟨d, Shifted.refl flags [] d, fun _ hx => absurd hx List.not_mem_nil⟩
  | cons x rest ih =>
      have hfirst : ∀ y ∈ (ofPart d flags x).map (fun r => (r, read d r)),
          y.1.point d = .ok y.2 := by
        rw [List.forall_mem_map]
        exact fun r hr => point_eq_read (hread x List.mem_cons_self r hr)
      obtain ⟨u, _, hwrites⟩ := each_writes (· + v x) hfirst
      have hhomes : ((ofPart d flags x).map fun r => (r, read d r)).map (fun y => home d y.1) =
          ofPart d flags x := by
        rw [List.map_map]
        exact map_home_ofPart d flags x
      rw [hhomes] at hwrites
      have hrest : ∀ y ∈ rest, ∀ r ∈ ofPart u flags y, ∃ p, r.point u = .ok p := by
        intro y hy r hr
        rw [hwrites.shape.ofPart_eq] at hr
        rw [point_other hparts hwrites hy hr]
        exact hread y (List.mem_cons_of_mem x hy) r hr
      obtain ⟨d', hshifted, hmoved⟩ := ih (hparts.tail.of_sameShape hwrites.shape) hrest
      refine ⟨d', shifted_cons hparts hwrites hshifted, ?_⟩
      rw [List.forall_mem_cons]
      constructor
      · exact fun r hr => point_first hparts hwrites hshifted hr
      · intro y hy r hr
        rw [hmoved y hy r (hwrites.shape.ofPart_eq flags y ▸ hr), point_other hparts hwrites hy hr]

/-- Choosing a pose leaves a component as it was when it cannot be read, and else centred. -/
theorem orient_leaves (d : Drawing ℝ) (flags : Flags) (x : List Handle × List Nat) (border : Int)
    (envelope : Envelope ℝ) :
    (∃ e, orient (ofPart d flags x) border envelope d = (.error e, d)) ∨
      ∃ (vector : Point ℝ) (r : Except Fault (Pose ℝ Int)) (u : Drawing ℝ),
        orient (ofPart d flags x) border envelope d = (r, u) ∧
          Writes (ofPart d flags x) (· + vector) d u := by
  cases hps : (ofPart d flags x).mapM (Record.point d) with
  | error e => exact Or.inl ⟨e, orient_of_unread hps⟩
  | ok ps =>
      by_cases hne : ps = []
      · exact Or.inl ⟨.noPoints, orient_of_empty (hne ▸ hps)⟩
      · obtain ⟨u, hwrites, horient⟩ := orient_writes border envelope hps hne
        rw [map_home_ofPart] at hwrites
        have hmotion : (· - centroid ps) =
            (· + (⟨-(centroid ps).x, -(centroid ps).y⟩ : Point ℝ)) := by
          funext p
          apply Point.ext_iff.mpr
          exact ⟨sub_eq_add_neg _ _, sub_eq_add_neg _ _⟩
        exact Or.inr ⟨_, _, u, horient, hmotion ▸ hwrites⟩

/-- However far posing components comes, it leaves each of them translated: to its mean, or not at
all. -/
theorem shifted_of_poseAll (hparts : Apart d s.flags parts) :
    Shifted s.flags parts d (s.poseAll parts d).2 := by
  induction parts generalizing d with
  | nil => exact Shifted.refl s.flags [] d
  | cons x rest ih =>
      have hcomponent := poseComponent_eq (s := s) (hparts.part x List.mem_cons_self)
      rcases orient_leaves d s.flags x s.border s.envelope with
        ⟨e, horient⟩ | ⟨vector, r, u, horient, hwrites⟩
      · rw [Act.bind_of_error horient] at hcomponent
        rw [poseAll, Act.bind_of_error hcomponent]
        exact Shifted.refl s.flags (x :: rest) d
      · cases r with
        | error e =>
            rw [Act.bind_of_error horient] at hcomponent
            rw [poseAll, Act.bind_of_error hcomponent]
            exact shifted_cons hparts hwrites (Shifted.refl s.flags rest u)
        | ok g =>
            have hrest := ih (hparts.tail.of_sameShape hwrites.shape)
            rw [Act.bind_of_ok horient, Act.pure_apply] at hcomponent
            rw [poseAll, Act.bind_of_ok hcomponent]
            apply shifted_cons hparts hwrites
            rcases hothers : s.poseAll rest u with ⟨e | others, u'⟩
            · rw [hothers] at hrest
              rw [Act.bind_of_error hothers]
              exact hrest
            · rw [hothers] at hrest
              rw [Act.bind_of_ok hothers]
              exact hrest

/-- A failed attempt to pack components leaves them translated. -/
theorem shifted_of_packComponents {g : Grouping} (hparts : Apart d s.flags (g.nodes.zip g.links))
    {e : Fault} (h : s.packComponents g d = (.error e, u)) :
    Shifted s.flags (g.nodes.zip g.links) d u := by
  have hshifted := shifted_of_poseAll hparts
  rcases hposes : s.poseAll (g.nodes.zip g.links) d with ⟨e' | os, t⟩
  · rw [packComponents, Act.bind_of_error hposes] at h
    rw [hposes] at hshifted
    exact (Prod.mk.inj h).2 ▸ hshifted
  · rw [hposes] at hshifted
    cases hpack : s.pack ((os.map Prod.snd).map Pose.boxOf) with
    | error e' =>
        rw [packComponents, Act.bind_of_ok hposes, boxesOf_eq,
          Act.bind_of_ok (Act.attempt_apply _ _), hpack,
          Act.bind_of_error (Act.attempt_apply _ _)] at h
        exact (Prod.mk.inj h).2 ▸ hshifted
    | ok offsets =>
        obtain ⟨xs, d', hdone, _⟩ := exists_packed hparts hposes hpack
        cases (Prod.mk.inj (hdone.symm.trans h)).1

end Mosaic

/-- One drawing comes from another by a translation of each component. -/
structure Translated (flags : Flags) (d d' : Drawing ℝ) : Prop where
  frame : d'.frame = d.frame
  components : ∀ g, Mosaic.groupingOf d.numberNodes = .ok g →
    Shifted flags (g.nodes.zip g.links) d d'

namespace Mosaic

variable {s : Mosaic ℝ} {b b₂ : Board ℝ} {d d' : Drawing ℝ} {g : Grouping}

/-- A readable drawing has a translation for every choice of one vector for each component. -/
theorem exists_translated {flags : Flags} (hread : d.numberNodes.Readable flags)
    (hg : groupingOf d.numberNodes = .ok g) (v : List Handle × List Nat → Point ℝ) :
    ∃ d', Translated flags d d' ∧
      ∀ x ∈ g.nodes.zip g.links, ∀ r ∈ ofPart d flags x,
        r.point d' = (r.point d).map (· + v x) := by
  have hnumber := d.sameShape_numberNodes
  have hparts := apart_of_shares (shares_of_groupingOf hg).2 flags
  have hpoint : ∀ x ∈ g.nodes.zip g.links, ∀ r ∈ ofPart d flags x, ∃ p, r.point d = .ok p := by
    intro x hx r hr
    rw [← hnumber.ofPart_eq] at hr
    rw [← Drawing.point_numberNodes]
    exact hread.point (hparts.part x hx) r hr
  obtain ⟨d', hshifted, hmoved⟩ := exists_shifted v (hparts.of_sameShape hnumber.symm) hpoint
  refine ⟨d', ⟨hshifted.frame, ?_⟩, hmoved⟩
  intro g' hg'
  obtain rfl := Except.ok.inj (hg.symm.trans hg')
  exact hshifted

theorem settle_numberNodes (s : Mosaic ℝ) (b : Board ℝ) :
    s.settle none { b with drawing := b.drawing.numberNodes } = s.settle none b := by
  have hnumber : Board.onDrawing (Act.change Drawing.numberNodes)
      { b with drawing := b.drawing.numberNodes } =
        Board.onDrawing (Act.change Drawing.numberNodes) b :=
    congrArg (fun d => (Except.ok (), { b with drawing := d })) (Drawing.numberNodes_idem b.drawing)
  rw [settle, Act.bind_apply, Act.bind_apply, hnumber]

/-- Settling does not see where components were, nor what was known before. -/
theorem settle_alike (h : Translated s.flags b.drawing b₂.drawing) :
    Act.Alike (fun t t' => t' = { t with journal := b₂.journal }) (s.settle none b)
      (s.settle none b₂) := by
  have hgraph : b₂.drawing.numberNodes.graph = b.drawing.numberNodes.graph := by
    apply Drawing.graph_of_frame
    rw [Drawing.frame_numberNodes, Drawing.frame_numberNodes, h.frame]
  have hsame := Drawing.groupingOf_of_graph hgraph
  cases hg : groupingOf b.drawing.numberNodes with
  | error e =>
      rw [settle_of_unchecked none hg, settle_of_unchecked none (hsame.trans hg)]
      exact Act.Alike.failed e _ _
  | ok g =>
      have hparts := apart_of_shares (shares_of_groupingOf hg).2 s.flags
      have hpack := packComponents_shifted hparts (h.components g hg).numberNodes
      rcases hr : s.packComponents g b.drawing.numberNodes with ⟨r, t⟩
      rcases hr' : s.packComponents g b₂.drawing.numberNodes with ⟨r', t'⟩
      rw [settle_of_checked none hg hr, settle_of_checked none (hsame.trans hg) hr']
      rw [hr, hr'] at hpack
      cases hpack with
      | failed e => exact Act.Alike.failed e _ _
      | answered answer heq =>
          obtain rfl := heq
          exact Act.Alike.answered answer.1 rfl

/-- What is left behind by an attempt to settle that failed. -/
theorem translated_of_settle {e : Fault} (h : s.settle none b = (.error e, b₂)) :
    Translated s.flags b.drawing.numberNodes b₂.drawing ∧ b₂.journal = b.journal := by
  cases hg : groupingOf b.drawing.numberNodes with
  | error e' =>
      obtain rfl := (Prod.mk.inj ((settle_of_unchecked (s := s) none hg).symm.trans h)).2
      exact ⟨⟨rfl, fun g _ => Shifted.refl s.flags _ _⟩, rfl⟩
  | ok g =>
      have hparts := apart_of_shares (shares_of_groupingOf hg).2 s.flags
      rcases hr : s.packComponents g b.drawing.numberNodes with ⟨r, t⟩
      obtain ⟨houtcome, rfl⟩ := Prod.mk.inj ((settle_of_checked none hg hr).symm.trans h)
      cases r with
      | ok answer => cases houtcome
      | error e' =>
          have hshifted := shifted_of_packComponents hparts hr
          refine ⟨⟨hshifted.frame, ?_⟩, rfl⟩
          intro g' hg'
          rw [Drawing.numberNodes_idem, hg] at hg'
          obtain rfl := Except.ok.inj hg'
          exact hshifted

/-- Packing does not see where components are: after any translation of each of them it ends in the
same drawing, with the same poses and offsets. So it also does not see that an attempt with another
packer failed before. -/
theorem settle_translated (s : Mosaic ℝ) (b : Board ℝ) :
    (∀ b₂, Translated s.flags b.drawing b₂.drawing →
      (s.settle none b₂).1 = (s.settle none b).1 ∧
        ∀ poses b', s.settle none b = (.ok poses, b') →
          s.settle none b₂ = (.ok poses, { b' with journal := b₂.journal })) ∧
    ∀ packer e b₁, { s with packer }.settle none b = (.error e, b₁) →
      (s.settle none b₁).1 = (s.settle none b).1 ∧
        ∀ poses b', s.settle none b = (.ok poses, b') → s.settle none b₁ = (.ok poses, b') := by
  constructor
  · intro b₂ h
    have halike := settle_alike h
    refine ⟨halike.fst_eq, ?_⟩
    intro poses b' hok
    rw [hok] at halike
    obtain ⟨t', ht', rfl⟩ := halike.of_ok
    exact ht'
  · intro packer e b₁ hfailed
    obtain ⟨htranslated, hjournal⟩ := translated_of_settle hfailed
    have halike := settle_alike (s := s) (b := { b with drawing := b.drawing.numberNodes })
      htranslated
    rw [settle_numberNodes] at halike
    refine ⟨halike.fst_eq, ?_⟩
    intro poses b' hok
    rw [hok] at halike
    obtain ⟨t', ht', rfl⟩ := halike.of_ok
    obtain ⟨_, _, _, _, _, rfl⟩ := settle_eq_ok_iff.mp hok
    rw [ht', hjournal]

/-- A packer that forgets the boxes. -/
noncomputable def forgetful : Mosaic ℝ := { piled with packer := fun _ _ => .ok [] }

theorem forgetful_fails : ∃ e b', forgetful.settle none { drawing := bentLinkAndNode } =
    (.error e, b') := by
  rcases h : forgetful.settle none { drawing := bentLinkAndNode } with ⟨e | poses, b'⟩
  · exact ⟨e, b', rfl⟩
  · obtain ⟨g, xs, hg, _, hpacked⟩ :=
      @packed_of_settle forgetful _ _ none poses (fun _ hg => (shares_of_groupingOf hg).2) h
    obtain rfl := Except.ok.inj (groupingOf_bentLinkAndNode.symm.trans hg)
    have hempty : [] = xs.map Placed.offset := Except.ok.inj hpacked.packed
    have hrecords := hpacked.records
    rw [List.map_eq_nil_iff.mp hempty.symm] at hrecords
    cases hrecords

theorem settle_translated_bentLinkAndNode :
    ∃ d' poses b' e b₁, Translated .plain bentLinkAndNode d' ∧
      (node 2).point d' = .ok ⟨(10 : Int), (5 : Int)⟩ ∧
      (bend 0 (0 : Nat)).point d' = .ok ⟨(2 : Int), (7 : Int)⟩ ∧
      piled.settle none { drawing := bentLinkAndNode } = (.ok poses, b') ∧
      piled.settle none { drawing := d' } = (.ok poses, b') ∧
      forgetful.settle none { drawing := bentLinkAndNode } = (.error e, b₁) ∧
      piled.settle none b₁ = (.ok poses, b') := by
  -- the link moves by one and two, the node apart by three and minus two
  let v : List Handle × List Nat → Point ℝ := fun x => if x.2 = [0] then ⟨1, 2⟩ else ⟨3, -2⟩
  obtain ⟨d', htranslated, hmoved⟩ :=
    exists_translated typed_bentLinkAndNode.readable groupingOf_bentLinkAndNode v
  obtain ⟨poses, b', hok⟩ := exists_settle_bentLinkAndNode
  obtain ⟨e, b₁, hfailed⟩ := forgetful_fails
  obtain ⟨hmoves, hretry⟩ := settle_translated piled { drawing := bentLinkAndNode }
  have hagain := (hmoves { drawing := d' } htranslated).2 poses b' hok
  obtain ⟨_, _, _, _, _, rfl⟩ := settle_eq_ok_iff.mp hok
  refine ⟨d', poses, _, e, b₁, htranslated, ?_, ?_, hok, hagain, hfailed,
    (hretry _ e b₁ hfailed).2 poses _ hok⟩
  · have hnode : (node 2).point bentLinkAndNode = .ok ⟨(7 : Int), (7 : Int)⟩ := rfl
    have hmember : node 2 ∈ ofPart bentLinkAndNode .plain ([⟨2, false⟩], []) := by decide
    rw [hmoved ([⟨2, false⟩], []) (by decide) _ hmember, hnode]
    apply congrArg Except.ok
    apply Point.ext_iff.mpr
    simp [v]
    norm_num
  · have hbend : (bend 0 (0 : Nat)).point bentLinkAndNode = .ok ⟨(1 : Int), (5 : Int)⟩ := rfl
    have hmember : bend 0 (0 : Nat) ∈ ofPart bentLinkAndNode .plain
        ([⟨0, false⟩, ⟨1, false⟩], [0]) := by decide
    rw [hmoved ([⟨0, false⟩, ⟨1, false⟩], [0]) (by decide) _ hmember, hbend]
    apply congrArg Except.ok
    apply Point.ext_iff.mpr
    simp [v]
    norm_num

end Mosaic

end PackedDrawing
