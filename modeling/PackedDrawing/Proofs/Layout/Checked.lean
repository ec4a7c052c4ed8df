import PackedDrawing.Layout.Method
import PackedDrawing.Proofs.Component.Readings
import PackedDrawing.Proofs.Layout.Separated

/-!
# Links are checked before a run changes anything

A run by components checks all links first. When one of them has an end outside the graph, the run
is rejected and nothing has been moved. When all ends lie in the graph, the links are accepted,
counted and grouped, and the components are copied; whatever else makes the run fail is not about
links. A ring does not check links, but it follows them all the same when they lie in the graph.

## Main definitions

* `Drawing.Followed`: a drawing whose links are accepted, counted, grouped and copied.
* `Ring.Blamed`, `Mosaic.Blamed`, `Layout.Blamed`: where else a run of a drawing failed, and what it
  had done by then.

## Main statements

* `Drawing.followed_of_validate`: valid drawings are followed.

* `Mosaic.run_of_rejected`: a run that is rejected.
* `Ring.blamed_of_run`, `Mosaic.blamed_of_run`: runs in which all links are attached.
* `Layout.run_checked`: both together.
-/

namespace PackedDrawing

open Record Search

section Board

variable {α : Type} [Scalar α]

/-- A run fails when its work does, as announcing does not fail. -/
theorem Board.failed_of_run {l : Listeners α} {work : Act (Board α) Unit} {b b' : Board α}
    {e : Fault} (h : Board.run l work b = (.error e, b')) :
    work (Mosaic.begun l b) = (.error e, b') := by
  rcases Act.bind_eq_error.mp h with h | ⟨_, b₁, hnumber, h⟩
  · cases (Prod.mk.inj h).1
  rcases Act.bind_eq_error.mp h with h | ⟨_, b₂, hstart, h⟩
  · cases (Prod.mk.inj h).1
  obtain rfl := (Prod.mk.inj hnumber).2
  obtain rfl := (Prod.mk.inj hstart).2
  rcases Act.bind_eq_error.mp h with h | ⟨_, b₃, _, h⟩
  · exact h
  · cases (Prod.mk.inj h).1

end Board

namespace Ring

variable {α : Type} [Scalar α] {r : Ring α} {d d' : Drawing α} {e : Fault}

/-- Faults of a ring that are not about links: there is no scalar for the number of nodes, the nodes
have no order by their keys, or there is no place on the circle for one of them. -/
inductive Blamed (r : Ring α) (d : Drawing α) : Fault → Prop
  | count {e : Fault} (failed : (Scalar.ofInt d.nodes.length : Except Fault α) = .error e) :
      Blamed r d e
  | key {f : Node α → Except Fault (Value α)} {e : Fault} (order : r.order = .key f)
      (failed : byKey f d = .error e) : Blamed r d e
  | slot {n : α} {order : List Nat} {k : Nat} {e : Fault}
      (counted : Scalar.ofInt d.nodes.length = .ok n) (sorted : sorted r.order d = .ok order)
      (inside : k < order.length) (failed : r.slot (r.radiusFor n) (fullTurn / n) k = .error e) :
      Blamed r d e

omit [Scalar α] in
/-- A mention of a position in the graph is counted at that position. -/
theorem counted_of_located {m : Mention α} {i : Int} {n : Nat} (h : m.located.position = .ok i)
    (hin : InGraph n i) : m.counted = .ok m.located := by
  cases m with
  | whole h => rfl
  | index v => rfl
  | unset | bare =>
      obtain rfl := Except.ok.inj h
      exact absurd hin.1 (by decide)
  | foreign => cases h

/-- The links of a valid drawing are counted at its nodes. -/
theorem exists_linkEnds (hends : d.Definite) (hvalid : d.validate = .ok ()) :
    ∃ ends, linkEnds d = .ok ends ∧ ∀ k ∈ ends, k < d.nodes.length := by
  rw [Drawing.validate_eq] at hvalid
  have hlocated := Check.located_of_links (List.forall_mem_map.mpr hends) hvalid
  rw [List.forall_mem_map] at hlocated
  have hcounted : ∀ x ∈ d.links.flatMap fun l => [l.source, l.target],
      ∃ k, counted d x = .ok k ∧ k < d.nodes.length := by
    intro x hx
    obtain ⟨l, hl, hx⟩ := List.mem_flatMap.mp hx
    obtain ⟨i, hposition, hin⟩ : ∃ i, (x.mention d.nodes).located.position = .ok i ∧
        InGraph d.nodes.length i := by
      simp only [List.mem_cons, List.not_mem_nil, or_false] at hx
      rcases hx with rfl | rfl
      · obtain ⟨h, v, _, hin, hv, hposition⟩ := hlocated l hl .source
        obtain rfl := Except.ok.inj hv
        exact ⟨_, hposition, hin⟩
      · obtain ⟨h, v, _, hin, hv, hposition⟩ := hlocated l hl .target
        obtain rfl := Except.ok.inj hv
        exact ⟨_, hposition, hin⟩
    refine ⟨i.toNat, ?_, ?_⟩
    · rw [counted, counted_of_located hposition hin, ok_bind, hposition, ok_bind,
        Handle.place?_of_inGraph hin]
      rfl
    · obtain ⟨hlow, hhigh⟩ := hin
      omega
  obtain ⟨ends, hlinkEnds⟩ := exists_mapM_eq_ok fun x hx => by
    obtain ⟨k, hk, _⟩ := hcounted x hx
    exact ⟨k, hk⟩
  refine ⟨ends, hlinkEnds, ?_⟩
  intro k hk
  obtain ⟨x, hx, hxk⟩ := (mem_iff_of_mapM hlinkEnds).mp hk
  obtain ⟨k', hk', hlt⟩ := hcounted x hx
  exact Except.ok.inj (hk'.symm.trans hxk) ▸ hlt

/-- The nodes of a valid drawing can be ordered, unless a key fails. -/
theorem blamed_of_sorted (hends : d.Definite) (hvalid : d.validate = .ok ())
    (h : sorted r.order d = .error e) : r.Blamed d e := by
  obtain ⟨ends, hlinkEnds, _⟩ := exists_linkEnds hends hvalid
  cases horder : r.order with
  | key f =>
      rw [horder] at h
      exact Blamed.key horder h
  | given v =>
      rw [horder, sorted.eq_def] at h
      split at h
      · rw [byDegree, hlinkEnds] at h
        cases h
      · cases h
      · contradiction

theorem exists_slot_of_placeFrom {radius step : α} {k : Nat} {is : List Nat}
    (h : r.placeFrom radius step k is d = (.error e, d')) :
    ∃ k' < k + is.length, r.slot radius step k' = .error e := by
  induction is generalizing k d with
  | nil => cases (Prod.mk.inj h).1
  | cons i rest ih =>
      rcases Act.bind_eq_error.mp h with hslot | ⟨p, u, _, h⟩
      · exact ⟨k, Nat.lt_add_of_pos_right (Nat.succ_pos _), (Prod.mk.inj hslot).1⟩
      · rcases Act.bind_eq_error.mp h with hmove | ⟨_, u', _, hrest⟩
        · cases (Prod.mk.inj hmove).1
        · obtain ⟨k', hk', hslot⟩ := ih hrest
          rw [Nat.add_right_comm] at hk'
          exact ⟨k', hk', hslot⟩

/-- What makes a ring of a valid drawing fail is not about links. -/
theorem blamed_of_place (hends : d.Definite) (hvalid : d.validate = .ok ())
    (h : r.place d = (.error e, d')) : r.Blamed d e := by
  rw [place, Act.bind_of_ok (Act.state_apply d)] at h
  match hlength : d.nodes.length with
  | 0 =>
      rw [hlength] at h
      cases (Prod.mk.inj h).1
  | 1 =>
      rw [hlength] at h
      cases (Prod.mk.inj h).1
  | n + 2 =>
      rw [hlength] at h
      rcases Act.bind_eq_error.mp h with hcount | ⟨count, u, hn, h⟩
      · apply Blamed.count
        rw [hlength]
        exact (Prod.mk.inj hcount).1
      obtain ⟨hcounted, rfl⟩ := Act.attempt_eq_ok.mp hn
      rw [← hlength] at hcounted
      rcases Act.bind_eq_error.mp h with hsorted | ⟨order, u, hsorted, h⟩
      · exact blamed_of_sorted hends hvalid (Prod.mk.inj hsorted).1
      · obtain ⟨k, hk, hslot⟩ := exists_slot_of_placeFrom h
        rw [Nat.zero_add] at hk
        exact Blamed.slot hcounted (Act.attempt_eq_ok.mp hsorted).1 hk hslot

theorem blamed_of_run {l : Listeners α} {b b' : Board α} (hends : b.drawing.numberNodes.Definite)
    (hvalid : b.drawing.numberNodes.validate = .ok ()) (h : r.run l b = (.error e, b')) :
    r.Blamed b.drawing.numberNodes e := by
  obtain ⟨d', hplace, _⟩ := Act.within_eq_error.mp (Board.failed_of_run h)
  exact blamed_of_place hends hvalid hplace

end Ring

section Followed

variable {α : Type} [Scalar α] {d : Drawing α}

/-- The links of a drawing are followed: they are accepted, each of their ends is counted at a node,
the drawing is grouped, and all of its components are copied. -/
structure Drawing.Followed (d : Drawing α) : Prop where
  valid : d.validate = .ok ()
  counted : ∃ ends, Ring.linkEnds d = .ok ends ∧ ∀ k ∈ ends, k < d.nodes.length
  grouped : ∃ g, Mosaic.groupingOf d = .ok g ∧ ∀ part ∈ g.nodes.zip g.links, ∀ flags, ∃ c,
    Copy.of d (Mosaic.nodeValues part.1) (Mosaic.linkValues part.2) flags = .ok c

theorem Drawing.followed_of_validate (hends : d.Definite) (hvalid : d.validate = .ok ()) :
    d.Followed := by
  have hwhole := wholeEnds_of_validate hends hvalid
  obtain ⟨g, hg⟩ := Mosaic.exists_groupingOf hvalid hwhole
  obtain ⟨_, hshares⟩ := Mosaic.shares_of_groupingOf hg
  refine ⟨hvalid, Ring.exists_linkEnds hends hvalid, g, hg, ?_⟩
  intro part hpart flags
  obtain ⟨c, hc, _⟩ := Copy.exists_of (Copy.closed_of_shares hvalid hwhole hshares hpart) flags
  exact ⟨c, hc⟩

end Followed

namespace Mosaic

section Blamed

variable {α : Type} [Scalar α] {s : Mosaic α} {l : Listeners α} {arrange : Arrangement α}
  {d d' : Drawing α} {b b' : Board α} {e : Fault} {parts : List (List Handle × List Nat)}

/-- Faults of packing the components of a drawing that are not about links. When those before it had
been posed, a component was not posed; the poses have no boxes; the boxes got no offsets; or, when
those before it had been placed, a component was not placed. -/
inductive PackingBlamed (s : Mosaic α) (g : Grouping) (d : Drawing α) : Fault → Prop
  | pose {before after : List (List Handle × List Nat)} {part : List Handle × List Nat}
      {oriented : List (List Record × Pose α Int)} {u u' : Drawing α} {e : Fault}
      (parts : g.nodes.zip g.links = before ++ part :: after)
      (posed : s.poseAll before d = (.ok oriented, u)) (there : HasPart u part)
      (failed : orient (ofPart u s.flags part) s.border s.envelope u = (.error e, u')) :
      PackingBlamed s g d e
  | boxes {oriented : List (List Record × Pose α Int)} {u : Drawing α} {e : Fault}
      (posed : s.poseAll (g.nodes.zip g.links) d = (.ok oriented, u))
      (failed : boxesOf (oriented.map Prod.snd) = .error e) : PackingBlamed s g d e
  | pack {oriented : List (List Record × Pose α Int)} {u : Drawing α} {sizes : List Box}
      {e : Fault} (posed : s.poseAll (g.nodes.zip g.links) d = (.ok oriented, u))
      (boxed : boxesOf (oriented.map Prod.snd) = .ok sizes) (failed : s.pack sizes = .error e) :
      PackingBlamed s g d e
  | place {oriented : List (List Record × Pose α Int)} {sizes : List Box} {offsets : List Offset}
      {before after : List ((List Record × Pose α Int) × Offset)}
      {x : (List Record × Pose α Int) × Offset} {part : List Handle × List Nat}
      {u v v' : Drawing α} {e : Fault}
      (posed : s.poseAll (g.nodes.zip g.links) d = (.ok oriented, u))
      (boxed : boxesOf (oriented.map Prod.snd) = .ok sizes) (packed : s.pack sizes = .ok offsets)
      (placing : oriented.zip offsets = before ++ x :: after)
      (placed : Act.each (fun p => PackedDrawing.settle p.1.1 p.1.2 p.2) before u = (.ok (), v))
      (mem : part ∈ g.nodes.zip g.links) (there : HasPart v part)
      (records : x.1.1 = ofPart v s.flags part)
      (failed : PackedDrawing.settle x.1.1 x.1.2 x.2 v = (.error e, v')) : PackingBlamed s g d e

/-- It is the turn of a component to be laid out: those before it have been, from the board on which
the run began. -/
structure Reached (s : Mosaic α) (l : Listeners α) (arrange : Arrangement α) (g : Grouping)
    (b : Board α) (before : List (List Handle × List Nat)) (part : List Handle × List Nat)
    (b₁ : Board α) : Prop where
  split : ∃ after, g.nodes.zip g.links = before ++ part :: after
  laid : s.layOutFrom l arrange g.count 0 before b = (.ok (), b₁)

/-- Faults of a run by components that are not about links, from the board on which it began. When
it was the turn of a component, its copy was not laid out, or what was laid out was not brought
home, or there is no scalar for what is left to do; or, when all had been laid out, they were not
packed. -/
inductive Blamed (s : Mosaic α) (l : Listeners α) (arrange : Arrangement α) (g : Grouping)
    (b : Board α) : Fault → Prop
  | arrangement {before : List (List Handle × List Nat)} {part : List Handle × List Nat}
      {b₁ : Board α} {c : Copy α} {j : Journal α} {e : Fault}
      (turn : s.Reached l arrange g b before part b₁)
      (copied : Copy.of b₁.drawing (nodeValues part.1) (linkValues part.2) s.flags = .ok c)
      (failed : arrange c.drawing b₁.journal = (.error e, j)) : Blamed s l arrange g b e
  | home {before : List (List Handle × List Nat)} {part : List Handle × List Nat}
      {b₁ : Board α} {c : Copy α} {d d' : Drawing α} {j : Journal α} {e : Fault}
      (turn : s.Reached l arrange g b before part b₁)
      (copied : Copy.of b₁.drawing (nodeValues part.1) (linkValues part.2) s.flags = .ok c)
      (arranged : arrange c.drawing b₁.journal = (.ok d, j))
      (failed : c.bringHome d.nodes d.links b₁.drawing = (.error e, d')) : Blamed s l arrange g b e
  | remaining {before : List (List Handle × List Nat)} {part : List Handle × List Nat}
      {b₁ b₂ : Board α} {e : Fault} (turn : s.Reached l arrange g b before part b₁)
      (done : s.layOutComponent arrange part.1 part.2 b₁ = (.ok (), b₂))
      (failed : (remaining (before.length + 1) g.count : Except Fault α) = .error e) :
      Blamed s l arrange g b e
  | packing {b₁ : Board α} {e : Fault}
      (laid : s.layOutFrom l arrange g.count 0 (g.nodes.zip g.links) b = (.ok (), b₁))
      (failed : s.PackingBlamed g b₁.drawing e) : Blamed s l arrange g b e

/-- Laying out components fails at one of them, when those before it have been laid out. -/
theorem exists_of_layOutFrom_eq_error {count i : Nat}
    (h : s.layOutFrom l arrange count i parts b = (.error e, b')) :
    ∃ before part after b₁, parts = before ++ part :: after ∧
      s.layOutFrom l arrange count i before b = (.ok (), b₁) ∧
      ((∃ b₂, s.layOutComponent arrange part.1 part.2 b₁ = (.error e, b₂)) ∨
        ∃ b₂, s.layOutComponent arrange part.1 part.2 b₁ = (.ok (), b₂) ∧
          (remaining (i + before.length + 1) count : Except Fault α) = .error e) := by
  induction parts generalizing i b with
  | nil => cases (Prod.mk.inj h).1
  | cons x rest ih =>
      rcases Act.bind_eq_error.mp h with h | ⟨_, b₁, hfirst, h⟩
      · exact ⟨[], x, rest, b, rfl, rfl, Or.inl ⟨b', h⟩⟩
      rcases Act.bind_eq_error.mp h with h | ⟨alpha, b₂, hremaining, h⟩
      · exact ⟨[], x, rest, b, rfl, rfl, Or.inr ⟨b₁, hfirst, (Prod.mk.inj h).1⟩⟩
      rcases Act.bind_eq_error.mp h with h | ⟨_, b₃, hannounce, h⟩
      · cases (Prod.mk.inj h).1
      obtain ⟨before, part, after, b₄, rfl, hlaid, hend⟩ := ih h
      refine ⟨x :: before, part, after, b₄, rfl, ?_, ?_⟩
      · exact Act.bind_eq_ok.mpr ⟨(), b₁, hfirst, Act.bind_eq_ok.mpr ⟨alpha, b₂, hremaining,
          Act.bind_eq_ok.mpr ⟨(), b₃, hannounce, hlaid⟩⟩⟩
      · rwa [List.length_cons, Nat.add_comm before.length, ← Nat.add_assoc]

/-- Laying out components leaves the graph as it is, so each of them can be copied when it is its
turn. -/
theorem blamed_of_layOutFrom {g : Grouping}
    (hparts : ∀ x ∈ g.nodes.zip g.links, Copy.Closed b.drawing x)
    (h : s.layOutFrom l arrange g.count 0 (g.nodes.zip g.links) b = (.error e, b')) :
    s.Blamed l arrange g b e := by
  obtain ⟨before, part, after, b₁, hsplit, hlaid, hend⟩ := exists_of_layOutFrom_eq_error h
  have hturn : s.Reached l arrange g b before part b₁ := ⟨⟨after, hsplit⟩, hlaid⟩
  have hclosed : Copy.Closed b₁.drawing part :=
    (hparts part (hsplit ▸ List.mem_append_right before List.mem_cons_self)).of_graph
      (graph_layOutFrom hlaid)
  rcases hend with ⟨b₂, hfailed⟩ | ⟨b₂, hdone, hfailed⟩
  · obtain ⟨c, hc, _⟩ := Copy.exists_of hclosed s.flags
    have hdrawn : Board.drawn b₁ = (.ok b₁.drawing, b₁) := rfl
    rw [layOutComponent, Act.bind_of_ok hdrawn, hc, Act.bind_of_ok (Act.attempt_apply _ _)]
      at hfailed
    rcases Act.bind_eq_error.mp hfailed with hfailed | ⟨d, b₃, harrange, hfailed⟩
    · obtain ⟨j, hfailed, _⟩ := Act.within_eq_error.mp hfailed
      exact Blamed.arrangement hturn hc hfailed
    · obtain ⟨j, hanswer, rfl⟩ := Act.within_eq_ok.mp harrange
      obtain ⟨d', hfailed, _⟩ := Act.within_eq_error.mp hfailed
      exact Blamed.home hturn hc hanswer hfailed
  · rw [Nat.zero_add] at hfailed
    exact Blamed.remaining hturn hdone hfailed

theorem sameShape_of_poseComponent {x : List Handle × List Nat} (hx : HasPart d x)
    {first : List Record × Pose α Int} (h : s.poseComponent x.1 x.2 d = (.ok first, d')) :
    SameShape d d' ∧ first.1 = ofPart d s.flags x := by
  rw [poseComponent_eq hx] at h
  obtain ⟨g, u, horient, hpair⟩ := Act.bind_eq_ok.mp h
  obtain ⟨rfl, rfl⟩ := Act.pure_eq_ok.mp hpair
  obtain ⟨c, hcentre⟩ := centre_of_orient horient
  obtain ⟨_, _, _, _, hwrites⟩ := writes_of_centre hcentre
  exact ⟨hwrites.shape, rfl⟩

/-- Posing collects the records of components that the drawing has. -/
theorem records_of_poseAll {oriented : List (List Record × Pose α Int)}
    (hparts : ∀ x ∈ parts, HasPart d x) (h : s.poseAll parts d = (.ok oriented, d')) :
    SameShape d d' ∧ oriented.map Prod.fst = parts.map (ofPart d s.flags) := by
  induction parts generalizing d oriented with
  | nil =>
      obtain ⟨rfl, rfl⟩ := Act.pure_eq_ok.mp h
      exact ⟨SameShape.refl d, rfl⟩
  | cons x rest ih =>
      rw [List.forall_mem_cons] at hparts
      obtain ⟨first, u, hfirst, h⟩ := Act.bind_eq_ok.mp h
      obtain ⟨others, u', hothers, h⟩ := Act.bind_eq_ok.mp h
      obtain ⟨rfl, rfl⟩ := Act.pure_eq_ok.mp h
      obtain ⟨hshape, hrecords⟩ := sameShape_of_poseComponent hparts.1 hfirst
      obtain ⟨hrest, hothers⟩ := ih (fun y hy => (hparts.2 y hy).of_sameShape hshape) hothers
      refine ⟨hshape.trans hrest, ?_⟩
      rw [List.map_cons, List.map_cons, hrecords, hothers]
      rw [List.map_congr_left fun y _ => hshape.ofPart_eq s.flags y]

/-- Posing components fails at one of them, when those before it have been posed. -/
theorem exists_of_poseAll_eq_error (h : s.poseAll parts d = (.error e, d')) :
    ∃ before part after oriented u, parts = before ++ part :: after ∧
      s.poseAll before d = (.ok oriented, u) ∧
      s.poseComponent part.1 part.2 u = (.error e, d') := by
  induction parts generalizing d with
  | nil => cases (Prod.mk.inj h).1
  | cons x rest ih =>
      rcases Act.bind_eq_error.mp h with hfirst | ⟨first, u, hfirst, h⟩
      · exact ⟨[], x, rest, [], d, rfl, rfl, hfirst⟩
      rcases Act.bind_eq_error.mp h with hrest | ⟨others, u', _, hpure⟩
      · obtain ⟨before, part, after, oriented, u', rfl, hposed, hfailed⟩ := ih hrest
        exact ⟨x :: before, part, after, first :: oriented, u', rfl, Act.bind_eq_ok.mpr
          ⟨first, u, hfirst, Act.bind_eq_ok.mpr ⟨oriented, u', hposed, rfl⟩⟩, hfailed⟩
      · cases (Prod.mk.inj hpure).1

theorem blamed_of_poseAll {g : Grouping} (hparts : ∀ x ∈ g.nodes.zip g.links, HasPart d x)
    (h : s.poseAll (g.nodes.zip g.links) d = (.error e, d')) : s.PackingBlamed g d e := by
  obtain ⟨before, part, after, oriented, u, hsplit, hposed, hfailed⟩ := exists_of_poseAll_eq_error h
  rw [hsplit, List.forall_mem_append, List.forall_mem_cons] at hparts
  obtain ⟨hshape, _⟩ := records_of_poseAll hparts.1 hposed
  have hthere := hparts.2.1.of_sameShape hshape
  rw [poseComponent_eq hthere] at hfailed
  rcases Act.bind_eq_error.mp hfailed with horient | ⟨p, u', _, hpair⟩
  · exact PackingBlamed.pose hsplit hposed hthere horient
  · cases (Prod.mk.inj hpair).1

/-- Placing a component leaves the shape of the drawing as it is. -/
theorem sameShape_of_settle {records : List Record} {g : Pose α Int} {offset : Offset}
    (h : PackedDrawing.settle records g offset d = (.ok (), d')) : SameShape d d' := by
  have hkept : (d'.nodes.length, d'.links.length, count d') =
      (d.nodes.length, d.links.length, count d) := by
    refine @Act.each_keeps _ _ _ _ _ (fun d => (d.nodes.length, d.links.length, count d)) ?_ _ _ h
    intro r _ u u' hstep
    obtain ⟨u₁, u₂, hstate, hstep⟩ := Act.bind_eq_ok.mp hstep
    obtain ⟨p, u₃, hpoint, hstep⟩ := Act.bind_eq_ok.mp hstep
    obtain ⟨q, u₄, hplace, hstep⟩ := Act.bind_eq_ok.mp hstep
    obtain rfl := (Prod.mk.inj hstate).2
    obtain ⟨_, rfl⟩ := Act.attempt_eq_ok.mp hpoint
    obtain ⟨_, rfl⟩ := Act.attempt_eq_ok.mp hplace
    obtain rfl := (Prod.mk.inj hstep).2
    have hshape := sameShape_move q u r
    rw [hshape.nodes, hshape.links, funext hshape.bends]
  simp only [Prod.mk.injEq] at hkept
  exact ⟨hkept.1, hkept.2.1, congrFun hkept.2.2⟩

theorem sameShape_of_placeAll {placed : List ((List Record × Pose α Int) × Offset)}
    (h : Act.each (fun p => PackedDrawing.settle p.1.1 p.1.2 p.2) placed d = (.ok (), d')) :
    SameShape d d' := by
  induction placed generalizing d with
  | nil =>
      obtain ⟨_, rfl⟩ := Act.pure_eq_ok.mp h
      exact SameShape.refl d
  | cons p rest ih =>
      obtain ⟨_, u, hfirst, hrest⟩ := Act.bind_eq_ok.mp h
      exact (sameShape_of_settle hfirst).trans (ih hrest)

theorem blamed_of_packComponents {g : Grouping} (hparts : ∀ x ∈ g.nodes.zip g.links, HasPart d x)
    (h : s.packComponents g d = (.error e, d')) : s.PackingBlamed g d e := by
  rcases Act.bind_eq_error.mp h with h | ⟨oriented, u, hposed, h⟩
  · exact blamed_of_poseAll hparts h
  rcases Act.bind_eq_error.mp h with h | ⟨sizes, u₁, hboxed, h⟩
  · exact PackingBlamed.boxes hposed (Prod.mk.inj h).1
  obtain ⟨hboxes, rfl⟩ := Act.attempt_eq_ok.mp hboxed
  rcases Act.bind_eq_error.mp h with h | ⟨offsets, u₂, hpacked, h⟩
  · exact PackingBlamed.pack hposed hboxes (Prod.mk.inj h).1
  obtain ⟨hpack, rfl⟩ := Act.attempt_eq_ok.mp hpacked
  rcases Act.bind_eq_error.mp h with h | ⟨_, u₃, _, h⟩
  · obtain ⟨before, x, after, v, hsplit, hplaced, hfailed⟩ := Act.each_eq_error h
    obtain ⟨hshape, hrecords⟩ := records_of_poseAll hparts hposed
    have hmem : x ∈ oriented.zip offsets :=
      hsplit ▸ List.mem_append_right before List.mem_cons_self
    obtain ⟨part, hpart, heq⟩ := exists_of_map_eq hrecords (List.of_mem_zip hmem).1
    have hshape' := hshape.trans (sameShape_of_placeAll hplaced)
    exact PackingBlamed.place hposed hboxes hpack hsplit hplaced hpart
      ((hparts part hpart).of_sameShape hshape') (heq.trans (hshape'.ofPart_eq s.flags part).symm)
      hfailed
  · cases (Prod.mk.inj h).1

/-- Settling with a given grouping fails when packing does. -/
theorem blamed_of_settle {g : Grouping}
    (hparts : ∀ x ∈ g.nodes.zip g.links, HasPart b.drawing.numberNodes x)
    (h : s.settle (some g) b = (.error e, b')) : s.PackingBlamed g b.drawing.numberNodes e := by
  rcases hpack : s.packComponents g b.drawing.numberNodes with ⟨r, d'⟩
  rw [settle_of_checked (some g) rfl hpack] at h
  cases r with
  | error e' =>
      obtain rfl := Except.error.inj (Prod.mk.inj h).1
      exact blamed_of_packComponents hparts hpack
  | ok answer => cases (Prod.mk.inj h).1

/-- What makes a run of a valid drawing fail is not about links. -/
theorem blamed_of_run {g : Grouping} (hg : groupingOf b.drawing.numberNodes = .ok g)
    (hwhole : b.drawing.numberNodes.WholeEnds)
    (h : s.run l (some arrange) b = (.error e, b')) : s.Blamed l arrange g (begun l b) e := by
  obtain ⟨hvalid, hshares⟩ := shares_of_groupingOf hg
  have hparts : ∀ x ∈ g.nodes.zip g.links, Copy.Closed b.drawing.numberNodes x := fun _ hx =>
    Copy.closed_of_shares hvalid hwhole hshares hx
  by_cases hne : b.drawing.nodes = []
  · have hwork := Board.failed_of_run h
    have hdrawn : Board.drawn (begun l b) = (.ok b.drawing.numberNodes, begun l b) := rfl
    have hempty : b.drawing.numberNodes.nodes.isEmpty = true := by
      rw [List.isEmpty_iff_length_eq_zero, Drawing.length_nodes_numberNodes, hne]
      rfl
    rw [work, Act.bind_of_ok hdrawn, if_pos hempty] at hwork
    cases (Prod.mk.inj hwork).1
  rw [run_eq hne, hg, Act.bind_of_ok (Act.attempt_apply _ _)] at h
  rcases Act.bind_eq_error.mp h with h | ⟨_, b₁, hlaid, h⟩
  · exact blamed_of_layOutFrom hparts h
  have hgraph := graph_layOutFrom hlaid
  have hnumbered : b₁.drawing.numberNodes = b₁.drawing := Drawing.numberNodes_of_graph hgraph
  rcases Act.bind_eq_error.mp h with h | ⟨_, b₂, _, h⟩
  · refine Blamed.packing hlaid (hnumbered ▸ blamed_of_settle ?_ h)
    rw [hnumbered]
    exact fun x hx => ((hparts x hx).of_graph hgraph).toHasPart
  · cases (Prod.mk.inj h).1

end Blamed

end Mosaic

/-- In exact arithmetic a run of a valid drawing succeeds when the layouts of its components can be
brought home, and the envelope and the packer answer. -/
theorem Mosaic.exists_run {s : Mosaic ℝ} {arrange : Arrangement ℝ} {b : Board ℝ} (l : Listeners ℝ)
    (hne : b.drawing.nodes ≠ []) (hvalid : b.drawing.numberNodes.validate = .ok ())
    (htyped : b.drawing.numberNodes.Typed s.flags) (harrange : arrange.Returns s.flags)
    (henvelope : ∀ ps, ps ≠ [] → ∃ outline, s.envelope ps = .ok outline)
    (hpacker : ∀ sizes, ∃ offsets, s.packer sizes s.ratio = .ok offsets ∧
      offsets.length = sizes.length) : ∃ b', s.run l (some arrange) b = (.ok (), b') := by
  obtain ⟨g, hg⟩ := exists_groupingOf hvalid htyped.whole
  obtain ⟨_, hshares⟩ := shares_of_groupingOf hg
  obtain ⟨b₁, hlaid, hread⟩ := exists_layOutFrom (b := begun l b) (l := l) harrange g.count 0
    (fun _ hpart => Copy.closed_of_shares hvalid htyped.whole hshares hpart) htyped.readable
  obtain ⟨hnumbered, hshares₁⟩ := shares_of_layOutFrom hg hlaid
  obtain ⟨poses, b₂, hsettle⟩ := @exists_settle s b₁ g (some g) rfl hshares₁
    (hnumbered.symm ▸ hread) henvelope hpacker
  exact ⟨_, (run_eq_ok_iff hne).mpr ⟨g, b₁, poses, b₂, hg, hlaid, hsettle, rfl⟩⟩

section Rejected

variable {α : Type} [Scalar α]

/-- The check can read the ends of all links. -/
def Drawing.Legible (d : Drawing α) : Prop :=
  ∀ l ∈ d.links, ∀ side, ∃ h?, Check.mentioned d.nodes side (.ready l) = .ok h?

theorem Check.exists_linkIssuesFrom {nodes : List (Node α)} {ls : List (LinkEntry α)}
    (h : ∀ l ∈ ls, ∀ side, ∃ h?, mentioned nodes side l = .ok h?) (count : Int) (position : Nat) :
    ∃ issues, linkIssuesFrom nodes count position ls = .ok issues := by
  induction ls generalizing position with
  | nil => exact ⟨[], rfl⟩
  | cons l rest ih =>
      rw [List.forall_mem_cons] at h
      obtain ⟨source, hsource⟩ := h.1 .source
      obtain ⟨target, htarget⟩ := h.1 .target
      obtain ⟨issues, hissues⟩ := ih h.2 (position + 1)
      rw [linkIssuesFrom, issuesOf, hsource, htarget, hissues]
      exact ⟨_, rfl⟩

/-- When a link is not attached, there are complaints. -/
theorem Drawing.exists_issues {d : Drawing α} (hcuts : Scalar.Cuts α) (hends : d.Definite)
    (hlegible : d.Legible) (h : ¬ d.Attached) :
    ∃ issues, issues ≠ [] ∧ d.validate = .error (.invalidLinks issues) := by
  obtain ⟨issues, hissues⟩ := Check.exists_linkIssuesFrom (List.forall_mem_map.mpr hlegible)
    d.nodes.length 0
  have hne : issues ≠ [] := by
    rintro rfl
    apply h
    rw [← validate_eq_ok_iff hcuts hends, validate_eq]
    exact Check.links_eq_ok_iff_issues.mpr hissues
  refine ⟨issues, hne, ?_⟩
  rw [validate_eq, Check.links, Check.linkIssues, hissues, ok_bind, if_neg (by simpa using hne)]
  rfl

/-- A run that is rejected has changed nothing but the indices that were missing. -/
theorem Mosaic.run_of_rejected {s : Mosaic α} {l : Listeners α} {arrange : Arrangement α}
    {b : Board α} {e : Fault} (hne : b.drawing.nodes ≠ [])
    (h : b.drawing.numberNodes.validate = .error e) :
    s.run l (some arrange) b = (.error e, begun l b) := by
  have hgrouping : groupingOf b.drawing.numberNodes = .error e := by
    rw [groupingOf, h]
    rfl
  rw [run_eq hne, hgrouping, Act.bind_of_error (Act.attempt_apply _ _)]

end Rejected

namespace Layout

variable {α : Type} [Scalar α]

/-- Faults of a run that are not about links. -/
def Blamed (l : Layout α) (e : Fault) : Prop :=
  match l.method with
  | .ring r => r.Blamed l.drawing.numberNodes e
  | .mosaic s secondary => ∃ arrange g, secondary.arrangement = some arrange ∧
      Mosaic.groupingOf l.drawing.numberNodes = .ok g ∧
      s.Blamed l.listeners arrange g (Mosaic.begun l.listeners l.board) e

theorem run_of_ring {l : Layout α} {r : Ring α} (h : l.method = .ring r) :
    run l = onBoard (r.run l.listeners) l := by
  rw [run, Act.bind_of_ok (Act.state_apply l), h]

theorem run_of_mosaic {l : Layout α} {s : Mosaic α} {secondary : Secondary α}
    (h : l.method = .mosaic s secondary) :
    run l = onBoard (s.run l.listeners secondary.arrangement) l := by
  rw [run, Act.bind_of_ok (Act.state_apply l), h]

/-- Before a run by components changes anything, it rejects a drawing in which a link has an end
outside the graph. When all links are attached, they are followed, and no run fails over them. -/
theorem run_checked (hcuts : Scalar.Cuts α) (l : Layout α)
    (hends : l.drawing.numberNodes.Definite) :
    (l.drawing.numberNodes.Legible → ¬ l.drawing.numberNodes.Attached → l.drawing.nodes ≠ [] →
      ∀ s secondary arrange, l.method = .mosaic s secondary →
        secondary.arrangement = some arrange →
        ∃ issues, issues ≠ [] ∧ run l = (.error (.invalidLinks issues),
            { l with board := Mosaic.begun l.listeners l.board }) ∧
          ∀ r, held (Mosaic.begun l.listeners l.board).drawing r = held l.drawing r) ∧
    (l.drawing.numberNodes.Attached → l.drawing.numberNodes.Followed ∧
      ∀ e l', run l = (.error e, l') → l.Blamed e) := by
  constructor
  · intro hlegible hloose hne s secondary arrange hmethod harrange
    obtain ⟨issues, hissues, hvalid⟩ := Drawing.exists_issues hcuts hends hlegible hloose
    refine ⟨issues, hissues, ?_, fun r => Drawing.held_numberNodes _ r⟩
    rw [run_of_mosaic hmethod, harrange]
    exact Act.within_eq_error.mpr ⟨_, Mosaic.run_of_rejected hne hvalid, rfl⟩
  · intro hattached
    have hvalid := (Drawing.validate_eq_ok_iff hcuts hends).mpr hattached
    have hfollowed := Drawing.followed_of_validate hends hvalid
    refine ⟨hfollowed, ?_⟩
    intro e l' h
    cases hmethod : l.method with
    | ring r =>
        rw [run_of_ring hmethod] at h
        obtain ⟨b', hfailed, _⟩ := Act.within_eq_error.mp h
        rw [Blamed, hmethod]
        exact Ring.blamed_of_run hends hvalid hfailed
    | mosaic s secondary =>
        rw [run_of_mosaic hmethod] at h
        obtain ⟨b', hfailed, _⟩ := Act.within_eq_error.mp h
        rw [Blamed, hmethod]
        cases harrange : secondary.arrangement with
        | none =>
            rw [harrange, Mosaic.run] at hfailed
            have hwork := Board.failed_of_run hfailed
            cases (Prod.mk.inj hwork).1
        | some arrange =>
            rw [harrange] at hfailed
            obtain ⟨g, hg, _⟩ := hfollowed.grouped
            exact ⟨arrange, g, harrange, hg,
              Mosaic.blamed_of_run hg (Drawing.wholeEnds_of_validate hends hvalid) hfailed⟩

/-- A node somewhere, and a link from it to a node that is not there. -/
def looseLink : Drawing Float :=
  { nodes := [{ Node.blank with x := .int 5, y := .int 6 }]
    links := [{ source := .value (.int 0), target := .value (.int 7), length := .null
                weight := .null, bends := [], extras := [] }] }

/-- A layout of components that leaves each of them as it is. -/
def keeping (d : Drawing Float) : Layout Float :=
  { method := .mosaic Mosaic.plain (.procedure (fun _ d => .ok d) false)
    board := { drawing := d } }

theorem run_checked_looseLink :
    Scalar.Cuts Float ∧ (keeping looseLink).drawing.numberNodes.Definite ∧
      (∃ issues, issues ≠ [] ∧ (run (keeping looseLink)).1 = .error (.invalidLinks issues) ∧
        ∀ r, held (run (keeping looseLink)).2.drawing r = held looseLink r) ∧
      (keeping Drawing.mixedEnds).drawing.numberNodes.Definite ∧
      (keeping Drawing.mixedEnds).drawing.numberNodes.Followed ∧
      ∀ e l', run (keeping Drawing.mixedEnds) = (.error e, l') →
        (keeping Drawing.mixedEnds).Blamed e := by
  have hloose : (keeping looseLink).drawing.numberNodes.Definite := by
    intro l hl side
    obtain rfl := List.mem_singleton.mp hl
    cases side <;> exact ⟨_, rfl, trivial, trivial⟩
  have hlegible : (keeping looseLink).drawing.numberNodes.Legible := by
    intro l hl side
    obtain rfl := List.mem_singleton.mp hl
    cases side <;> exact ⟨_, rfl⟩
  have hmixed : (keeping Drawing.mixedEnds).drawing.numberNodes.Definite := by
    intro l hl side
    simp only [keeping, drawing, Drawing.mixedEnds, Drawing.numberNodes, List.map_cons,
      List.map_nil, List.mem_cons, List.not_mem_nil, or_false] at hl
    rcases hl with rfl | rfl <;> cases side
    · exact ⟨_, rfl, trivial, trivial⟩
    · exact ⟨_, rfl, ⟨_, rfl⟩, trivial⟩
    · exact ⟨_, rfl, ⟨_, rfl⟩, trivial⟩
    · exact ⟨_, rfl, trivial, trivial⟩
  have hunattached : ¬ (keeping looseLink).drawing.numberNodes.Attached := by
    intro h
    obtain ⟨v, hv, hin⟩ := h _ List.mem_cons_self .target
    obtain rfl := Except.ok.inj hv
    cases hin
  obtain ⟨issues, hissues, hrun, hheld⟩ := (run_checked Double.cuts (keeping looseLink) hloose).1
    hlegible hunattached (List.cons_ne_nil _ _) _ _ _ rfl rfl
  have hattached : (keeping Drawing.mixedEnds).drawing.numberNodes.Attached :=
    (Drawing.validate_eq_ok_iff Double.cuts hmixed).mp rfl
  refine ⟨Double.cuts, hloose, ⟨issues, hissues, ?_, ?_⟩, hmixed,
    (run_checked Double.cuts (keeping Drawing.mixedEnds) hmixed).2 hattached⟩
  · rw [hrun]
  · rw [hrun]
    exact hheld

/-- A ring does not check the link, and moves the node. -/
theorem ring_moves_looseLink :
    let l : Layout Float := { method := .ring Ring.plain, board := { drawing := looseLink } }
    l.drawing.validate = .error (.invalidLinks [⟨0, .target, .outside ⟨7, false⟩ 1⟩]) ∧
      (run l).1 = .ok () ∧
      held l.drawing (node 0) = some ⟨.int 5, .int 6⟩ ∧
      held (run l).2.drawing (node 0) = some ⟨.real 0.0, .real 0.0⟩ :=
  ⟨rfl, rfl, rfl, rfl⟩

end Layout

end PackedDrawing
