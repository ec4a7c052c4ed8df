import PackedDrawing.Proofs.Placement.Pose
import PackedDrawing.Proofs.Placement.Record

/-!
# Moving the points of a component

Steps on a drawing that move some points and leave the others alone are described by what they do to
the point at each record. Centring a component and placing it are two such steps. Centring reads all
points before it moves one, so it may meet a point twice; placing moves every point of the component
exactly once as long as no two of the records share a home.

## Main definitions

* `Moves`: one drawing comes from another by a motion of its points.
* `Writes`: the same, where the new points are written as scalars and nothing else is touched.
* `Point.centroid`, `Point.centred`: the mean of points, and the points seen from it.

## Main statements

* `writes_of_centre`: whatever is centred is moved by the mean of its points.
* `centre_writes`, `settle_moves`: what centring and placing do, and that they succeed.
* `orient_writes`: the outcome of choosing a pose, given the points.
-/

namespace PackedDrawing

open Record

section Moves

variable {α : Type} [Scalar α]

/-- One drawing comes from another of the same shape by applying a motion to the points that are
kept at certain homes. -/
structure Moves (homes : List Record) (f : Point α → Point α) (d d' : Drawing α) : Prop where
  shape : SameShape d d'
  moved : ∀ r : Record, home d r ∈ homes → r.point d' = (r.point d).map f
  kept : ∀ r : Record, home d r ∉ homes → held d' r = held d r

theorem Moves.point_kept {homes : List Record} {f : Point α → Point α} {d d' : Drawing α}
    (h : Moves homes f d d') {r : Record} (hr : home d r ∉ homes) : r.point d' = r.point d := by
  rw [point_eq, point_eq, h.kept r hr]

theorem moves_move {d : Drawing α} {r : Record} {p : Point α} (h : r.point d = .ok p)
    (f : Point α → Point α) : Moves [home d r] f d (r.move (f p) d) := by
  refine ⟨sameShape_move _ d r, ?_, ?_⟩
  · intro r' hr'
    have heq : home d r' = home d r := List.mem_singleton.mp hr'
    rw [point_move _ ⟨p, h⟩, if_pos heq, point_eq d r', held_eq_of_home_eq heq, ← point_eq, h]
    rfl
  · intro r' hr'
    rw [held_move, if_neg fun heq => hr' (List.mem_singleton.mpr heq)]

/-- One motion after another, of different points. -/
theorem Moves.append {homes homes' : List Record} {f : Point α → Point α} {d d' d'' : Drawing α}
    (h : Moves homes f d d') (h' : Moves homes' f d' d'') (hdisjoint : homes.Disjoint homes') :
    Moves (homes ++ homes') f d d'' := by
  refine ⟨h.shape.trans h'.shape, ?_, ?_⟩
  · intro r hr
    rcases List.mem_append.mp hr with hr | hr
    · rw [h'.point_kept (h.shape.home_eq r ▸ hdisjoint hr), h.moved r hr]
    · rw [h'.moved r (h.shape.home_eq r ▸ hr), h.point_kept fun hr' => hdisjoint hr' hr]
  · intro r hr
    rw [List.mem_append, not_or] at hr
    rw [h'.kept r (h.shape.home_eq r ▸ hr.2), h.kept r hr.1]

/-- Steps that each move one record, done one after another, move each of the records once when
these have different homes. -/
theorem each_moves {γ : Type} {record : γ → Record} {step : γ → Act (Drawing α) Unit}
    {f : Point α → Point α} {xs : List γ} {d : Drawing α}
    (hslots : (xs.map fun x => home d (record x)).Nodup)
    (hread : ∀ x ∈ xs, ∃ p, (record x).point d = .ok p)
    (hstep : ∀ x ∈ xs, ∀ p d', (record x).point d = .ok p → (record x).point d' = .ok p →
      step x d' = (.ok (), (record x).move (f p) d')) :
    ∃ d', Act.each step xs d = (.ok (), d') ∧
      Moves (xs.map fun x => home d (record x)) f d d' := by
  induction xs generalizing d with
  | nil => exact ⟨d, rfl, SameShape.refl d, fun _ hr => absurd hr List.not_mem_nil, fun _ _ => rfl⟩
  | cons x rest ih =>
      rw [List.map_cons, List.nodup_cons] at hslots
      obtain ⟨p, hp⟩ := hread x List.mem_cons_self
      have hfirst := hstep x List.mem_cons_self p d hp hp
      have hmoves := moves_move hp f
      have hhomes : (rest.map fun y => home ((record x).move (f p) d) (record y)) =
          rest.map fun y => home d (record y) :=
        List.map_congr_left fun y _ => hmoves.shape.home_eq _
      -- the records behind the first one are still read as before
      have hkept : ∀ y ∈ rest, (record y).point ((record x).move (f p) d) = (record y).point d := by
        intro y hy
        apply hmoves.point_kept
        intro hmem
        have heq : home d (record y) = home d (record x) := List.mem_singleton.mp hmem
        exact hslots.1 (heq ▸ List.mem_map_of_mem hy)
      obtain ⟨d', hd', hmoves'⟩ := @ih ((record x).move (f p) d) (hhomes ▸ hslots.2)
        (fun y hy => hkept y hy ▸ hread y (List.mem_cons_of_mem x hy))
        (fun y hy q u hq hu => hstep y (List.mem_cons_of_mem x hy) q u (hkept y hy ▸ hq) hu)
      refine ⟨d', by rw [Act.each_cons, Act.bind_of_ok hfirst, hd'], ?_⟩
      rw [hhomes] at hmoves'
      exact hmoves.append hmoves' (List.singleton_disjoint.mpr hslots.1)

/-- One drawing comes from another by writing what a motion makes of the points at certain homes, as
scalars, and by nothing else. -/
structure Writes (homes : List Record) (f : Point α → Point α) (d d' : Drawing α) : Prop where
  shape : SameShape d d'
  frame : d'.frame = d.frame
  written : ∀ r : Record, home d r ∈ homes →
    ∃ p, r.point d = .ok p ∧ held d' r = some ((f p).map .real)
  kept : ∀ r : Record, home d r ∉ homes → held d' r = held d r

theorem Writes.moves {homes : List Record} {f : Point α → Point α} {d d' : Drawing α}
    (h : Writes homes f d d') : Moves homes f d d' := by
  refine ⟨h.shape, ?_, h.kept⟩
  intro r hr
  obtain ⟨p, hp, hheld⟩ := h.written r hr
  rw [point_eq d', hheld, hp]
  exact mapM_toReal_real (f p)

/-- Points that were all read first can be moved in any order, and some of them twice. -/
theorem each_writes (f : Point α → Point α) {xs : List (Record × Point α)} {d : Drawing α}
    (hread : ∀ x ∈ xs, x.1.point d = .ok x.2) :
    ∃ d', Act.each (fun x => Act.change fun u => Record.move (f x.2) u x.1) xs d = (.ok (), d') ∧
      Writes (xs.map fun x => home d x.1) f d d' := by
  induction xs using List.reverseRecOn with
  | nil =>
      exact ⟨d, rfl, SameShape.refl d, rfl, fun _ hr => absurd hr List.not_mem_nil, fun _ _ => rfl⟩
  | append_singleton xs x ih =>
      obtain ⟨u, hu, hwrites⟩ := ih fun y hy => hread y (List.mem_append_left _ hy)
      have hx := hread x (List.mem_append_right _ (List.mem_singleton_self x))
      refine ⟨x.1.move (f x.2) u, ?_, ?_⟩
      · rw [Act.each_append, Act.bind_of_ok hu]
        rfl
      constructor
      case shape => exact hwrites.shape.trans (sameShape_move _ u x.1)
      case frame => rw [frame_move, hwrites.frame]
      case written =>
        intro r hr
        rw [held_move, hwrites.shape.home_eq, hwrites.shape.home_eq]
        by_cases hsame : home d r = home d x.1
        · have hp : r.point d = .ok x.2 := by
            rw [point_eq, held_eq_of_home_eq hsame, ← point_eq, hx]
          obtain ⟨v, hv⟩ : ∃ v, held u r = some v := by
            by_cases hr' : home d r ∈ xs.map fun y => home d y.1
            · obtain ⟨q, _, hq⟩ := hwrites.written r hr'
              exact ⟨_, hq⟩
            · rw [hwrites.kept r hr']
              exact exists_held_of_point hp
          rw [if_pos hsame, hv]
          exact ⟨x.2, hp, rfl⟩
        · rw [List.map_append, List.mem_append, List.map_singleton, List.mem_singleton] at hr
          rw [if_neg hsame]
          exact hwrites.written r (hr.resolve_right hsame)
      case kept =>
        intro r hr
        rw [List.map_append, List.mem_append, List.map_singleton, List.mem_singleton, not_or] at hr
        rw [held_move, hwrites.shape.home_eq, hwrites.shape.home_eq, if_neg hr.2,
          hwrites.kept r hr.1]

end Moves

section Centre

variable {α : Type} [Scalar α] {records : List Record} {d d' : Drawing α} {c : Point α}

/-- Points that can be read and have a mean are centred. -/
theorem exists_centre {p : Point α} {ps : List (Point α)}
    (hread : records.mapM (Record.point d) = .ok (p :: ps)) (hmean : mean p ps = .ok c) :
    ∃ d', centre records d = (.ok c, d') ∧ Writes (records.map (home d)) (· - c) d d' := by
  have hpoints := mapM_eq_ok_iff.mp hread
  have hboth : ∀ x ∈ records.zip (p :: ps), x.1.point d = .ok x.2 := by
    rintro ⟨r, q⟩ hx
    exact (List.forall₂_iff_zip.mp hpoints).2 hx
  have hhomes : ((records.zip (p :: ps)).map fun x => home d x.1) = records.map (home d) := by
    have hfst : (records.zip (p :: ps)).map Prod.fst = records :=
      List.map_fst_zip hpoints.length_eq.le
    calc (records.zip (p :: ps)).map (fun x => home d x.1)
        = ((records.zip (p :: ps)).map Prod.fst).map (home d) := by
          rw [List.map_map]
          rfl
      _ = records.map (home d) := by rw [hfst]
  obtain ⟨d', hd', hwrites⟩ := each_writes (· - c) hboth
  refine ⟨d', ?_, hhomes ▸ hwrites⟩
  have hps : points records d = (.ok (p :: ps), d) := by rw [points, hread]
  rw [centre, Act.bind_of_ok hps]
  simp only [hmean]
  rw [Act.bind_of_ok (Act.attempt_apply _ _), Act.bind_of_ok hd']
  rfl

/-- What is centred is moved by the mean of its points, all of which can be read. -/
theorem writes_of_centre (h : centre records d = (.ok c, d')) :
    ∃ p ps, records.mapM (Record.point d) = .ok (p :: ps) ∧ mean p ps = .ok c ∧
      Writes (records.map (home d)) (· - c) d d' := by
  obtain ⟨read, u, hpoints, hcentre⟩ := Act.bind_eq_ok.mp h
  have hread : records.mapM (Record.point d) = .ok read := (Prod.mk.inj hpoints).1
  cases read with
  | nil => cases (Prod.mk.inj hcentre).1
  | cons p ps =>
      obtain ⟨c', u', hmean, hrest⟩ := Act.bind_eq_ok.mp hcentre
      obtain ⟨hmean, _⟩ := Act.attempt_eq_ok.mp hmean
      obtain ⟨_, u'', _, hanswer⟩ := Act.bind_eq_ok.mp hrest
      obtain ⟨rfl, _⟩ := Act.pure_eq_ok.mp hanswer
      obtain ⟨d'', hd'', hwrites⟩ := exists_centre hread hmean
      obtain rfl := (Prod.mk.inj (h.symm.trans hd'')).2
      exact ⟨p, ps, hread, hmean, hwrites⟩

/-- Choosing a pose centres the component, and then changes nothing any more. -/
theorem centre_of_orient {β : Type} [Border α β] {border : β} {envelope : Envelope α}
    {g : Pose α β} (h : orient records border envelope d = (.ok g, d')) :
    ∃ c, centre records d = (.ok c, d') := by
  obtain ⟨c, u, hcentre, h⟩ := Act.bind_eq_ok.mp h
  obtain ⟨ps, u₁, hpoints, h⟩ := Act.bind_eq_ok.mp h
  obtain ⟨outline, u₂, henvelope, hpose⟩ := Act.bind_eq_ok.mp h
  obtain rfl := (Prod.mk.inj hpoints).2
  obtain ⟨_, rfl⟩ := Act.attempt_eq_ok.mp henvelope
  obtain ⟨_, rfl⟩ := Act.attempt_eq_ok.mp hpose
  exact ⟨c, hcentre⟩

end Centre

namespace Point

/-- The mean of points. -/
noncomputable def centroid (ps : List (Point ℝ)) : Point ℝ :=
  ⟨(ps.map x).sum / ps.length, (ps.map y).sum / ps.length⟩

/-- Points as they are seen from their mean. -/
noncomputable def centred (ps : List (Point ℝ)) : List (Point ℝ) := ps.map (· - centroid ps)

theorem foldl_add (p : Point ℝ) (ps : List (Point ℝ)) :
    ps.foldl (· + ·) p = ⟨((p :: ps).map x).sum, ((p :: ps).map y).sum⟩ := by
  induction ps generalizing p with
  | nil => simp
  | cons q rest ih =>
      rw [List.foldl_cons, ih]
      simp [add_assoc]

theorem mean_eq (p : Point ℝ) (ps : List (Point ℝ)) : mean p ps = .ok (centroid (p :: ps)) := by
  rw [mean, foldl_add, centroid]
  simp only [Scalar.ofInt_eq_ok, ok_bind, List.length_cons]
  push_cast
  rfl

end Point

open Point

variable {records : List Record} {d : Drawing ℝ} {ps : List (Point ℝ)}

/-- Centring moves all points of a component by the same vector. -/
theorem centre_writes (hread : records.mapM (Record.point d) = .ok ps) (hne : ps ≠ []) :
    ∃ d', centre records d = (.ok (centroid ps), d') ∧
      Writes (records.map (home d)) (· - centroid ps) d d' := by
  obtain ⟨p, rest, rfl⟩ := List.exists_cons_of_ne_nil hne
  exact exists_centre hread (mean_eq p rest)

/-- Placing moves each point of a component once, by the rotation and translation of its pose. -/
theorem settle_moves (g : Pose ℝ Int) (offset : Offset) (hslots : (records.map (home d)).Nodup)
    (hread : ∀ r ∈ records, ∃ p, r.point d = .ok p) :
    ∃ d', settle records g offset d = (.ok (), d') ∧
      Moves (records.map (home d)) (carry g.rotation (g.vector offset)) d d' := by
  refine each_moves hslots hread ?_
  intro r _ p d' _ hp
  rw [placeRecord, Act.bind_of_ok (Act.state_apply d'), hp,
    Act.bind_of_ok (Act.attempt_apply _ _), Pose.place_eq_carry,
    Act.bind_of_ok (Act.attempt_apply _ _)]
  rfl

/-- The points of a component, read again after each of them was moved. -/
theorem Moves.mapM_point {f : Point ℝ → Point ℝ} {d' : Drawing ℝ}
    (h : Moves (records.map (home d)) f d d')
    (hread : records.mapM (Record.point d) = .ok ps) :
    records.mapM (Record.point d') = .ok (ps.map f) := by
  have hmap : records.mapM (fun r => (r.point d).map f) = .ok (ps.map f) := by
    rw [mapM_map, hread]
    rfl
  rw [← hmap]
  apply mapM_congr
  intro r hr
  rw [h.moved r (List.mem_map_of_mem hr)]

/-- Choosing a pose for a component centres it, whatever the envelope then answers. -/
theorem orient_writes (border : Int) (envelope : Envelope ℝ)
    (hread : records.mapM (Record.point d) = .ok ps) (hne : ps ≠ []) :
    ∃ d', Writes (records.map (home d)) (· - centroid ps) d d' ∧
      orient records border envelope d =
        ((envelope (centred ps)).bind (Pose.ofPolygon · border), d') := by
  obtain ⟨d', hd', hwrites⟩ := centre_writes hread hne
  refine ⟨d', hwrites, ?_⟩
  have hps : points records d' = (.ok (centred ps), d') := by
    rw [points, hwrites.moves.mapM_point hread, centred]
  rw [orient, Act.bind_of_ok hd', Act.bind_of_ok hps]
  cases henv : envelope (centred ps) with
  | error e => rfl
  | ok outline => rfl

end PackedDrawing
