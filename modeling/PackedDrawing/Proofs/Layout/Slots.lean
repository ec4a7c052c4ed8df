import PackedDrawing.Proofs.Layout.Ranked

/-!
# The slots of a ring

A ring of `n` nodes has `n` evenly spaced slots on a circle around the origin, and its nodes are put
into them one after another in their order. In exact arithmetic no two slots coincide unless the
radius is zero.

## Main definitions

* `Ring.slotOf`: the slots.

## Main statements

* `Ring.exists_placeFrom`: where placing nodes one after another puts them.
* `Ring.slotOf_injOn`: different slots are different points.
* `Layout.run_slots`: a run puts each node into the slot with its number.
-/

namespace PackedDrawing

namespace Ring

section Placing

variable {r : Ring ℝ}

/-- The radius of a ring of `n` nodes: the given one, or the one at which neighbours lie the set
distance apart along the circle. -/
noncomputable def reach (r : Ring ℝ) (n : Nat) : ℝ :=
  r.radius.getD (n * r.spacing / ((2 : ℕ) * Real.pi))

/-- The point at an angle on a circle around the origin. -/
noncomputable def onCircle (radius angle : ℝ) : Point ℝ :=
  ⟨radius * Real.cos angle, radius * Real.sin angle⟩

/-- The slot number `k` of `n` evenly spaced ones. -/
noncomputable def slotOf (r : Ring ℝ) (n k : Nat) : Point ℝ :=
  onCircle (r.reach n) (r.start + k * ((2 : ℕ) * Real.pi / n))

theorem placeFrom_cons (radius step : ℝ) (k i : Nat) (rest : List Nat) (d : Drawing ℝ) :
    r.placeFrom radius step k (i :: rest) d =
      r.placeFrom radius step (k + 1) rest (d.updateNode i fun n =>
        n.moveTo (onCircle radius (r.start + k * step)).x
          (onCircle radius (r.start + k * step)).y) := by
  rw [placeFrom]
  rfl

/-- Each node on the list is moved to the slot with its number on the list, and all else stays. -/
theorem exists_placeFrom (radius step : ℝ) (k : Nat) {is : List Nat} (hnodup : is.Nodup)
    (d : Drawing ℝ) :
    ∃ d', r.placeFrom radius step k is d = (.ok (), d') ∧ d'.links = d.links ∧
      ∀ i, d'.nodes[i]? = d.nodes[i]?.map fun n =>
        if i ∈ is then
          n.moveTo (onCircle radius (r.start + (k + is.idxOf i : Nat) * step)).x
            (onCircle radius (r.start + (k + is.idxOf i : Nat) * step)).y
        else n := by
  induction is generalizing k d with
  | nil => exact ⟨d, rfl, rfl, fun i => by simp⟩
  | cons i rest ih =>
      rw [List.nodup_cons] at hnodup
      rw [placeFrom_cons]
      obtain ⟨d', hplace, hlinks, hnodes⟩ := ih (k + 1) hnodup.2 (d.updateNode i fun n =>
        n.moveTo (onCircle radius (r.start + k * step)).x
          (onCircle radius (r.start + k * step)).y)
      refine ⟨d', hplace, hlinks, ?_⟩
      intro j
      rw [hnodes j, Drawing.updateNode, List.getElem?_modify, Option.map_eq_map, Option.map_map]
      apply Option.map_congr
      intro n _
      by_cases hij : i = j
      · subst hij
        simp [hnodup.1]
      · have hidx : k + (i :: rest).idxOf j = k + 1 + rest.idxOf j := by
          rw [List.idxOf_cons_ne _ hij]
          omega
        simp only [Function.comp_apply, if_neg hij, List.mem_cons, Ne.symm hij, false_or, hidx]

/-- A ring of at least two nodes puts them into its slots in their order. -/
theorem place_eq {d : Drawing ℝ} {order : List Nat} (hlength : 2 ≤ d.nodes.length)
    (h : sorted r.order d = .ok order) :
    r.place d = r.placeFrom (r.reach d.nodes.length) (2 * Real.pi / d.nodes.length) 0 order d := by
  have hturn : (fullTurn : ℝ) = 2 * Real.pi := by
    rw [fullTurn]
    norm_num
    rfl
  have hradius : r.radiusFor (d.nodes.length : ℝ) = r.reach d.nodes.length := by
    rw [radiusFor, reach, hturn, Nat.cast_ofNat]
    cases r.radius <;> rfl
  obtain ⟨n, hn⟩ := Nat.exists_eq_add_of_le' hlength
  have hcount :
      (Scalar.ofInt ((n + 2 : Nat) : Int) : Except Fault ℝ) = .ok ((n + 2 : Nat) : ℝ) := by
    rw [Scalar.ofInt_eq_ok, Int.cast_natCast]
  rw [place, Act.bind_of_ok (Act.state_apply d), ← hradius, ← hturn, hn]
  simp only [hcount, h]
  rfl

end Placing

/-- Different slots are different points, unless all of them are the origin. -/
theorem slotOf_injOn {r : Ring ℝ} {n : Nat} (h : r.reach n ≠ 0) :
    Set.InjOn (r.slotOf n) (Set.Iio n) := by
  intro p hp q hq heq
  rw [Set.mem_Iio] at hp hq
  obtain ⟨hx, hy⟩ := Point.mk.inj heq
  have hangles := Real.Angle.cos_sin_inj (mul_left_cancel₀ h hx) (mul_left_cancel₀ h hy)
  obtain ⟨k, hk⟩ := Real.Angle.angle_eq_iff_two_pi_dvd_sub.mp hangles
  have hn : (n : ℝ) ≠ 0 := by
    have hpos : n ≠ 0 := by omega
    exact_mod_cast hpos
  -- the angles differ by a number of full turns, so the slots by as many times `n`
  have hturns : ((p : ℤ) : ℝ) - (q : ℤ) = (k * n : ℤ) := by
    have hstep : (p - q) * (2 * Real.pi / n) = 2 * Real.pi * k := by linarith
    push_cast
    field_simp at hstep
    linarith
  have hwhole : (p : ℤ) - q = k * n := by exact_mod_cast hturns
  have hk0 : k = 0 := by
    by_contra hne
    have hone : 1 ≤ |k| := Int.one_le_abs hne
    have habs : |(p : ℤ) - q| = |k| * n := by rw [hwhole, abs_mul, Nat.abs_cast]
    have hlt : |(p : ℤ) - q| < n := by
      rw [abs_lt]
      omega
    nlinarith
  rw [hk0] at hwhole
  omega

/-- A run of a ring numbers the nodes and places them. -/
theorem run_of_place {α : Type} [Scalar α] {r : Ring α} {l : Listeners α} {b : Board α}
    {d' : Drawing α} (h : r.place b.drawing.numberNodes = (.ok (), d')) :
    r.run l b = (.ok (), Mosaic.finished l { Mosaic.begun l b with drawing := d' }) := by
  have hwork : Board.onDrawing r.place (Mosaic.begun l b) =
      (.ok (), { Mosaic.begun l b with drawing := d' }) :=
    Act.within_eq_ok.mpr ⟨d', h, rfl⟩
  calc
    r.run l b
      = (Board.onDrawing r.place >>= fun _ =>
          Board.announce l { kind := .finish, alpha := some (.real 0.0) }) (Mosaic.begun l b) := rfl
    _ = _ := Act.bind_of_ok hwork

end Ring

namespace Layout

/-- A ring of at least two nodes is laid out by putting each node into the slot with its number in
the order that the ranks tell, and nothing else is changed, except that missing indices have been
filled in. No two nodes come to lie on one another unless the radius is zero. -/
theorem run_slots {l : Layout ℝ} {r : Ring ℝ} (hmethod : l.method = .ring r)
    (hlength : 2 ≤ l.drawing.nodes.length) (hjoined : l.drawing.numberNodes.Joined)
    {rank : Nat → Int} (hrank : Ring.Ranks r.order l.drawing.numberNodes rank) :
    ∃ (l' : Layout ℝ) (seat : Nat → Nat), run l = (.ok (), l') ∧
      Set.BijOn seat (Set.Iio l.drawing.nodes.length) (Set.Iio l.drawing.nodes.length) ∧
      (∀ i j, i < l.drawing.nodes.length → j < l.drawing.nodes.length →
        (seat i < seat j ↔ Ring.Precedes rank i j)) ∧
      (∀ i, l'.drawing.nodes[i]? = l.drawing.numberNodes.nodes[i]?.map
        fun n : Node ℝ => n.moveTo (r.slotOf l.drawing.nodes.length (seat i)).x
          (r.slotOf l.drawing.nodes.length (seat i)).y) ∧
      l'.drawing.links = l.drawing.links ∧ l'.results = l.results ∧
      (r.reach l.drawing.nodes.length ≠ 0 → ∀ (i j : Nat) (n m : Node ℝ),
        l'.drawing.nodes[i]? = some n → l'.drawing.nodes[j]? = some m → n.x = m.x → n.y = m.y →
        i = j) := by
  have hsorted := Ring.sorted_of_ranks hjoined hrank
  have hcount : l.drawing.numberNodes.nodes.length = l.drawing.nodes.length :=
    Drawing.length_nodes_numberNodes l.drawing
  obtain ⟨d', hplaceFrom, hlinks, hmoved⟩ := Ring.exists_placeFrom (r := r)
    (r.reach l.drawing.numberNodes.nodes.length)
    (2 * Real.pi / l.drawing.numberNodes.nodes.length) 0
    (Ring.nodup_byRank l.drawing.numberNodes.nodes.length rank) l.drawing.numberNodes
  have hplace : r.place l.drawing.numberNodes = (.ok (), d') := by
    rw [Ring.place_eq (hcount.symm ▸ hlength) hsorted]
    exact hplaceFrom
  rw [hcount] at hmoved
  have hbij := Ring.bijOn_seat l.drawing.nodes.length rank
  have hnodes : ∀ i, d'.nodes[i]? = l.drawing.numberNodes.nodes[i]?.map fun n : Node ℝ =>
      n.moveTo (r.slotOf l.drawing.nodes.length (Ring.seat l.drawing.nodes.length rank i)).x
        (r.slotOf l.drawing.nodes.length (Ring.seat l.drawing.nodes.length rank i)).y := by
    intro i
    rw [hmoved i]
    apply Option.map_congr
    intro n hn
    obtain ⟨hi, _⟩ := List.getElem?_eq_some_iff.mp hn
    rw [if_pos (Ring.mem_byRank.mpr (hcount ▸ hi)), Nat.zero_add]
    rfl
  have hrun : run l = (.ok (), { l with
      board := Mosaic.finished l.listeners
        { Mosaic.begun l.listeners l.board with drawing := d' } }) := by
    rw [run_of_ring hmethod]
    exact Act.within_eq_ok.mpr ⟨_, Ring.run_of_place hplace, rfl⟩
  refine ⟨_, _, hrun, hbij, fun i j => Ring.seat_lt_seat_iff, hnodes, hlinks, rfl, ?_⟩
  intro hreach i j n m hn hm hx hy
  change d'.nodes[i]? = some n at hn
  change d'.nodes[j]? = some m at hm
  rw [hnodes, Option.map_eq_some_iff] at hn hm
  obtain ⟨n', hn', rfl⟩ := hn
  obtain ⟨m', hm', rfl⟩ := hm
  obtain ⟨hi, _⟩ := List.getElem?_eq_some_iff.mp hn'
  obtain ⟨hj, _⟩ := List.getElem?_eq_some_iff.mp hm'
  rw [hcount] at hi hj
  refine hbij.injOn hi hj (Ring.slotOf_injOn hreach (hbij.mapsTo hi) (hbij.mapsTo hj) ?_)
  exact Point.ext_iff.mpr ⟨Value.real.inj hx, Value.real.inj hy⟩

/-- A ring by degree of three nodes without indices: the third one is linked to itself and to the
first one. -/
noncomputable def byDegree : Layout ℝ :=
  let link (i j : Int) : Link ℝ :=
    { source := .value (.int i), target := .value (.int j), length := .null, weight := .null
      bends := [], extras := [] }
  { method := .ring
      { radius := some (10 : ℕ), spacing := (50 : ℕ), start := 0, order := .given (.text "degree") }
    board := { drawing :=
      { nodes := List.replicate 3 Node.blank, links := [link 2 2, link 0 2] } } }

/-- The third node has the most ends of links and comes first, at the start of the circle; the
second one has none and comes last. -/
theorem run_slots_byDegree :
    byDegree.drawing.numberNodes.Joined ∧
      ∃ l', run byDegree = (.ok (), l') ∧
        (∃ n, l'.drawing.nodes[2]? = some n ∧ n.x = .real 10 ∧ n.y = .real 0) ∧
        ∃ n, l'.drawing.nodes[1]? = some n ∧ n.x = .real (10 * Real.cos (2 * (2 * Real.pi / 3))) ∧
          n.y = .real (10 * Real.sin (2 * (2 * Real.pi / 3))) := by
  have hjoined : byDegree.drawing.numberNodes.Joined := by
    intro l hl e he
    simp only [byDegree, drawing, Drawing.numberNodes, List.mem_cons, List.not_mem_nil,
      or_false] at hl
    rcases hl with rfl | rfl <;> simp only [List.mem_cons, List.not_mem_nil, or_false] at he <;>
      rcases he with rfl | rfl
    · exact ⟨2, rfl, by decide⟩
    · exact ⟨2, rfl, by decide⟩
    · exact ⟨0, rfl, by decide⟩
    · exact ⟨2, rfl, by decide⟩
  have hranks : Ring.Ranks (.given (.text "degree")) byDegree.drawing.numberNodes
      fun i => -(byDegree.drawing.numberNodes.degree i : Int) := fun _ => rfl
  obtain ⟨l', seat, hrun, hbij, hseat, hnodes, _⟩ :=
    run_slots (l := byDegree) rfl (by decide) hjoined hranks
  have hthird : seat 2 < seat 0 := (hseat 2 0 (by decide) (by decide)).mpr (Or.inl (by decide))
  have hfirst : seat 0 < seat 1 := (hseat 0 1 (by decide) (by decide)).mpr (Or.inl (by decide))
  have hlast : seat 1 < 3 := hbij.mapsTo (x := 1) (by decide)
  obtain ⟨hstart, hend⟩ : seat 2 = 0 ∧ seat 1 = 2 := by omega
  refine ⟨hjoined, l', hrun, ⟨_, hnodes 2, ?_, ?_⟩, _, hnodes 1, ?_, ?_⟩
  · simp [Node.moveTo, Ring.slotOf, Ring.onCircle, Ring.reach, hstart]
  · simp [Node.moveTo, Ring.slotOf, Ring.onCircle, hstart]
  · simp [Node.moveTo, Ring.slotOf, Ring.onCircle, Ring.reach, hend, byDegree, drawing]
  · simp [Node.moveTo, Ring.slotOf, Ring.onCircle, Ring.reach, hend, byDegree, drawing]

end Layout

end PackedDrawing
