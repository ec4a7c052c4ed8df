import PackedDrawing.Proofs.Plane.Turn

/-!
# Lexicographic order of points

In exact arithmetic the sorted points stand in lexicographic order, whichever procedure sorted them,
and once repeats are dropped each point is strictly before the next one.
-/

namespace PackedDrawing

namespace Point

/-- Strict lexicographic order. -/
def Before (p q : Point ℝ) : Prop := p.x < q.x ∨ p.x = q.x ∧ p.y < q.y

theorem Before.trans {p q r : Point ℝ} (hpq : Before p q) (hqr : Before q r) : Before p r := by
  rcases hpq with hx | ⟨hx, hy⟩
  · rcases hqr with hx' | ⟨hx', _⟩
    · exact Or.inl (hx.trans hx')
    · exact Or.inl (hx' ▸ hx)
  · rcases hqr with hx' | ⟨hx', hy'⟩
    · exact Or.inl (hx ▸ hx')
    · exact Or.inr ⟨hx.trans hx', hy.trans hy'⟩

theorem Before.ne {p q : Point ℝ} (h : Before p q) : p ≠ q := by
  rintro rfl
  rcases h with h | ⟨_, h⟩ <;> exact lt_irrefl _ h

theorem Before.x_le {p q : Point ℝ} (h : Before p q) : p.x ≤ q.x := by
  rcases h with h | ⟨h, _⟩
  · exact h.le
  · exact h.le

/-- The point on the other side of the origin. -/
def opposite (p : Point ℝ) : Point ℝ := ⟨-p.x, -p.y⟩

theorem cross_opposite (p q r : Point ℝ) :
    cross p.opposite q.opposite r.opposite = cross p q r := by
  simp only [cross, opposite]
  ring

theorem before_opposite {p q : Point ℝ} (h : Before q p) : Before p.opposite q.opposite := by
  rcases h with h | ⟨h, h'⟩
  · exact Or.inl (neg_lt_neg h)
  · exact Or.inr ⟨neg_inj.mpr h.symm, neg_lt_neg h'⟩

end Point

namespace Hull

open Point

theorem order_isLE_then (x y x' y' : ℝ) :
    ((Scalar.order x y).then (Scalar.order x' y')).isLE = true ↔
      x < y ∨ x = y ∧ x' ≤ y' := by
  unfold Scalar.order
  simp only [Scalar.lt_eq_decide, Scalar.isDefined_eq_true, Bool.not_true, Bool.and_false,
    Bool.or_false, decide_eq_true_eq]
  rcases lt_trichotomy x y with h | h | h
  · simp [h, Ordering.then]
  · rcases lt_trichotomy x' y' with h' | h' | h'
    · simp [h, h', h'.le, Ordering.then]
    · simp [h, h', Ordering.then]
    · simp [h, h', h'.not_gt, h'.not_ge, Ordering.then]
  · simp [h, h.not_gt, h.ne', Ordering.then]

theorem precedes_iff {p q : Point ℝ} : precedes p q = true ↔ Before p q ∨ p = q := by
  rw [precedes, order_isLE_then, Before, Point.ext_iff, le_iff_lt_or_eq]
  tauto

theorem precedes_trans {p q r : Point ℝ} (hpq : precedes p q = true) (hqr : precedes q r = true) :
    precedes p r = true := by
  rw [precedes_iff] at *
  rcases hpq with hpq | rfl
  · rcases hqr with hqr | rfl
    · exact Or.inl (hpq.trans hqr)
    · exact Or.inl hpq
  · exact hqr

theorem precedes_total (p q : Point ℝ) : (precedes p q || precedes q p) = true := by
  rw [Bool.or_eq_true, precedes_iff, precedes_iff, Before, Before, Point.ext_iff]
  rcases lt_trichotomy p.x q.x with h | h | h
  · exact Or.inl (Or.inl (Or.inl h))
  · rcases lt_trichotomy p.y q.y with h' | h' | h'
    · exact Or.inl (Or.inl (Or.inr ⟨h, h'⟩))
    · exact Or.inl (Or.inr ⟨h, h'⟩)
    · exact Or.inr (Or.inl (Or.inr ⟨h.symm, h'⟩))
  · exact Or.inr (Or.inl (Or.inl h))

theorem pairwise_of_inOrder {points : List (Point ℝ)} (h : inOrder points = true) :
    points.Pairwise fun p q => precedes p q = true := by
  induction points with
  | nil => exact List.Pairwise.nil
  | cons p rest ih =>
      cases rest with
      | nil => exact List.pairwise_singleton _ p
      | cons q rest =>
          rw [inOrder, Bool.and_eq_true] at h
          have hrest := ih h.2
          rw [List.pairwise_cons]
          refine ⟨?_, hrest⟩
          intro r hr
          rcases List.mem_cons.mp hr with rfl | hr
          · exact h.1
          · exact precedes_trans h.1 (List.rel_of_pairwise_cons hrest hr)

/-- The sorted points stand in order, be it because the partitioning procedure was checked or
because the merging one keeps its promise. -/
theorem pairwise_sorted (points : List (Point ℝ)) :
    (sorted points).Pairwise fun p q => precedes p q = true := by
  unfold sorted
  cases h : partitioned? points with
  | none =>
      change (points.mergeSort precedes).Pairwise fun p q => precedes p q = true
      exact @List.pairwise_mergeSort _ precedes (fun _ _ _ => precedes_trans) precedes_total points
  | some found =>
      simp only [partitioned?, Option.bind_eq_some_iff] at h
      obtain ⟨order, _, h⟩ := h
      by_cases hc : (order.isPerm (List.range points.length) &&
          inOrder (order.filterMap (points.toArray[·]?))) = true
      · rw [if_pos hc] at h
        obtain rfl := Option.some.inj h
        exact pairwise_of_inOrder (Bool.and_eq_true _ _ ▸ hc).2
      · rw [if_neg hc] at h
        cases h

theorem coincide_iff {p q : Point ℝ} : coincide p q = true ↔ p = q := by
  simp [coincide, Point.ext_iff]

/-- The first point survives. -/
theorem dropRepeats_cons (p : Point ℝ) (rest : List (Point ℝ)) :
    ∃ tail, dropRepeats (p :: rest) = p :: tail := by
  cases rest with
  | nil => exact ⟨[], rfl⟩
  | cons q rest =>
      rw [dropRepeats]
      by_cases h : coincide p q = true
      · rw [if_pos h]
        cases dropRepeats (q :: rest) with
        | nil => exact ⟨[], rfl⟩
        | cons _ tail => exact ⟨tail, rfl⟩
      · rw [if_neg h]
        exact ⟨_, rfl⟩

theorem dropRepeats_cons_cons (p q : Point ℝ) (rest : List (Point ℝ)) :
    dropRepeats (p :: q :: rest) =
      if coincide p q then dropRepeats (q :: rest) else p :: dropRepeats (q :: rest) := by
  rw [dropRepeats]
  by_cases h : coincide p q = true
  · obtain ⟨tail, htail⟩ := dropRepeats_cons q rest
    rw [if_pos h, if_pos h, htail, coincide_iff.mp h]
  · rw [if_neg h, if_neg h]

theorem mem_dropRepeats_iff {points : List (Point ℝ)} {r : Point ℝ} :
    r ∈ dropRepeats points ↔ r ∈ points := by
  induction points with
  | nil => rfl
  | cons p rest ih =>
      cases rest with
      | nil => rfl
      | cons q rest =>
          rw [dropRepeats_cons_cons]
          by_cases h : coincide p q = true
          · rw [if_pos h, ih, coincide_iff.mp h]
            simp
          · rw [if_neg h, List.mem_cons, ih, ← List.mem_cons]

theorem pairwise_dropRepeats {points : List (Point ℝ)}
    (h : points.Pairwise fun p q => precedes p q = true) :
    (dropRepeats points).Pairwise Before := by
  induction points with
  | nil => exact List.Pairwise.nil
  | cons p rest ih =>
      cases rest with
      | nil => exact List.pairwise_singleton _ p
      | cons q rest =>
          have hrest := ih h.of_cons
          rw [dropRepeats_cons_cons]
          by_cases hc : coincide p q = true
          · rw [if_pos hc]
            exact hrest
          · rw [if_neg hc, List.pairwise_cons]
            refine ⟨?_, hrest⟩
            have hpq : Before p q :=
              (precedes_iff.mp (List.rel_of_pairwise_cons h List.mem_cons_self)).resolve_right
                fun heq => hc (coincide_iff.mpr heq)
            intro r hr
            rcases List.mem_cons.mp (mem_dropRepeats_iff.mp hr) with rfl | hr
            · exact hpq
            · rcases precedes_iff.mp (List.rel_of_pairwise_cons h.of_cons hr) with hqr | rfl
              · exact hpq.trans hqr
              · exact hpq

theorem mem_ordered_iff {points : List (Point ℝ)} {r : Point ℝ} :
    r ∈ ordered points ↔ r ∈ points := by
  rw [ordered, mem_dropRepeats_iff]
  exact (sorted_perm points).mem_iff

/-- The ordered points stand in strict lexicographic order. -/
theorem pairwise_ordered (points : List (Point ℝ)) : (ordered points).Pairwise Before :=
  pairwise_dropRepeats (pairwise_sorted points)

/-- Points in order, each once, stay as they are. -/
theorem ordered_eq_self {points : List (Point ℝ)} (h : points.Pairwise Before) :
    ordered points = points := by
  have hperm : (ordered points).Perm points :=
    (List.perm_ext_iff_of_nodup ((pairwise_ordered points).imp Before.ne) (h.imp Before.ne)).mpr
      fun _ => mem_ordered_iff
  refine hperm.eq_of_pairwise ?_ (pairwise_ordered points) h
  intro p q _ _ hpq hqp
  exact absurd rfl (hpq.trans hqp).ne

end Hull

end PackedDrawing
