import Mathlib.Data.List.Rotate
import PackedDrawing.Proofs.Plane.Chains

/-!
# The corners of the convex hull

The lower and the upper chain of a hull meet in the first and the last point. A step along the lower
chain turns left to each corner of the upper one, and a step along the upper chain to each corner of
the lower one, so the two together turn left wherever one starts to go around.

## Main definitions

* `Hull.Loop`: a lower and an upper chain between two points.

## Main statements

* `Hull.Loop.leftTurning`: a loop turns left.
* `Hull.corners_eq`: the corners of two different points or more are a loop.
* `Hull.leftTurning_corners`, `Hull.nodup_corners`: any three corners turn left, and no two are
  equal.
* `Hull.corners_of_collinear`: different points on one line have two corners.
-/

namespace PackedDrawing

namespace Point

theorem LeftTurning.of_isRotated {ps qs : List (Point ℝ)} (h : LeftTurning ps)
    (hrotated : ps.IsRotated qs) : LeftTurning qs := by
  obtain ⟨n, rfl⟩ := hrotated
  induction n generalizing ps with
  | zero => rwa [List.rotate_zero]
  | succ n ih =>
      cases ps with
      | nil => rwa [List.rotate_nil]
      | cons p rest =>
          rw [List.rotate_cons_succ]
          exact ih h.rotated

theorem LeftTurning.map_opposite {ps : List (Point ℝ)} (h : LeftTurning ps) :
    LeftTurning (ps.map opposite) := by
  intro a b c hsub
  obtain ⟨qs, hqs, heq⟩ := List.sublist_map_iff.mp hsub
  match qs, heq with
  | [a', b', c'], heq =>
      obtain ⟨rfl, rfl, rfl⟩ : a = a'.opposite ∧ b = b'.opposite ∧ c = c'.opposite := by
        simpa using heq
      rw [cross_opposite]
      exact h a' b' c' hqs

end Point

namespace Hull

open Point

/-- A step that turns left to both ends of a segment, or is in line with one, turns left to each
point above the segment. -/
theorem cross_pos_of_above {first last a b c : Point ℝ} (hab : a.x < b.x) (hfirst : first.x ≤ c.x)
    (hlast : c.x ≤ last.x) (hwide : first.x < last.x) (hafirst : 0 ≤ cross a b first)
    (halast : 0 ≤ cross a b last) (habove : 0 < cross first last c) : 0 < cross a b c := by
  have hsplit : (last.x - first.x) * cross a b c = (last.x - c.x) * cross a b first +
      (c.x - first.x) * cross a b last + (b.x - a.x) * cross first last c := by
    simp only [cross]
    ring
  have hpos : 0 < last.x - first.x := by linarith
  have hone : 0 ≤ (last.x - c.x) * cross a b first := mul_nonneg (by linarith) hafirst
  have htwo : 0 ≤ (c.x - first.x) * cross a b last := mul_nonneg (by linarith) halast
  have hthree : 0 < (b.x - a.x) * cross first last c := mul_pos (by linarith) habove
  rw [← mul_pos_iff_of_pos_left hpos, hsplit]
  linarith

/-- Two chains that turn left, one through the points of `lower` and the other back through those of
`upper`. -/
structure Loop (first last : Point ℝ) (lower upper : List (Point ℝ)) : Prop where
  lowerOrder : (first :: (lower ++ [last])).Pairwise Before
  lowerTurns : LeftTurning (first :: (lower ++ [last]))
  upperOrder : (last :: (upper ++ [first])).Pairwise fun p q => Before q p
  upperTurns : LeftTurning (last :: (upper ++ [first]))

namespace Loop

variable {first last : Point ℝ} {lower upper : List (Point ℝ)}

/-- Seen from the other side the upper chain is the lower one. -/
theorem opposite (h : Loop first last lower upper) :
    Loop last.opposite first.opposite (upper.map Point.opposite) (lower.map Point.opposite) := by
  have hlower : last.opposite :: (upper.map Point.opposite ++ [first.opposite]) =
      (last :: (upper ++ [first])).map Point.opposite := by simp
  have hupper : first.opposite :: (lower.map Point.opposite ++ [last.opposite]) =
      (first :: (lower ++ [last])).map Point.opposite := by simp
  refine ⟨?_, ?_, ?_, ?_⟩
  · rw [hlower, List.pairwise_map]
    exact h.upperOrder.imp before_opposite
  · rw [hlower]
    exact h.upperTurns.map_opposite
  · rw [hupper, List.pairwise_map]
    exact h.lowerOrder.imp before_opposite
  · rw [hupper]
    exact h.lowerTurns.map_opposite

theorem before_last (h : Loop first last lower upper) {p : Point ℝ} (hp : p ∈ first :: lower) :
    Before p last := by
  have horder := h.lowerOrder
  rw [← List.cons_append, List.pairwise_append] at horder
  exact horder.2.2 p hp last List.mem_cons_self

theorem first_before (h : Loop first last lower upper) {p : Point ℝ} (hp : p ∈ last :: upper) :
    Before first p := by
  have horder := h.upperOrder
  rw [← List.cons_append, List.pairwise_append] at horder
  exact horder.2.2 p hp first List.mem_cons_self

/-- What lies on the upper chain between the ends is to the left of the way between them. -/
theorem cross_upper (h : Loop first last lower upper) {p : Point ℝ} (hp : p ∈ upper) :
    0 < cross first last p := by
  rw [← cross_rotate]
  apply h.upperTurns
  exact ((List.singleton_sublist.mpr hp).append (List.Sublist.refl [first])).cons_cons last

/-- A step along the lower chain turns left to each corner on the upper one. -/
theorem cross_step (h : Loop first last lower upper) {a b c : Point ℝ}
    (hab : [a, b].Sublist (first :: lower)) (hc : c ∈ last :: upper) : 0 < cross a b c := by
  have halast : 0 < cross a b last := by
    apply h.lowerTurns
    rw [← List.cons_append]
    exact hab.append (List.Sublist.refl [last])
  rcases List.mem_cons.mp hc with rfl | hupper
  · exact halast
  have ha : a ∈ first :: lower := hab.subset List.mem_cons_self
  have hb : b ∈ first :: lower := hab.subset (List.mem_cons_of_mem a List.mem_cons_self)
  have hbefore : Before a b := by
    have horder := h.lowerOrder
    rw [← List.cons_append, List.pairwise_append] at horder
    exact List.pairwise_iff_forall_sublist.mp horder.1 hab
  have hlast := (h.before_last ha).x_le
  have hstep : a.x < b.x := by
    rcases hbefore with hx | ⟨hx, hy⟩
    · exact hx
    · -- a vertical step has nothing to its left before the last point
      have hturn : cross a b last = -((b.y - a.y) * (last.x - a.x)) := by
        simp only [cross, hx]
        ring
      have hnonneg : 0 ≤ (b.y - a.y) * (last.x - a.x) := mul_nonneg (by linarith) (by linarith)
      linarith
  have hafirst : first.x ≤ a.x ∧ 0 ≤ cross a b first := by
    cases hab with
    | cons _ hsub =>
        constructor
        · have horder := List.rel_of_pairwise_cons h.lowerOrder
            (List.mem_append_left [last] (hsub.subset List.mem_cons_self))
          exact horder.x_le
        · rw [cross_rotate]
          refine (h.lowerTurns first a b ?_).le
          exact (hsub.trans (List.sublist_append_left lower [last])).cons_cons first
    | cons_cons _ _ => exact ⟨le_rfl, (cross_start first b).ge⟩
  have hbx := (h.before_last hb).x_le
  have hcfirst := (h.first_before hc).x_le
  have hclast := (List.rel_of_pairwise_cons h.upperOrder
    (List.mem_append_left [first] hupper)).x_le
  exact cross_pos_of_above hstep hcfirst hclast (by linarith) hafirst.2 halast.le
    (h.cross_upper hupper)

/-- Both chains together turn left. -/
theorem leftTurning (h : Loop first last lower upper) :
    LeftTurning (first :: lower ++ last :: upper) := by
  intro a b c hsub
  obtain ⟨front, back, heq, hfront, hback⟩ := List.sublist_append_iff.mp hsub
  match front, back, heq with
  | [], _, rfl =>
      exact h.upperTurns.sublist (List.sublist_append_left (last :: upper) [first]) a b c hback
  | [_], _, rfl =>
      -- the step is on the upper chain, which is the lower one of the loop on the other side
      rw [← cross_rotate, ← cross_opposite]
      apply h.opposite.cross_step
      · exact hback.map Point.opposite
      · exact List.mem_map_of_mem (hfront.subset List.mem_cons_self)
  | [_, _], _, rfl => exact h.cross_step hfront (hback.subset List.mem_cons_self)
  | [_, _, _], _, rfl =>
      exact h.lowerTurns.sublist (List.sublist_append_left (first :: lower) [last]) a b c hfront

theorem nodup (h : Loop first last lower upper) : (first :: lower ++ last :: upper).Nodup := by
  have hlower := h.lowerOrder
  have hupper := h.upperOrder
  rw [← List.cons_append, List.pairwise_append] at hlower hupper
  refine List.nodup_append'.mpr ⟨hlower.1.imp Before.ne, hupper.1.imp fun hb => hb.ne.symm, ?_⟩
  intro p hp hp'
  rcases List.mem_cons.mp hp with rfl | hp
  · exact (h.first_before hp').ne rfl
  · rcases List.mem_cons.mp hp' with rfl | hp'
    · exact (h.before_last (List.mem_cons_of_mem first hp)).ne rfl
    · -- a point between the ends on both chains would lie on both sides of the way between them
      have hleft := h.cross_upper hp'
      have hright := h.opposite.cross_upper (List.mem_map_of_mem hp)
      rw [cross_opposite, cross_swap] at hright
      linarith

end Loop

section Corners

variable {points : List (Point ℝ)}

theorem ordered_ne_nil (h : points ≠ []) : ordered points ≠ [] := by
  obtain ⟨p, rest, rfl⟩ := List.exists_cons_of_ne_nil h
  exact List.ne_nil_of_mem (mem_ordered_iff.mpr List.mem_cons_self)

theorem two_le_length_of_ne {l : List (Point ℝ)} {p q : Point ℝ} (hp : p ∈ l) (hq : q ∈ l)
    (hne : p ≠ q) : 2 ≤ l.length := by
  match l, hp, hq with
  | [_], hp, hq =>
      exact absurd ((List.mem_singleton.mp hp).trans (List.mem_singleton.mp hq).symm) hne
  | _ :: _ :: rest, _, _ => exact Nat.le_add_left 2 rest.length

theorem corners_ne_nil (h : points ≠ []) : corners points ≠ [] := by
  obtain ⟨p, rest, rfl⟩ := List.exists_cons_of_ne_nil h
  obtain ⟨v, hv, _⟩ := corners_support 0 0 (List.mem_cons_self (a := p) (l := rest))
  exact List.ne_nil_of_mem hv

/-- The first of the ordered points is before all others. -/
theorem head_ordered {first p : Point ℝ} (h : (ordered points).head? = some first)
    (hp : p ∈ points) : first = p ∨ Before first p := by
  obtain ⟨rest, hrest⟩ := List.head?_eq_some_iff.mp h
  have horder := pairwise_ordered points
  rw [hrest] at horder
  rcases List.mem_cons.mp (hrest ▸ mem_ordered_iff.mpr hp) with rfl | hmem
  · exact Or.inl rfl
  · exact Or.inr (List.rel_of_pairwise_cons horder hmem)

theorem getLast_ordered {last p : Point ℝ} (h : (ordered points).getLast? = some last)
    (hp : p ∈ points) : p = last ∨ Before p last := by
  obtain ⟨front, hfront⟩ := List.getLast?_eq_some_iff.mp h
  have horder := pairwise_ordered points
  rw [hfront, List.pairwise_append] at horder
  rcases List.mem_append.mp (hfront ▸ mem_ordered_iff.mpr hp) with hmem | hmem
  · exact Or.inr (horder.2.2 p hmem last List.mem_cons_self)
  · exact Or.inl (List.mem_singleton.mp hmem)

/-- The corners of two different points or more are a loop from the first to the last of them and
back. -/
theorem corners_eq {first last : Point ℝ} (hlen : 2 ≤ (ordered points).length)
    (hfirst : (ordered points).head? = some first)
    (hlast : (ordered points).getLast? = some last) :
    ∃ lower upper, corners points = first :: lower ++ last :: upper ∧
      Loop first last lower upper := by
  have horder := pairwise_ordered points
  have hreverse := List.pairwise_reverse.mpr horder
  by_cases hfew : (ordered points).length ≤ 2
  · obtain ⟨p, q, hpq⟩ := List.length_eq_two.mp (Nat.le_antisymm hfew hlen)
    rw [hpq] at hfirst hlast horder hreverse
    obtain rfl : p = first := Option.some.inj hfirst
    obtain rfl : q = last := Option.some.inj hlast
    refine ⟨[], [], ?_, horder, leftTurning_of_length_le le_rfl, hreverse,
      leftTurning_of_length_le le_rfl⟩
    rw [corners, if_pos hfew, hpq]
    rfl
  · have hlength : 2 ≤ (ordered points).reverse.length := by rwa [List.length_reverse]
    obtain ⟨lower, hlower⟩ := chain_eq hlen hfirst hlast
    obtain ⟨upper, hupper⟩ := chain_eq hlength (List.head?_reverse.trans hlast)
      (List.getLast?_reverse.trans hfirst)
    have hforward := advancing_chain bends_lower horder
    have hback := advancing_chain bends_upper hreverse
    rw [hlower] at hforward
    rw [hupper] at hback
    have hreversed : ∀ (p q : Point ℝ) (between : List (Point ℝ)),
        (p :: (between ++ [q])).reverse = q :: (between.reverse ++ [p]) := by simp
    refine ⟨lower.reverse, upper.reverse, ?_, ?_, ?_, ?_, ?_⟩
    · rw [corners, if_neg hfew, hlower, hupper]
      simp
    · rw [← hreversed]
      exact List.pairwise_reverse.mpr hforward.inOrder
    · rw [← hreversed]
      exact hforward.leftTurning
    · rw [← hreversed]
      exact List.pairwise_reverse.mpr hback.inOrder
    · rw [← hreversed]
      exact hback.leftTurning

/-- The corners are a loop, or the ordered points themselves where these are fewer than two. -/
theorem corners_cases (points : List (Point ℝ)) :
    (ordered points).length ≤ 1 ∧ corners points = ordered points ∨
      ∃ first last lower upper, (ordered points).head? = some first ∧
        (ordered points).getLast? = some last ∧ corners points = first :: lower ++ last :: upper ∧
          Loop first last lower upper := by
  by_cases hlen : 2 ≤ (ordered points).length
  · have hne : ordered points ≠ [] := List.ne_nil_of_length_pos (by omega)
    have hfirst := List.head?_eq_some_head hne
    have hlast := List.getLast?_eq_some_getLast hne
    obtain ⟨lower, upper, heq, hloop⟩ := corners_eq hlen hfirst hlast
    exact Or.inr ⟨_, _, lower, upper, hfirst, hlast, heq, hloop⟩
  · exact Or.inl ⟨by omega, if_pos (by omega)⟩

/-- Any three corners, taken in order, turn left. -/
theorem leftTurning_corners (points : List (Point ℝ)) : LeftTurning (corners points) := by
  rcases corners_cases points with ⟨hlen, heq⟩ | ⟨first, last, lower, upper, _, _, heq, hloop⟩
  · exact leftTurning_of_length_le (heq ▸ hlen.trans one_le_two)
  · rw [heq]
    exact hloop.leftTurning

theorem nodup_corners (points : List (Point ℝ)) : (corners points).Nodup := by
  rcases corners_cases points with ⟨_, heq⟩ | ⟨first, last, lower, upper, _, _, heq, hloop⟩
  · rw [heq]
    exact (pairwise_ordered points).imp Before.ne
  · rw [heq]
    exact hloop.nodup

/-- The corners start with the first of the points in lexicographic order. -/
theorem head?_corners (points : List (Point ℝ)) :
    (corners points).head? = (ordered points).head? := by
  rcases corners_cases points with ⟨_, heq⟩ | ⟨first, last, lower, upper, hfirst, _, heq, hloop⟩
  · rw [heq]
  · rw [heq, hfirst]
    rfl

/-- Different points on one line have the first and the last of them as corners. -/
theorem corners_of_collinear
    (hline : ∀ p ∈ points, ∀ q ∈ points, ∀ r ∈ points, cross p q r = 0) {first last : Point ℝ}
    (hlen : 2 ≤ (ordered points).length) (hfirst : (ordered points).head? = some first)
    (hlast : (ordered points).getLast? = some last) : corners points = [first, last] := by
  obtain ⟨lower, upper, heq, hloop⟩ := corners_eq hlen hfirst hlast
  have hmem : ∀ p ∈ first :: lower ++ last :: upper, p ∈ points := fun p hp =>
    mem_of_mem_corners (heq ▸ hp)
  have hfirstmem := hmem first (by simp)
  have hlastmem := hmem last (by simp)
  have hupper : upper = [] := by
    apply List.eq_nil_iff_forall_not_mem.mpr
    intro p hp
    have hturn := hloop.cross_upper hp
    rw [hline first hfirstmem last hlastmem p (hmem p (by simp [hp]))] at hturn
    exact lt_irrefl 0 hturn
  have hlower : lower = [] := by
    apply List.eq_nil_iff_forall_not_mem.mpr
    intro p hp
    have hturn := hloop.opposite.cross_upper (List.mem_map_of_mem hp)
    rw [cross_opposite, hline last hlastmem first hfirstmem p (hmem p (by simp [hp]))] at hturn
    exact lt_irrefl 0 hturn
  rw [heq, hlower, hupper]
  rfl

/-- A single point, however often it is given, is its own hull. -/
theorem corners_of_single {p : Point ℝ} (hp : p ∈ points) (hall : ∀ q ∈ points, q = p) :
    corners points = [p] := by
  have heq : ∀ v ∈ corners points, v = p := fun v hv => hall v (mem_of_mem_corners hv)
  have hhead := head?_corners points
  rw [List.head?_eq_some_head (ordered_ne_nil (List.ne_nil_of_mem hp))] at hhead
  have hnodup := nodup_corners points
  match corners points, heq, hhead, hnodup with
  | [v], heq, _, _ => rw [heq v List.mem_cons_self]
  | v :: w :: rest, heq, _, hnodup =>
      have hv := heq v List.mem_cons_self
      have hw := heq w (List.mem_cons_of_mem v List.mem_cons_self)
      rw [hv, hw] at hnodup
      exact absurd List.mem_cons_self (List.nodup_cons.mp hnodup).1

end Corners

end Hull

end PackedDrawing
