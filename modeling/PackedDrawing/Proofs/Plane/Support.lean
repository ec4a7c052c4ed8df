import PackedDrawing.Proofs.Plane.Order
import PackedDrawing.Proofs.Plane.Span

/-!
# The corners of the hull span all points

A corner is removed from a chain only where the chain does not turn left. No linear form that falls
with y is then larger at the removed corner than at both of its neighbours in the lower chain, and
likewise for forms that rise with y in the upper chain. So every linear form is largest at a corner.

## Implementation notes

The statements on chains are about an arbitrary function on points and an arbitrary order, related
by `Pops`; the two chains are the two instances.
-/

namespace PackedDrawing

namespace Hull

open Point

/-- A function is nowhere larger at a removed corner than at both of its neighbours. -/
def Pops (before : Point ℝ → Point ℝ → Prop) (f : Point ℝ → ℝ) : Prop :=
  ∀ a b p, before a b → before b p → cross a b p ≤ 0 → f b ≤ max (f a) (f p)

/-- Of points in order, the middle one lies on the far side of the line through the others when they
do not turn left. -/
theorem pops_lower {a b : ℝ} (hb : b ≤ 0) : Pops Before (form a b) := by
  intro u v w huv hvw hcross
  by_contra hlt
  obtain ⟨hu, hw⟩ := max_lt_iff.mp (not_le.mp hlt)
  have hsum : (w.x - v.x) * (form a b v - form a b u) + (v.x - u.x) * (form a b v - form a b w) =
      -(b * cross u v w) := by
    simp only [form, cross]
    ring
  have hnonneg : 0 ≤ b * cross u v w := mul_nonneg_of_nonpos_of_nonpos hb hcross
  have huvx := huv.x_le
  have hvwx := hvw.x_le
  rcases huv with hx | ⟨hx, hy⟩
  · have hpos : 0 < (v.x - u.x) * (form a b v - form a b w) :=
      mul_pos (by linarith) (by linarith)
    have hle : 0 ≤ (w.x - v.x) * (form a b v - form a b u) :=
      mul_nonneg (by linarith) (by linarith)
    linarith
  · -- on a vertical line the form falls from the first point to the second
    have hfall : form a b v - form a b u = b * (v.y - u.y) := by
      simp only [form, hx]
      ring
    have hle : b * (v.y - u.y) ≤ 0 := mul_nonpos_of_nonpos_of_nonneg hb (by linarith)
    linarith

/-- The upper chain is the lower one of the opposite points. -/
theorem pops_upper {a b : ℝ} (hb : 0 ≤ b) : Pops (fun p q => Before q p) (form a b) := by
  intro u v w huv hvw hcross
  have hform : ∀ p : Point ℝ, form (-a) (-b) p.opposite = form a b p := by
    intro p
    simp only [form, opposite]
    ring
  rw [← cross_opposite] at hcross
  have hle := pops_lower (a := -a) (neg_nonpos.mpr hb) _ _ _ (before_opposite huv)
    (before_opposite hvw) hcross
  rwa [hform, hform, hform] at hle

section Chains

variable {before : Point ℝ → Point ℝ → Prop} {f : Point ℝ → ℝ}

theorem mem_extend {c : List (Point ℝ)} {p v : Point ℝ} (hv : v ∈ extend c p) : v = p ∨ v ∈ c := by
  fun_induction extend c p with
  | case1 b a rest p hle ih =>
      rcases ih hv with h | h
      · exact Or.inl h
      · exact Or.inr (List.mem_cons_of_mem b h)
  | case2 b a rest p hle => exact List.mem_cons.mp hv
  | case3 c p hc' => exact List.mem_cons.mp hv

theorem pairwise_extend {c : List (Point ℝ)} {p : Point ℝ}
    (hc : c.Pairwise fun u v => before v u) (hp : ∀ u ∈ c, before u p) :
    (extend c p).Pairwise fun u v => before v u := by
  fun_induction extend c p with
  | case1 b a rest p hle ih =>
      exact ih hc.of_cons fun u hu => hp u (List.mem_cons_of_mem b hu)
  | case2 b a rest p hle => exact List.pairwise_cons.mpr ⟨hp, hc⟩
  | case3 c p hc' => exact List.pairwise_cons.mpr ⟨hp, hc⟩

/-- What a chain loses when it is extended is exceeded by what it keeps. -/
theorem extend_support (hpops : Pops before f) {c : List (Point ℝ)} {p : Point ℝ}
    (hc : c.Pairwise fun u v => before v u) (hp : ∀ u ∈ c, before u p) :
    ∀ q ∈ p :: c, ∃ v ∈ extend c p, f q ≤ f v := by
  fun_induction extend c p with
  | case1 b a rest p hle ih =>
      have hnext := ih hc.of_cons fun u hu => hp u (List.mem_cons_of_mem b hu)
      intro q hq
      rcases List.mem_cons.mp hq with rfl | hq
      · exact hnext _ List.mem_cons_self
      · rcases List.mem_cons.mp hq with rfl | hq
        · have hab : before a q := List.rel_of_pairwise_cons hc List.mem_cons_self
          have hturn : cross a q p ≤ 0 := by simpa using hle
          have hmax := hpops a q p hab (hp q List.mem_cons_self) hturn
          rcases le_max_iff.mp hmax with ha | hpv
          · obtain ⟨v, hv, hle'⟩ := hnext a (List.mem_cons_of_mem p List.mem_cons_self)
            exact ⟨v, hv, ha.trans hle'⟩
          · obtain ⟨v, hv, hle'⟩ := hnext p List.mem_cons_self
            exact ⟨v, hv, hpv.trans hle'⟩
        · exact hnext q (List.mem_cons_of_mem p hq)
  | case2 b a rest p hle => exact fun q hq => ⟨q, hq, le_rfl⟩
  | case3 c p hc' => exact fun q hq => ⟨q, hq, le_rfl⟩

/-- The invariant of a chain while points are taken in: it stands in order, and whatever was taken in
is exceeded by one of its corners. -/
theorem foldl_extend_support (hpops : Pops before f) {pts c : List (Point ℝ)}
    (hc : c.Pairwise fun u v => before v u) (hpts : pts.Pairwise before)
    (hbefore : ∀ u ∈ c, ∀ p ∈ pts, before u p) :
    ∀ q, q ∈ c ∨ q ∈ pts → ∃ v ∈ pts.foldl extend c, f q ≤ f v := by
  induction pts generalizing c with
  | nil =>
      rintro q (hq | hq)
      · exact ⟨q, hq, le_rfl⟩
      · cases hq
  | cons p rest ih =>
      have hp : ∀ u ∈ c, before u p := fun u hu => hbefore u hu p List.mem_cons_self
      have hnext := @ih (extend c p) (pairwise_extend hc hp) hpts.of_cons (by
        intro u hu r hr
        rcases mem_extend hu with rfl | hu
        · exact List.rel_of_pairwise_cons hpts hr
        · exact hbefore u hu r (List.mem_cons_of_mem p hr))
      have hkept := extend_support hpops hc hp
      rintro q (hq | hq)
      · obtain ⟨v, hv, hle⟩ := hkept q (List.mem_cons_of_mem p hq)
        obtain ⟨w, hw, hle'⟩ := hnext v (Or.inl hv)
        exact ⟨w, hw, hle.trans hle'⟩
      · rcases List.mem_cons.mp hq with rfl | hq
        · obtain ⟨v, hv, hle⟩ := hkept q List.mem_cons_self
          obtain ⟨w, hw, hle'⟩ := hnext v (Or.inl hv)
          exact ⟨w, hw, hle.trans hle'⟩
        · exact hnext q (Or.inr hq)

theorem chain_support (hpops : Pops before f) {pts : List (Point ℝ)}
    (hpts : pts.Pairwise before) : ∀ q ∈ pts, ∃ v ∈ chain pts, f q ≤ f v := by
  intro q hq
  refine foldl_extend_support hpops List.Pairwise.nil hpts ?_ q (Or.inr hq)
  intro u hu
  cases hu

theorem mem_of_mem_foldl_extend {pts c : List (Point ℝ)} {v : Point ℝ}
    (hv : v ∈ pts.foldl extend c) : v ∈ c ∨ v ∈ pts := by
  induction pts generalizing c with
  | nil => exact Or.inl hv
  | cons p rest ih =>
      rcases ih hv with h | h
      · rcases mem_extend h with rfl | h
        · exact Or.inr List.mem_cons_self
        · exact Or.inl h
      · exact Or.inr (List.mem_cons_of_mem p h)

theorem mem_of_mem_chain {pts : List (Point ℝ)} {v : Point ℝ} (hv : v ∈ chain pts) : v ∈ pts := by
  rcases mem_of_mem_foldl_extend hv with h | h
  · cases h
  · exact h

end Chains

/-- The first corner of a chain is never removed. -/
theorem extend_keeps_first {c : List (Point ℝ)} (hc : c ≠ []) (p : Point ℝ) :
    ∃ tail, extend c p = p :: tail ∧ tail.getLast? = c.getLast? ∧ tail ≠ [] := by
  fun_induction extend c p with
  | case1 b a rest p hle ih =>
      obtain ⟨tail, heq, hlast, hne⟩ := ih (List.cons_ne_nil a rest)
      exact ⟨tail, heq, by rw [hlast, List.getLast?_cons_cons], hne⟩
  | case2 b a rest p hle => exact ⟨b :: a :: rest, rfl, rfl, List.cons_ne_nil b _⟩
  | case3 c p hc' => exact ⟨c, rfl, rfl, hc⟩

theorem foldl_extend_ends {pts c : List (Point ℝ)} (hpts : pts ≠ []) (hc : c ≠ []) :
    ∃ tail, pts.foldl extend c = pts.getLast hpts :: tail ∧ tail.getLast? = c.getLast? := by
  induction pts generalizing c with
  | nil => exact absurd rfl hpts
  | cons p rest ih =>
      obtain ⟨tail, heq, hlast, htail⟩ := extend_keeps_first hc p
      by_cases hrest : rest = []
      · subst hrest
        exact ⟨tail, heq, hlast⟩
      · have hne : extend c p ≠ [] := heq ▸ List.cons_ne_nil p tail
        obtain ⟨tail', heq', hlast'⟩ := ih hrest hne
        refine ⟨tail', by rw [List.foldl_cons, heq', List.getLast_cons hrest], ?_⟩
        obtain ⟨t, ts, rfl⟩ := List.exists_cons_of_ne_nil htail
        rw [hlast', heq, List.getLast?_cons_cons, hlast]

/-- A chain through two points or more leads from the first to the last of them. -/
theorem chain_eq {pts : List (Point ℝ)} {first last : Point ℝ} (hlen : 2 ≤ pts.length)
    (hfirst : pts.head? = some first) (hlast : pts.getLast? = some last) :
    ∃ between, chain pts = last :: (between ++ [first]) := by
  obtain ⟨s, rest, rfl⟩ := List.exists_cons_of_length_pos (l := pts) (by omega)
  have hrest : rest ≠ [] := by
    rintro rfl
    simp at hlen
  obtain ⟨tail, heq, htail⟩ := foldl_extend_ends hrest (List.cons_ne_nil s [])
  obtain rfl : s = first := Option.some.inj hfirst
  rw [List.getLast?_eq_some_getLast (List.cons_ne_nil _ _), List.getLast_cons hrest] at hlast
  obtain ⟨between, hbetween⟩ := List.getLast?_eq_some_iff.mp htail
  refine ⟨between, ?_⟩
  rw [chain, List.foldl_cons, extend_nil, heq, Option.some.inj hlast, hbetween]
  rfl

/-- No corner of either chain is left out of the hull. -/
theorem mem_corners_of_mem_chain {points : List (Point ℝ)} (hlen : 2 ≤ (ordered points).length)
    {v : Point ℝ} (hv : v ∈ chain (ordered points) ∨ v ∈ chain (ordered points).reverse) :
    v ∈ corners points := by
  have hne : ordered points ≠ [] := by
    intro h
    simp [h] at hlen
  by_cases hfew : (ordered points).length ≤ 2
  · rw [corners, if_pos hfew]
    rcases hv with hv | hv
    · exact mem_of_mem_chain hv
    · exact List.mem_reverse.mp (mem_of_mem_chain hv)
  · rw [corners, if_neg hfew, List.mem_append, List.mem_reverse, List.mem_reverse]
    have hfirst := List.head?_eq_some_head hne
    have hlast := List.getLast?_eq_some_getLast hne
    obtain ⟨lower, hlower⟩ := chain_eq hlen hfirst hlast
    have hlength : 2 ≤ (ordered points).reverse.length := by rwa [List.length_reverse]
    obtain ⟨upper, hupper⟩ := chain_eq hlength (List.head?_reverse.trans hlast)
      (List.getLast?_reverse.trans hfirst)
    rw [hlower, hupper, List.tail_cons, List.tail_cons]
    rw [hlower, hupper] at hv
    rcases hv with hv | hv
    · rcases List.mem_cons.mp hv with rfl | hv
      · exact Or.inr (List.mem_append_right upper List.mem_cons_self)
      · exact Or.inl hv
    · rcases List.mem_cons.mp hv with rfl | hv
      · exact Or.inl (List.mem_append_right lower List.mem_cons_self)
      · exact Or.inr hv

theorem mem_of_mem_corners {points : List (Point ℝ)} {v : Point ℝ} (hv : v ∈ corners points) :
    v ∈ points := by
  rw [corners] at hv
  split at hv
  · exact mem_ordered_iff.mp hv
  · rw [List.mem_append, List.mem_reverse, List.mem_reverse] at hv
    rcases hv with hv | hv
    · exact mem_ordered_iff.mp (mem_of_mem_chain (List.mem_of_mem_tail hv))
    · have hmem := mem_of_mem_chain (List.mem_of_mem_tail hv)
      exact mem_ordered_iff.mp (List.mem_reverse.mp hmem)

/-- Every linear form is largest at a corner. -/
theorem corners_support {points : List (Point ℝ)} (a b : ℝ) {p : Point ℝ} (hp : p ∈ points) :
    ∃ v ∈ corners points, form a b p ≤ form a b v := by
  have hmem := mem_ordered_iff.mpr hp
  by_cases hlen : 2 ≤ (ordered points).length
  · rcases le_total b 0 with hb | hb
    · obtain ⟨v, hv, hle⟩ := chain_support (pops_lower hb) (pairwise_ordered points) p hmem
      exact ⟨v, mem_corners_of_mem_chain hlen (Or.inl hv), hle⟩
    · have hrev := List.pairwise_reverse.mpr (pairwise_ordered points)
      obtain ⟨v, hv, hle⟩ := chain_support (pops_upper hb) hrev p (List.mem_reverse.mpr hmem)
      exact ⟨v, mem_corners_of_mem_chain hlen (Or.inr hv), hle⟩
  · rw [corners, if_pos (by omega)]
    exact ⟨p, hmem, le_rfl⟩

/-- The corners of the hull span exactly what the points span. -/
theorem sameHull_corners (points : List (Point ℝ)) : SameHull (corners points) points :=
  sameHull_of_support (fun _ => mem_of_mem_corners) fun a b _ => corners_support a b

end Hull

end PackedDrawing
