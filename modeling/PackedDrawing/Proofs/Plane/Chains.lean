import PackedDrawing.Proofs.Plane.Support

/-!
# Chains turn left

A point is added to a chain once the last corner of the chain turns left to it. Since the points are
taken in order, the path then turns left not only at the last corner but through any two of its
corners to the new point, so any three corners of a chain, taken in order, turn left.

## Main definitions

* `Point.LeftTurning`: any three points of a list, taken in order, turn left.
* `Hull.Bends`: left turns over three consecutive steps in an order are left turns altogether.
* `Hull.Advancing`: the invariant of a chain.

## Main statements

* `Hull.bends_lower`, `Hull.bends_upper`: the two orders in which chains are built bend.
* `Hull.advancing_chain`: a chain advances in its order and turns left.
-/

namespace PackedDrawing

namespace Point

section Cross

variable (a b c : Point ℝ)

theorem cross_rotate : cross b c a = cross a b c := by
  simp only [cross]
  ring

theorem cross_swap : cross b a c = -cross a b c := by
  simp only [cross]
  ring

theorem cross_start : cross a b a = 0 := by
  simp only [cross]
  ring

theorem cross_stop : cross a b b = 0 := by
  simp only [cross]
  ring

end Cross

/-- Any three points of a list, taken in order, turn left. -/
def LeftTurning (ps : List (Point ℝ)) : Prop :=
  ∀ a b c, [a, b, c].Sublist ps → 0 < cross a b c

section LeftTurning

variable {ps qs : List (Point ℝ)} {a b c p : Point ℝ}

theorem LeftTurning.sublist (h : LeftTurning qs) (hsub : ps.Sublist qs) : LeftTurning ps :=
  fun a b c habc => h a b c (habc.trans hsub)

theorem leftTurning_of_length_le (h : ps.length ≤ 2) : LeftTurning ps := by
  intro a b c hsub
  have hle := hsub.length_le
  simp only [List.length_cons, List.length_nil] at hle
  omega

theorem leftTurning_cons_iff :
    LeftTurning (p :: ps) ↔ ps.Pairwise (fun a b => 0 < cross p a b) ∧ LeftTurning ps := by
  constructor
  · intro h
    refine ⟨List.pairwise_iff_forall_sublist.mpr ?_, h.sublist (List.sublist_cons_self p ps)⟩
    intro a b hab
    exact h p a b (hab.cons_cons p)
  · rintro ⟨hfirst, hrest⟩ a b c hsub
    cases hsub with
    | cons _ hsub => exact hrest a b c hsub
    | cons_cons _ hsub => exact List.pairwise_iff_forall_sublist.mp hfirst hsub

theorem leftTurning_append_singleton_iff :
    LeftTurning (ps ++ [p]) ↔ ps.Pairwise (fun a b => 0 < cross a b p) ∧ LeftTurning ps := by
  induction ps with
  | nil =>
      rw [List.nil_append]
      have hshort : ∀ l : List (Point ℝ), l.length ≤ 1 → LeftTurning l := fun l hl =>
        leftTurning_of_length_le (hl.trans one_le_two)
      exact iff_of_true (hshort [p] le_rfl) ⟨List.Pairwise.nil, hshort [] (Nat.zero_le 1)⟩
  | cons q rest ih =>
      have hlast : (rest ++ [p]).Pairwise (fun a b => 0 < cross q a b) ↔
          rest.Pairwise (fun a b => 0 < cross q a b) ∧ ∀ a ∈ rest, 0 < cross q a p := by
        simp [List.pairwise_append]
      rw [List.cons_append, leftTurning_cons_iff, leftTurning_cons_iff, ih, hlast,
        List.pairwise_cons]
      tauto

/-- Where a list that turns left starts does not matter when it is read around. -/
theorem LeftTurning.rotated (h : LeftTurning (p :: ps)) : LeftTurning (ps ++ [p]) := by
  obtain ⟨hfirst, hrest⟩ := leftTurning_cons_iff.mp h
  refine leftTurning_append_singleton_iff.mpr ⟨hfirst.imp ?_, hrest⟩
  intro a b hab
  rwa [cross_rotate]

end LeftTurning

end Point

namespace Hull

open Point

/-- Of four points in order, two left turns in a row are left turns when a point between is left
out. -/
def Bends (before : Point ℝ → Point ℝ → Prop) : Prop :=
  ∀ a b c d, before a b → before b c → before c d → 0 < cross a b c → 0 < cross b c d →
    0 < cross a b d ∧ 0 < cross a c d

theorem bends_lower : Bends Before := by
  intro a b c d hab hbc hcd habc hbcd
  have habx := hab.x_le
  have hcdx := hcd.x_le
  -- the step between the two turns is not vertical, else the path could only turn right after it
  have hstep : b.x < c.x := by
    rcases hbc with hx | ⟨hx, hy⟩
    · exact hx
    · have hdx : b.x ≤ d.x := hx.trans_le hcdx
      have hturn : cross b c d = -((c.y - b.y) * (d.x - b.x)) := by
        simp only [cross, hx]
        ring
      have hnonneg : 0 ≤ (c.y - b.y) * (d.x - b.x) := mul_nonneg (by linarith) (by linarith)
      linarith
  have hskipThird : (c.x - b.x) * cross a b d =
      (d.x - b.x) * cross a b c + (b.x - a.x) * cross b c d := by
    simp only [cross]
    ring
  have hskipSecond : (c.x - b.x) * cross a c d =
      (d.x - c.x) * cross a b c + (c.x - a.x) * cross b c d := by
    simp only [cross]
    ring
  have hpos : 0 < c.x - b.x := by linarith
  constructor
  · rw [← mul_pos_iff_of_pos_left hpos, hskipThird]
    have hfirst : 0 < (d.x - b.x) * cross a b c := mul_pos (by linarith) habc
    have hsecond : 0 ≤ (b.x - a.x) * cross b c d := mul_nonneg (by linarith) hbcd.le
    linarith
  · rw [← mul_pos_iff_of_pos_left hpos, hskipSecond]
    have hfirst : 0 ≤ (d.x - c.x) * cross a b c := mul_nonneg (by linarith) habc.le
    have hsecond : 0 < (c.x - a.x) * cross b c d := mul_pos (by linarith) hbcd
    linarith

/-- The upper chain is the lower one of the opposite points. -/
theorem bends_upper : Bends fun p q => Before q p := by
  intro a b c d hab hbc hcd habc hbcd
  have hbends := bends_lower a.opposite b.opposite c.opposite d.opposite (before_opposite hab)
    (before_opposite hbc) (before_opposite hcd)
  simp only [cross_opposite] at hbends
  exact hbends habc hbcd

/-- A chain stands in an order, with its last corner in front, and turns left. -/
structure Advancing (before : Point ℝ → Point ℝ → Prop) (c : List (Point ℝ)) : Prop where
  inOrder : c.Pairwise fun u v => before v u
  leftTurning : LeftTurning c.reverse

section Chains

variable {before : Point ℝ → Point ℝ → Prop} {c pts : List (Point ℝ)} {p : Point ℝ}

/-- A point to which the last corner turns left is turned to from any two corners. -/
theorem Advancing.pairwise_cross (hbends : Bends before) {a b : Point ℝ} {rest : List (Point ℝ)}
    (hc : Advancing before (b :: a :: rest)) (hp : ∀ u ∈ b :: a :: rest, before u p)
    (hturn : 0 < cross a b p) :
    (b :: a :: rest).Pairwise fun v u => 0 < cross u v p := by
  have hleft : ∀ u v w, [w, v, u].Sublist (b :: a :: rest) → 0 < cross u v w := fun u v w hsub =>
    hc.leftTurning u v w hsub.reverse
  have horder := List.pairwise_cons.mp hc.inOrder
  have hrest := List.pairwise_cons.mp horder.2
  have hpa := hp a (List.mem_cons_of_mem b List.mem_cons_self)
  have hpb := hp b List.mem_cons_self
  have hba := horder.1 a List.mem_cons_self
  -- from a corner further back the path turns left at each of the last two
  have hback : ∀ u ∈ rest, 0 < cross u a p ∧ 0 < cross u b p := by
    intro u hu
    have hsub : [b, a, u].Sublist (b :: a :: rest) :=
      ((List.singleton_sublist.mpr hu).cons_cons a).cons_cons b
    exact hbends u a b p (hrest.1 u hu) hba hpb (hleft u a b hsub) hturn
  refine List.pairwise_cons.mpr ⟨?_, List.pairwise_cons.mpr ⟨fun u hu => (hback u hu).1, ?_⟩⟩
  · intro u hu
    rcases List.mem_cons.mp hu with rfl | hu
    · exact hturn
    · exact (hback u hu).2
  · rw [List.pairwise_iff_forall_sublist]
    intro v u hvu
    have hv : v ∈ rest := hvu.subset List.mem_cons_self
    have huv := List.pairwise_iff_forall_sublist.mp hrest.2 hvu
    have hsub : [a, v, u].Sublist (b :: a :: rest) := (hvu.cons_cons a).cons b
    exact (hbends u v a p huv (hrest.1 v hv) hpa (hleft u v a hsub) (hback v hv).1).1

/-- One step of building a chain. -/
theorem Advancing.extend (hbends : Bends before) (hc : Advancing before c)
    (hp : ∀ u ∈ c, before u p) : Advancing before (extend c p) := by
  refine ⟨pairwise_extend hc.inOrder hp, ?_⟩
  fun_induction Hull.extend c p with
  | case1 b a rest p hle ih =>
      have hshort : Advancing before (a :: rest) := by
        refine ⟨hc.inOrder.of_cons, hc.leftTurning.sublist ?_⟩
        exact (List.sublist_cons_self b (a :: rest)).reverse
      exact ih hshort fun u hu => hp u (List.mem_cons_of_mem b hu)
  | case2 b a rest p hle =>
      have hturn : 0 < cross a b p := by simpa using hle
      rw [List.reverse_cons]
      refine leftTurning_append_singleton_iff.mpr ⟨?_, hc.leftTurning⟩
      exact List.pairwise_reverse.mpr (hc.pairwise_cross hbends hp hturn)
  | case3 c p hc' =>
      apply leftTurning_of_length_le
      rcases c with _ | ⟨b, _ | ⟨a, rest⟩⟩
      · exact one_le_two
      · exact le_rfl
      · exact (hc' b a rest rfl).elim

theorem Advancing.foldl_extend (hbends : Bends before) (hc : Advancing before c)
    (hpts : pts.Pairwise before) (hbefore : ∀ u ∈ c, ∀ q ∈ pts, before u q) :
    Advancing before (pts.foldl Hull.extend c) := by
  induction pts generalizing c with
  | nil => exact hc
  | cons q rest ih =>
      have hq : ∀ u ∈ c, before u q := fun u hu => hbefore u hu q List.mem_cons_self
      apply ih (hc.extend hbends hq) hpts.of_cons
      intro u hu r hr
      rcases mem_extend hu with rfl | hu
      · exact List.rel_of_pairwise_cons hpts hr
      · exact hbefore u hu r (List.mem_cons_of_mem q hr)

/-- A chain through points in order advances in their order and turns left. -/
theorem advancing_chain (hbends : Bends before) (hpts : pts.Pairwise before) :
    Advancing before (chain pts) := by
  have hnil : Advancing before [] := ⟨List.Pairwise.nil, leftTurning_of_length_le (Nat.zero_le 2)⟩
  apply hnil.foldl_extend hbends hpts
  intro u hu
  cases hu

end Chains

end Hull

end PackedDrawing
