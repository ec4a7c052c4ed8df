import Mathlib.Analysis.Convex.Extreme
import Mathlib.Analysis.Convex.Join
import PackedDrawing.Proofs.Plane.Corners
import PackedDrawing.Plane.Polygon

/-!
# The corners are the extreme points

An edge of a polygon leads from a vertex to the next one when going around, so that at a hull, which
turns left wherever one starts, all points are on the left of each edge, and each corner is the only
farthest point in some direction.

## Main definitions

* `Polygon.Surrounds`: what the convex hull of points is.

## Main statements

* `Polygon.mem_edges_iff`: where the edges of a polygon are.
* `Hull.cross_nonneg_of_edge`: all points are on the left of an edge of their hull.
* `Hull.extremePoints_eq`: the corners are the extreme points of what the points span.
* `Polygon.hull_surrounds`: the hull is right for all lists of points, those on one line included.
-/

namespace PackedDrawing

namespace Polygon

section Edges

variable {β : Type} {vs : List (Point β)}

theorem edges_eq_zip (vs : List (Point β)) : (⟨vs⟩ : Polygon β).edges = vs.zip (vs.rotate 1) := by
  cases vs with
  | nil => rfl
  | cons v rest => rw [List.rotate_cons_succ, List.rotate_zero, edges]

theorem edges_rotate (vs : List (Point β)) (n : Nat) :
    (⟨vs.rotate n⟩ : Polygon β).edges = (⟨vs⟩ : Polygon β).edges.rotate n := by
  rw [edges_eq_zip, edges_eq_zip, List.rotate_rotate, Nat.add_comm, ← List.rotate_rotate,
    List.zip_eq_zipWith, List.zip_eq_zipWith]
  exact (List.zipWith_rotate_distrib Prod.mk vs (vs.rotate 1) n (List.length_rotate vs 1).symm).symm

/-- A polygon can be read around from any vertex. -/
theorem exists_isRotated_of_mem {v : Point β} (hv : v ∈ vs) : ∃ rest, vs.IsRotated (v :: rest) := by
  obtain ⟨before, after, rfl⟩ := List.append_of_mem hv
  exact ⟨after ++ before, List.isRotated_append⟩

theorem mem_vertices_of_mem_edges {p : Polygon β} {e : Point β × Point β} (he : e ∈ p.edges) :
    e.1 ∈ p.vertices ∧ e.2 ∈ p.vertices := by
  obtain ⟨vs⟩ := p
  rw [edges_eq_zip] at he
  obtain ⟨hfirst, hsecond⟩ := List.of_mem_zip he
  exact ⟨hfirst, List.mem_rotate.mp hsecond⟩

/-- An edge leads from a vertex to the next one when going around. -/
theorem mem_edges_iff (hlen : 2 ≤ vs.length) {e : Point β × Point β} :
    e ∈ (⟨vs⟩ : Polygon β).edges ↔ ∃ rest, vs.IsRotated (e.1 :: e.2 :: rest) := by
  constructor
  · intro he
    obtain ⟨i, hi, heq⟩ := List.getElem_of_mem he
    obtain ⟨a, tail, htail⟩ := List.exists_cons_of_length_pos (l := vs.rotate i) (by
      rw [List.length_rotate]
      omega)
    obtain ⟨b, rest, rfl⟩ := List.exists_cons_of_length_pos (l := tail) (by
      have hlength := congrArg List.length htail
      rw [List.length_rotate, List.length_cons] at hlength
      omega)
    have hhead := congrArg List.head? (edges_rotate vs i)
    rw [List.head?_rotate hi, List.getElem?_eq_getElem hi, heq, htail] at hhead
    obtain rfl : (a, b) = e := Option.some.inj hhead
    exact ⟨rest, i, htail⟩
  · rintro ⟨rest, n, hn⟩
    have hmem : e ∈ (⟨e.1 :: e.2 :: rest⟩ : Polygon β).edges := List.mem_cons_self
    rwa [← hn, edges_rotate, List.mem_rotate] at hmem

end Edges

end Polygon

namespace Point

section Extreme

variable {v : Point ℝ} {others : List (Point ℝ)} {a b : ℝ}

/-- Where a linear form is largest at one point only, it is smaller everywhere else in what the
points span. -/
theorem eq_or_form_lt (h : ∀ u ∈ others, form a b u < form a b v) {q : ℝ × ℝ}
    (hq : q ∈ hullSet (v :: others)) : q = pair v ∨ a * q.1 + b * q.2 < form a b v := by
  have hset : pair '' {p | p ∈ v :: others} = insert (pair v) (pair '' {p | p ∈ others}) := by
    rw [← Set.image_insert_eq]
    congr 1
    ext p
    exact List.mem_cons
  rw [hullSet, hset] at hq
  rcases (pair '' {p | p ∈ others}).eq_empty_or_nonempty with hempty | hne
  · rw [hempty, insert_empty_eq, convexHull_singleton] at hq
    exact Or.inl hq
  · rw [convexHull_insert hne, mem_convexJoin] at hq
    obtain ⟨_, rfl, r, hr, s, t, hs, ht, hst, rfl⟩ := hq
    have hless : a * r.1 + b * r.2 < form a b v := form_lt_of_mem_hullSet h hr
    rcases ht.eq_or_lt with rfl | hpos
    · left
      rw [add_zero] at hst
      rw [hst, one_smul, zero_smul, add_zero]
    · right
      have hvalue : a * (s • pair v + t • r).1 + b * (s • pair v + t • r).2 =
          (s + t) * form a b v - t * (form a b v - (a * r.1 + b * r.2)) := by
        simp only [Prod.fst_add, Prod.snd_add, Prod.smul_fst, Prod.smul_snd, smul_eq_mul, pair,
          form]
        ring
      have hfall := mul_pos hpos (sub_pos.mpr hless)
      rw [hvalue, hst, one_mul]
      linarith

theorem pair_mem_extremePoints (h : ∀ u ∈ others, form a b u < form a b v) :
    pair v ∈ (hullSet (v :: others)).extremePoints ℝ := by
  rw [mem_extremePoints_iff_left]
  refine ⟨pair_mem_hullSet List.mem_cons_self, ?_⟩
  intro q hq r hr hvqr
  rcases eq_or_form_lt h hq with heq | hlt
  · exact heq
  · obtain ⟨s, t, hs, ht, hst, heq⟩ := hvqr
    have hvalue : s * (a * q.1 + b * q.2) + t * (a * r.1 + b * r.2) = form a b v := by
      have hx := congrArg Prod.fst heq
      have hy := congrArg Prod.snd heq
      simp only [Prod.fst_add, Prod.snd_add, Prod.smul_fst, Prod.smul_snd, smul_eq_mul, pair]
        at hx hy
      rw [form, ← hx, ← hy]
      ring
    have hrle : a * r.1 + b * r.2 ≤ form a b v := by
      rcases eq_or_form_lt h hr with rfl | hlt
      · exact le_rfl
      · exact hlt.le
    have hsum : s * (a * q.1 + b * q.2) + t * (a * r.1 + b * r.2) < (s + t) * form a b v := by
      rw [add_mul]
      exact add_lt_add_of_lt_of_le (mul_lt_mul_of_pos_left hlt hs)
        (mul_le_mul_of_nonneg_left hrle ht.le)
    rw [hvalue, hst, one_mul] at hsum
    exact absurd hsum (lt_irrefl _)

/-- Where a list turns left at a point, a direction in which its two neighbours are nearer has all
points between them nearer. -/
theorem LeftTurning.form_lt_between {q w u : Point ℝ} {between : List (Point ℝ)}
    (h : LeftTurning (v :: q :: (between ++ [w]))) (hq : form a b q < form a b v)
    (hw : form a b w < form a b v) (hu : u ∈ between) : form a b u < form a b v := by
  have hsingle : [u].Sublist between := List.singleton_sublist.mpr hu
  have hqw : 0 < cross v q w :=
    h v q w (((List.sublist_append_right between [w]).cons_cons q).cons_cons v)
  have hqu : 0 < cross v q u := by
    apply h
    exact ((hsingle.trans (List.sublist_append_left between [w])).cons_cons q).cons_cons v
  have huw : 0 < cross v u w := by
    apply h
    exact ((hsingle.append (List.Sublist.refl [w])).cons q).cons_cons v
  have hsplit : cross v q w * (form a b u - form a b v) =
      cross v u w * (form a b q - form a b v) + cross v q u * (form a b w - form a b v) := by
    simp only [form, cross]
    ring
  have hone := mul_neg_of_pos_of_neg huw (sub_neg.mpr hq)
  have htwo := mul_neg_of_pos_of_neg hqu (sub_neg.mpr hw)
  have hproduct : cross v q w * (form a b u - form a b v) < 0 := by
    rw [hsplit]
    exact add_neg hone htwo
  exact sub_neg.mp ((pos_iff_neg_of_mul_neg hproduct).mp hqw)

/-- A point at which a list turns left is the farthest one across the line through its
neighbours. -/
theorem LeftTurning.exists_form_lt (h : LeftTurning (v :: others)) (hnodup : (v :: others).Nodup) :
    ∃ a b, ∀ u ∈ others, form a b u < form a b v := by
  match others, h, hnodup with
  | [], _, _ => exact ⟨0, 0, fun u hu => absurd hu List.not_mem_nil⟩
  | [q], _, hnodup =>
      refine ⟨v.x - q.x, v.y - q.y, ?_⟩
      intro u hu
      obtain rfl := List.mem_singleton.mp hu
      have hne : v ≠ u := fun heq => (List.nodup_cons.mp hnodup).1 (heq ▸ List.mem_cons_self)
      have hdiff : form (v.x - u.x) (v.y - u.y) v - form (v.x - u.x) (v.y - u.y) u =
          (v.x - u.x) ^ 2 + (v.y - u.y) ^ 2 := by
        simp only [form]
        ring
      have hpos := sum_sq_sub_pos hne
      linarith
  | q :: r :: rest, h, _ =>
      obtain ⟨between, w, hbetween⟩ : ∃ between w, r :: rest = between ++ [w] :=
        ⟨_, _, (List.dropLast_append_getLast (List.cons_ne_nil r rest)).symm⟩
      rw [hbetween] at h ⊢
      have hqw : 0 < cross v q w :=
        h v q w (((List.sublist_append_right between [w]).cons_cons q).cons_cons v)
      have hq : form (q.y - w.y) (w.x - q.x) q < form (q.y - w.y) (w.x - q.x) v := by
        simp only [form, cross] at hqw ⊢
        linarith
      have hw : form (q.y - w.y) (w.x - q.x) w < form (q.y - w.y) (w.x - q.x) v := by
        simp only [form, cross] at hqw ⊢
        linarith
      refine ⟨q.y - w.y, w.x - q.x, ?_⟩
      intro u hu
      rcases List.mem_cons.mp hu with rfl | hu
      · exact hq
      · rcases List.mem_append.mp hu with hmem | hmem
        · exact h.form_lt_between hq hw hmem
        · rw [List.mem_singleton.mp hmem]
          exact hw

end Extreme

end Point

namespace Hull

open Point

variable {points : List (Point ℝ)}

/-- All points are on the left of an edge of their hull. -/
theorem cross_nonneg_of_edge {a b : Point ℝ} {rest : List (Point ℝ)}
    (hrotated : (corners points).IsRotated (a :: b :: rest)) {p : Point ℝ} (hp : p ∈ points) :
    0 ≤ cross a b p := by
  have hturn := (leftTurning_corners points).of_isRotated hrotated
  have hcorner : ∀ v ∈ corners points, 0 ≤ cross a b v := by
    intro v hv
    rcases List.mem_cons.mp (hrotated.mem_iff.mp hv) with rfl | hv
    · exact (cross_start v b).ge
    · rcases List.mem_cons.mp hv with rfl | hv
      · exact (cross_stop a v).ge
      · exact (hturn a b v (((List.singleton_sublist.mpr hv).cons_cons b).cons_cons a)).le
  -- being on the left of a line is a bound of a linear form, and that is largest at a corner
  obtain ⟨v, hv, hle⟩ := corners_support (b.y - a.y) (a.x - b.x) hp
  have hdiff : cross a b p - cross a b v =
      form (b.y - a.y) (a.x - b.x) v - form (b.y - a.y) (a.x - b.x) p := by
    simp only [form, cross]
    ring
  have hv' := hcorner v hv
  linarith

/-- The corners are the extreme points of what the points span. -/
theorem extremePoints_eq (points : List (Point ℝ)) :
    (hullSet points).extremePoints ℝ = pair '' {v | v ∈ corners points} := by
  rw [← (sameHull_corners points : hullSet (corners points) = hullSet points)]
  apply Set.Subset.antisymm
  · exact extremePoints_convexHull_subset
  · rintro _ ⟨v, hv, rfl⟩
    obtain ⟨others, hrotated⟩ := Polygon.exists_isRotated_of_mem hv
    have hturn := (leftTurning_corners points).of_isRotated hrotated
    have hnodup := hrotated.nodup_iff.mp (nodup_corners points)
    obtain ⟨a, b, hlargest⟩ := hturn.exists_form_lt hnodup
    have hsame : hullSet (corners points) = hullSet (v :: others) :=
      sameHull_of_mem_iff fun p => hrotated.mem_iff
    rw [hsame]
    exact pair_mem_extremePoints hlargest

end Hull

namespace Polygon

open Point Hull

/-- What the convex hull of points is: some of the points, each once, the first in lexicographic
order in front. Going around, one turns left at each vertex and has all points on the left. The
vertices are the extreme points; on a line these are the first and the last point. -/
structure Surrounds (hull : Polygon ℝ) (points : List (Point ℝ)) : Prop where
  mem : ∀ v ∈ hull.vertices, v ∈ points
  nodup : hull.vertices.Nodup
  least : ∀ p ∈ points, ∃ v, hull.vertices.head? = some v ∧ (v = p ∨ Before v p)
  leftTurning : LeftTurning hull.vertices
  turns : 3 ≤ hull.size → ∀ i : Nat, i < hull.size → ∃ j k a b c, hull.succ i = .ok j ∧
    hull.succ j = .ok k ∧ hull.vertex i = .ok a ∧ hull.vertex j = .ok b ∧ hull.vertex k = .ok c ∧
      0 < cross a b c
  inside : 3 ≤ hull.size → ∀ e ∈ hull.edges, ∀ p ∈ points, 0 ≤ cross e.1 e.2 p
  extreme : pair '' {v | v ∈ hull.vertices} = (hullSet points).extremePoints ℝ
  line : (∀ p ∈ points, ∀ q ∈ points, ∀ r ∈ points, cross p q r = 0) →
    (∃ p ∈ points, ∃ q ∈ points, p ≠ q) → ∃ first ∈ points, ∃ last ∈ points,
      hull.vertices = [first, last] ∧
        ∀ p ∈ points, (first = p ∨ Before first p) ∧ (p = last ∨ Before p last)
  single : ∀ p ∈ points, (∀ q ∈ points, q = p) → hull.vertices = [p]
  empty : points = [] → hull.vertices = []

theorem succ_eq {vs : List (Point ℝ)} {i : Nat} (hi : i < vs.length) :
    (⟨vs⟩ : Polygon ℝ).succ i = .ok ((i + 1) % vs.length : Nat) := by
  have hne : vs ≠ [] := List.ne_nil_of_length_pos (by omega)
  rw [succ, if_neg (by simpa using hne), size, Int.fmod_eq_emod_of_nonneg _ (by omega)]
  rfl

theorem vertex_eq {vs : List (Point ℝ)} {i : Nat} (hi : i < vs.length) :
    (⟨vs⟩ : Polygon ℝ).vertex i = .ok vs[i] := by
  rw [vertex, at?_ofNat, List.getElem?_eq_getElem hi]

theorem sublist_of_three_le {β : Type} {l : List β} (h : 3 ≤ l.length) :
    [l[0], l[1], l[2]].Sublist l := by
  match l, h with
  | a :: b :: c :: rest, _ =>
      exact (((List.nil_sublist rest).cons_cons c).cons_cons b).cons_cons a

/-- The vertices at three numbers in a row, going around, turn left. -/
theorem turns_of_leftTurning {vs : List (Point ℝ)} (h : LeftTurning vs) (hlen : 3 ≤ vs.length)
    {i : Nat} (hi : i < vs.length) :
    ∃ j k a b c, (⟨vs⟩ : Polygon ℝ).succ i = .ok j ∧ (⟨vs⟩ : Polygon ℝ).succ j = .ok k ∧
      (⟨vs⟩ : Polygon ℝ).vertex i = .ok a ∧ (⟨vs⟩ : Polygon ℝ).vertex j = .ok b ∧
        (⟨vs⟩ : Polygon ℝ).vertex k = .ok c ∧ 0 < cross a b c := by
  have hj : (i + 1) % vs.length < vs.length := Nat.mod_lt _ (by omega)
  have hk : ((i + 1) % vs.length + 1) % vs.length < vs.length := Nat.mod_lt _ (by omega)
  refine ⟨_, _, _, _, _, succ_eq hi, succ_eq hj, vertex_eq hi, vertex_eq hj, vertex_eq hk, ?_⟩
  have hturn := h.of_isRotated ⟨i, rfl⟩
  have hcross := hturn _ _ _ (sublist_of_three_le (hlen.trans_eq (List.length_rotate vs i).symm))
  have hone : (1 + i) % vs.length = (i + 1) % vs.length := by rw [Nat.add_comm]
  have htwo : (2 + i) % vs.length = ((i + 1) % vs.length + 1) % vs.length := by
    rw [Nat.mod_add_mod, Nat.add_comm]
  simpa only [List.getElem_rotate, Nat.zero_add, Nat.mod_eq_of_lt hi, hone, htwo] using hcross

/-- The hull is right for all lists of points. -/
theorem hull_surrounds (points : List (Point ℝ)) : (hull points).Surrounds points := by
  constructor
  case mem => exact fun v hv => mem_of_mem_corners hv
  case nodup => exact nodup_corners points
  case least =>
    intro p hp
    have hfirst := List.head?_eq_some_head (ordered_ne_nil (List.ne_nil_of_mem hp))
    exact ⟨_, (head?_corners points).trans hfirst, head_ordered hfirst hp⟩
  case leftTurning => exact leftTurning_corners points
  case turns =>
    intro hlen i hi
    exact turns_of_leftTurning (leftTurning_corners points) hlen hi
  case inside =>
    intro hlen e he p hp
    obtain ⟨rest, hrotated⟩ := (mem_edges_iff (Nat.le_of_succ_le hlen)).mp he
    exact cross_nonneg_of_edge hrotated hp
  case extreme => exact (extremePoints_eq points).symm
  case line =>
    rintro hline ⟨p, hp, q, hq, hne⟩
    have hlen := two_le_length_of_ne (mem_ordered_iff.mpr hp) (mem_ordered_iff.mpr hq) hne
    have hnonempty := ordered_ne_nil (List.ne_nil_of_mem hp)
    have hfirst := List.head?_eq_some_head hnonempty
    have hlast := List.getLast?_eq_some_getLast hnonempty
    refine ⟨_, mem_ordered_iff.mp (List.head_mem hnonempty), _,
      mem_ordered_iff.mp (List.getLast_mem hnonempty),
      corners_of_collinear hline hlen hfirst hlast, ?_⟩
    intro r hr
    exact ⟨head_ordered hfirst hr, getLast_ordered hlast hr⟩
  case single => exact fun p hp hall => corners_of_single hp hall
  case empty =>
    rintro rfl
    exact corners_nil

end Polygon

end PackedDrawing
