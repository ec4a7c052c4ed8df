import Mathlib.Analysis.Convex.Topology
import Mathlib.Analysis.LocallyConvex.Separation
import PackedDrawing.Proofs.Reals.Ranges

/-!
# Points that span the same convex set

Two lists of points span the same convex set when their convex hulls are equal. Every linear form
then ranges over the same values on both. Conversely, some of the points span all of them as soon as
every linear form is largest at one of these.
-/

namespace PackedDrawing

namespace Point

/-- A point as a pair of real numbers. -/
def pair (p : Point ℝ) : ℝ × ℝ := (p.x, p.y)

/-- The value of a linear form at a point. -/
def form (a b : ℝ) (p : Point ℝ) : ℝ := a * p.x + b * p.y

/-- The convex hull of a list of points. -/
def hullSet (ps : List (Point ℝ)) : Set (ℝ × ℝ) := convexHull ℝ (pair '' {p | p ∈ ps})

/-- Two lists of points span the same convex set. -/
def SameHull (vs ps : List (Point ℝ)) : Prop := hullSet vs = hullSet ps

variable {vs ps : List (Point ℝ)}

theorem pair_mem_hullSet {p : Point ℝ} (hp : p ∈ ps) : pair p ∈ hullSet ps :=
  subset_convexHull ℝ _ ⟨p, hp, rfl⟩

theorem isLinearMap_form (a b : ℝ) : IsLinearMap ℝ fun q : ℝ × ℝ => a * q.1 + b * q.2 := by
  constructor
  · intro q r
    simp only [Prod.fst_add, Prod.snd_add]
    ring
  · intro c q
    simp only [Prod.smul_fst, Prod.smul_snd, smul_eq_mul]
    ring

/-- A bound of a linear form on points bounds it on everything they span. -/
theorem form_le_of_mem_hullSet {a b c : ℝ} (h : ∀ v ∈ vs, form a b v ≤ c) {q : ℝ × ℝ}
    (hq : q ∈ hullSet vs) : a * q.1 + b * q.2 ≤ c := by
  refine convexHull_min ?_ (convex_halfSpace_le (isLinearMap_form a b) c) hq
  rintro _ ⟨v, hv, rfl⟩
  exact h v hv

theorem form_lt_of_mem_hullSet {a b c : ℝ} (h : ∀ v ∈ vs, form a b v < c) {q : ℝ × ℝ}
    (hq : q ∈ hullSet vs) : a * q.1 + b * q.2 < c := by
  refine convexHull_min ?_ (convex_halfSpace_lt (isLinearMap_form a b) c) hq
  rintro _ ⟨v, hv, rfl⟩
  exact h v hv

theorem SameHull.form_le (h : SameHull vs ps) {a b c : ℝ} (hv : ∀ v ∈ vs, form a b v ≤ c) :
    ∀ p ∈ ps, form a b p ≤ c := by
  intro p hp
  have hmem : pair p ∈ hullSet vs := h ▸ pair_mem_hullSet hp
  exact form_le_of_mem_hullSet hv hmem

/-- A linear form takes its largest value on both lists. -/
theorem SameHull.form_attained (h : SameHull vs ps) {a b c : ℝ} (hv : ∃ v ∈ vs, form a b v = c)
    (hp : ∀ p ∈ ps, form a b p ≤ c) : ∃ p ∈ ps, form a b p = c := by
  by_contra hnone
  obtain ⟨v, hv, heq⟩ := hv
  have hlt : ∀ p ∈ ps, form a b p < c := by
    intro p hpm
    exact lt_of_le_of_ne (hp p hpm) fun hc => hnone ⟨p, hpm, hc⟩
  have hmem : pair v ∈ hullSet ps := h ▸ pair_mem_hullSet hv
  have hless : form a b v < c := form_lt_of_mem_hullSet hlt hmem
  exact absurd heq (ne_of_lt hless)

/-- A linear form ranges over the same values on both lists. -/
theorem SameHull.ranges (h : SameHull vs ps) {a b low high : ℝ}
    (hr : Ranges (form a b) vs low high) : Ranges (form a b) ps low high := by
  have hneg : ∀ p, form (-a) (-b) p = -(form a b p) := by
    intro p
    simp only [form]
    ring
  have hhigh := h.form_le hr.le_high
  have hlow : ∀ p ∈ ps, form (-a) (-b) p ≤ -low := by
    apply h.form_le
    intro v hv
    rw [hneg]
    exact neg_le_neg (hr.low_le v hv)
  have hlowmem : ∃ p ∈ ps, form (-a) (-b) p = -low := by
    refine h.form_attained ?_ hlow
    obtain ⟨v, hv, heq⟩ := hr.low_mem
    exact ⟨v, hv, by rw [hneg, heq]⟩
  refine ⟨?_, hhigh, ?_, h.form_attained hr.high_mem hhigh⟩
  · intro p hp
    have hle := hlow p hp
    rw [hneg] at hle
    exact neg_le_neg_iff.mp hle
  · obtain ⟨p, hp, heq⟩ := hlowmem
    rw [hneg] at heq
    exact ⟨p, hp, neg_inj.mp heq⟩

theorem finite_pair_image (ps : List (Point ℝ)) : (pair '' {p | p ∈ ps}).Finite :=
  (List.finite_toSet ps).image pair

/-- A continuous linear functional on pairs is a linear form. -/
theorem functional_eq_form (l : StrongDual ℝ (ℝ × ℝ)) (p : Point ℝ) :
    l (pair p) = form (l (1, 0)) (l (0, 1)) p := by
  have hsplit : pair p = p.x • ((1, 0) : ℝ × ℝ) + p.y • ((0, 1) : ℝ × ℝ) := by
    simp [pair]
  rw [hsplit, map_add, map_smul, map_smul, form, smul_eq_mul, smul_eq_mul]
  ring

/-- Some of the points span all of them when every linear form is largest at one of these. -/
theorem sameHull_of_support (hsub : ∀ v ∈ vs, v ∈ ps)
    (hsup : ∀ a b, ∀ p ∈ ps, ∃ v ∈ vs, form a b p ≤ form a b v) : SameHull vs ps := by
  apply Set.Subset.antisymm
  · apply convexHull_mono
    exact Set.image_mono hsub
  · refine convexHull_min ?_ (convex_convexHull ℝ _)
    rintro _ ⟨p, hp, rfl⟩
    by_contra hout
    obtain ⟨l, u, hbelow, habove⟩ := geometric_hahn_banach_closed_point (convex_convexHull ℝ _)
      ((finite_pair_image vs).isClosed_convexHull ℝ) hout
    obtain ⟨v, hv, hle⟩ := hsup (l (1, 0)) (l (0, 1)) p hp
    rw [← functional_eq_form, ← functional_eq_form] at hle
    have hlt := hbelow (pair v) (pair_mem_hullSet hv)
    linarith

theorem sameHull_of_mem_iff (h : ∀ p, p ∈ vs ↔ p ∈ ps) : SameHull vs ps := by
  have hset : {p | p ∈ vs} = {p | p ∈ ps} := Set.ext h
  rw [SameHull, hullSet, hullSet, hset]

theorem SameHull.trans {qs : List (Point ℝ)} (h : SameHull vs ps) (h' : SameHull ps qs) :
    SameHull vs qs := Eq.trans h h'

end Point

end PackedDrawing
