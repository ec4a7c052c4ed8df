import PackedDrawing.Proofs.Reals.Scalar
import PackedDrawing.Placement.Pose

/-!
# Ranges of values

The values that a function takes on the items of a list range from the least to the greatest of
them. `Ranges` says so and that both are taken, which determines them; the searches for least and
greatest scalars, the spread of a list and the ends of turned points are all read off it.
-/

namespace PackedDrawing

/-- The values of a function on the items of a list range from `low` to `high`, both of which are
taken. -/
structure Ranges {β : Type} (f : β → ℝ) (items : List β) (low high : ℝ) : Prop where
  low_le : ∀ p ∈ items, low ≤ f p
  le_high : ∀ p ∈ items, f p ≤ high
  low_mem : ∃ p ∈ items, f p = low
  high_mem : ∃ p ∈ items, f p = high

namespace Ranges

variable {β γ : Type} {f : β → ℝ} {items : List β} {low high low' high' : ℝ}

theorem unique (h : Ranges f items low high) (h' : Ranges f items low' high') :
    low = low' ∧ high = high' := by
  obtain ⟨p, hp, hlow⟩ := h.low_mem
  obtain ⟨p', hp', hlow'⟩ := h'.low_mem
  obtain ⟨q, hq, hhigh⟩ := h.high_mem
  obtain ⟨q', hq', hhigh'⟩ := h'.high_mem
  constructor
  · apply le_antisymm
    · rw [← hlow']
      exact h.low_le p' hp'
    · rw [← hlow]
      exact h'.low_le p hp
  · apply le_antisymm
    · rw [← hhigh]
      exact h'.le_high q hq
    · rw [← hhigh']
      exact h.le_high q' hq'

theorem low_le_high (h : Ranges f items low high) : low ≤ high := by
  obtain ⟨p, hp, rfl⟩ := h.low_mem
  exact h.le_high p hp

theorem congr {g : β → ℝ} (h : Ranges f items low high) (hfg : ∀ p ∈ items, g p = f p) :
    Ranges g items low high := by
  obtain ⟨p, hp, hlow⟩ := h.low_mem
  obtain ⟨q, hq, hhigh⟩ := h.high_mem
  refine ⟨?_, ?_, ⟨p, hp, (hfg p hp).trans hlow⟩, ⟨q, hq, (hfg q hq).trans hhigh⟩⟩
  · intro r hr
    rw [hfg r hr]
    exact h.low_le r hr
  · intro r hr
    rw [hfg r hr]
    exact h.le_high r hr

/-- A monotone function takes the ends of a range to the ends of a range. -/
theorem monotone_comp {shift : ℝ → ℝ} (hshift : Monotone shift) (h : Ranges f items low high) :
    Ranges (fun p => shift (f p)) items (shift low) (shift high) := by
  obtain ⟨p, hp, rfl⟩ := h.low_mem
  obtain ⟨q, hq, rfl⟩ := h.high_mem
  exact ⟨fun r hr => hshift (h.low_le r hr), fun r hr => hshift (h.le_high r hr), ⟨p, hp, rfl⟩,
    ⟨q, hq, rfl⟩⟩

/-- An antitone function swaps the ends of a range. -/
theorem antitone_comp {shift : ℝ → ℝ} (hshift : Antitone shift) (h : Ranges f items low high) :
    Ranges (fun p => shift (f p)) items (shift high) (shift low) := by
  obtain ⟨p, hp, rfl⟩ := h.low_mem
  obtain ⟨q, hq, rfl⟩ := h.high_mem
  exact ⟨fun r hr => hshift (h.le_high r hr), fun r hr => hshift (h.low_le r hr), ⟨q, hq, rfl⟩,
    ⟨p, hp, rfl⟩⟩

theorem map_iff {f : γ → ℝ} {g : β → γ} :
    Ranges f (items.map g) low high ↔ Ranges (fun p => f (g p)) items low high := by
  constructor
  · intro h
    obtain ⟨_, hp', hlow⟩ := h.low_mem
    obtain ⟨_, hq', hhigh⟩ := h.high_mem
    obtain ⟨p, hp, rfl⟩ := List.mem_map.mp hp'
    obtain ⟨q, hq, rfl⟩ := List.mem_map.mp hq'
    exact ⟨fun r hr => h.low_le _ (List.mem_map_of_mem hr),
      fun r hr => h.le_high _ (List.mem_map_of_mem hr), ⟨p, hp, hlow⟩, ⟨q, hq, hhigh⟩⟩
  · intro h
    obtain ⟨p, hp, hlow⟩ := h.low_mem
    obtain ⟨q, hq, hhigh⟩ := h.high_mem
    refine ⟨?_, ?_, ⟨g p, List.mem_map_of_mem hp, hlow⟩, ⟨g q, List.mem_map_of_mem hq, hhigh⟩⟩
    · simpa only [List.forall_mem_map] using h.low_le
    · simpa only [List.forall_mem_map] using h.le_high

end Ranges

/-- Folding an operation that selects one of two values, the further one in some order, selects the
furthest of all. -/
theorem foldl_select {β : Type} {r : β → β → Prop} {select : β → β → β} (refl : ∀ a, r a a)
    (trans : ∀ {a b c}, r a b → r b c → r a c) (or : ∀ a b, select a b = a ∨ select a b = b)
    (left : ∀ a b, r a (select a b)) (right : ∀ a b, r b (select a b)) (x : β) (xs : List β) :
    (∀ y ∈ x :: xs, r y (xs.foldl select x)) ∧ xs.foldl select x ∈ x :: xs := by
  induction xs generalizing x with
  | nil =>
      refine ⟨?_, List.mem_cons_self⟩
      intro y hy
      rw [List.mem_singleton.mp hy]
      exact refl x
  | cons z rest ih =>
      obtain ⟨hall, hmem⟩ := ih (select x z)
      have hfirst := hall _ List.mem_cons_self
      constructor
      · intro y hy
        rcases List.mem_cons.mp hy with rfl | hy
        · exact trans (left y z) hfirst
        · rcases List.mem_cons.mp hy with rfl | hy
          · exact trans (right x y) hfirst
          · exact hall y (List.mem_cons_of_mem _ hy)
      · rw [List.foldl_cons]
        rcases List.mem_cons.mp hmem with heq | hmem
        · rw [heq]
          rcases or x z with h | h
          · rw [h]
            exact List.mem_cons_self
          · rw [h]
            exact List.mem_cons_of_mem x List.mem_cons_self
        · exact List.mem_cons_of_mem x (List.mem_cons_of_mem z hmem)

/-- The least and the greatest of some scalars, as folds of minimum and maximum. -/
theorem ranges_foldl (x : ℝ) (xs : List ℝ) :
    Ranges id (x :: xs) (xs.foldl min x) (xs.foldl max x) := by
  obtain ⟨hmin, hminmem⟩ := foldl_select (r := fun a b => b ≤ a) le_refl
    (fun hab hbc => le_trans hbc hab) min_choice min_le_left min_le_right x xs
  obtain ⟨hmax, hmaxmem⟩ := foldl_select (r := fun a b => a ≤ b) le_refl
    (fun hab hbc => le_trans hab hbc) max_choice le_max_left le_max_right x xs
  exact ⟨hmin, hmax, ⟨_, hminmem, rfl⟩, ⟨_, hmaxmem, rfl⟩⟩

namespace Scalar

theorem greatest_eq_foldl (x : ℝ) (xs : List ℝ) : greatest x xs = xs.foldl max x := by
  have hstep : (fun best x : ℝ => if isDefined best && !le x best then x else best) = max := by
    funext a b
    by_cases h : b ≤ a
    · simp [h]
    · simp [h, (not_le.mp h).le]
  rw [greatest, hstep]

theorem least_eq_foldl (x : ℝ) (xs : List ℝ) : least x xs = xs.foldl min x := by
  have hstep : (fun best x : ℝ => if isDefined best && !le best x then x else best) = min := by
    funext a b
    by_cases h : a ≤ b
    · simp [h]
    · simp [h, (not_le.mp h).le]
  rw [least, hstep]

end Scalar

namespace Ranges

variable {β : Type} {f : β → ℝ} {p : β} {ps : List β} {low high : ℝ}

theorem eq_foldl (h : Ranges f (p :: ps) low high) :
    low = (ps.map f).foldl min (f p) ∧ high = (ps.map f).foldl max (f p) := by
  have hvalues : Ranges id ((p :: ps).map f) low high := map_iff.mpr h
  exact hvalues.unique (ranges_foldl (f p) (ps.map f))

/-- The spread of some values is the length of their range. -/
theorem spread_eq {items : List β} (h : Ranges f items low high) :
    Rectangle.spread (items.map f) = high - low := by
  cases items with
  | nil =>
      obtain ⟨p, hp, _⟩ := h.low_mem
      cases hp
  | cons p ps =>
      rw [List.map_cons, Rectangle.spread, Scalar.greatest_eq_foldl, Scalar.least_eq_foldl,
        ← h.eq_foldl.1, ← h.eq_foldl.2]

end Ranges

theorem exists_ranges {β : Type} (f : β → ℝ) {items : List β} (h : items ≠ []) :
    ∃ low high, Ranges f items low high := by
  cases items with
  | nil => exact absurd rfl h
  | cons p ps =>
      have hvalues : Ranges id ((p :: ps).map f) _ _ := ranges_foldl (f p) (ps.map f)
      exact ⟨_, _, (Ranges.map_iff (f := id)).mp hvalues⟩

namespace Pose

variable {turned : List (Point ℝ)} {low high : ℝ}

theorem left_eq (h : Ranges Point.x turned low high) : left turned = low := by
  have hmin : (Scalar.smaller : ℝ → ℝ → ℝ) = min := by
    funext x y
    exact Scalar.smaller_eq_min x y
  cases turned with
  | nil =>
      obtain ⟨p, hp, _⟩ := h.low_mem
      cases hp
  | cons p ps =>
      rw [h.eq_foldl.1, ← hmin]
      rfl

theorem bottom_eq (h : Ranges Point.y turned low high) : bottom turned = high := by
  have hmax : (Scalar.larger : ℝ → ℝ → ℝ) = max := by
    funext x y
    exact Scalar.larger_eq_max x y
  cases turned with
  | nil =>
      obtain ⟨p, hp, _⟩ := h.low_mem
      cases hp
  | cons p ps =>
      rw [h.eq_foldl.2, ← hmax]
      rfl

end Pose

end PackedDrawing
