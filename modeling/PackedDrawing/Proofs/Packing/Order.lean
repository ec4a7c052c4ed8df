import PackedDrawing.Proofs.Packing.Shelves
import PackedDrawing.Proofs.Sorting.Stable

/-!
# The order in which boxes are packed

Boxes are packed from the tallest to the smallest, and boxes of equal height in the order in which
they were given.

## Main statements

* `Packing.pairwise_before_ordered`: the boxes stand in the order in which they are packed.
* `Packing.pairwise_height_ordered`: none of them is taller than those in front of it.
-/

namespace PackedDrawing.Packing

/-- One box is packed before another: it is taller, or as tall and given first. -/
def Before (boxes : List Box) (i j : Nat) : Prop :=
  (extents boxes j).y < (extents boxes i).y ∨
    (extents boxes j).y = (extents boxes i).y ∧ i < j

variable {boxes : List Box}

instance (i j : Nat) : Decidable (Before boxes i j) := inferInstanceAs (Decidable (_ ∨ _))

theorem Before.asymm {i j : Nat} (h : Before boxes i j) : ¬ Before boxes j i := by
  rw [Before] at *
  omega

theorem Before.height_le {i j : Nat} (h : Before boxes i j) :
    (extents boxes j).y ≤ (extents boxes i).y := by
  rcases h with h | ⟨h, _⟩
  · exact h.le
  · exact h.le

theorem pairwise_before_ordered (boxes : List Box) :
    ((ordered boxes).map Prod.fst).Pairwise (Before boxes) := by
  have hnumbers : (boxes.mapIdx fun i b => (i, b)).Pairwise fun a b => a.1 < b.1 := by
    rw [← List.pairwise_map, map_fst_mapIdx]
    exact List.pairwise_lt_range
  have hfalling : ∀ a b : Nat × Box, decide (b.2.y ≤ a.2.y) = true ↔ -a.2.y ≤ -b.2.y := by
    intro a b
    rw [decide_eq_true_eq]
    omega
  rw [List.pairwise_map]
  refine (Sorting.pairwise_mergeSort_stable hfalling hnumbers).imp_of_mem ?_
  intro a b ha hb hab
  rw [Before, extents_of_some (mem_ordered_iff.mp ha), extents_of_some (mem_ordered_iff.mp hb)]
  omega

theorem pairwise_height_ordered (boxes : List Box) :
    (ordered boxes).Pairwise fun a b => b.2.y ≤ a.2.y := by
  refine (List.pairwise_map.mp (pairwise_before_ordered boxes)).imp_of_mem ?_
  intro a b ha hb hab
  have hle := hab.height_le
  rwa [extents_of_some (mem_ordered_iff.mp ha), extents_of_some (mem_ordered_iff.mp hb)] at hle

/-- Two boxes of equal height, and a higher one. -/
def threeBoxes : List Box := [⟨3, 2⟩, ⟨1, 2⟩, ⟨2, 5⟩]

theorem ordered_threeBoxes :
    ordered threeBoxes = [(2, ⟨2, 5⟩), (0, ⟨3, 2⟩), (1, ⟨1, 2⟩)] := by cbv

end PackedDrawing.Packing
