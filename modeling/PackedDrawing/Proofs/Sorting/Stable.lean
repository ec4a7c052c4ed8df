/-!
# Stable sorting

Sorting by a rank is stable: items of the same rank stay in the order in which they stood.

## Main statements

* `Sorting.filter_mergeSort`: sorting keeps the order of items that are equivalent to one another.
* `Sorting.pairwise_mergeSort_stable`: how the items stand that were sorted by a rank.
-/

namespace PackedDrawing.Sorting

variable {β : Type}

/-- Items each of which may stand before each other keep their order when a list is sorted. -/
theorem filter_mergeSort {le : β → β → Bool}
    (trans : ∀ a b c, le a b = true → le b c = true → le a c = true)
    (total : ∀ a b, (le a b || le b a) = true) {p : β → Bool}
    (hp : ∀ a b, p a = true → p b = true → le a b = true) (l : List β) :
    (l.mergeSort le).filter p = l.filter p := by
  have hpairwise : (l.filter p).Pairwise fun a b => le a b = true := by
    refine List.pairwise_of_forall_mem_list ?_
    intro a ha b hb
    exact hp a b (List.mem_filter.mp ha).2 (List.mem_filter.mp hb).2
  have hsub := (List.sublist_mergeSort trans total hpairwise List.filter_sublist).filter p
  simp only [List.filter_filter, Bool.and_self] at hsub
  exact (hsub.eq_of_length ((List.mergeSort_perm l le).filter p).length_eq.symm).symm

/-- Sorting by a rank puts items of smaller rank in front, and leaves items of equal rank as they
stood. -/
theorem pairwise_mergeSort_stable {rank : β → Int} {R : β → β → Prop} {le : β → β → Bool}
    (hle : ∀ a b, le a b = true ↔ rank a ≤ rank b) {l : List β} (h : l.Pairwise R) :
    (l.mergeSort le).Pairwise fun a b => rank a < rank b ∨ rank a = rank b ∧ R a b := by
  have trans : ∀ a b c, le a b = true → le b c = true → le a c = true := by
    intro a b c hab hbc
    rw [hle] at *
    exact Int.le_trans hab hbc
  have total : ∀ a b, (le a b || le b a) = true := by
    intro a b
    rw [Bool.or_eq_true, hle, hle]
    exact Int.le_total (rank a) (rank b)
  have hrising := List.pairwise_mergeSort trans total l
  rw [List.pairwise_iff_forall_sublist]
  intro a b hab
  have hrank := (hle a b).mp (List.pairwise_iff_forall_sublist.mp hrising hab)
  rcases Int.lt_or_eq_of_le hrank with hlt | heq
  · exact Or.inl hlt
  · -- the items of this rank stand as they stood before
    have hsame := hab.filter fun x => decide (rank x = rank a)
    rw [filter_mergeSort trans total (by
      intro x y hx hy
      rw [hle]
      exact Int.le_of_eq ((of_decide_eq_true hx).trans (of_decide_eq_true hy).symm))] at hsame
    simp only [List.filter_cons, ← heq, decide_true, if_true, List.filter_nil] at hsame
    exact Or.inr ⟨heq, List.pairwise_iff_forall_sublist.mp h (hsame.trans List.filter_sublist)⟩

end PackedDrawing.Sorting
