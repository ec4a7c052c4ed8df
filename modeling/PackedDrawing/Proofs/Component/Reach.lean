import Mathlib.Data.List.Nodup
import Mathlib.Logic.Relation
import PackedDrawing.Component.Search

/-!
# The search meets exactly the joined nodes

Positions are joined when a chain of links leads from one to the other. The breadth-first search
from a node lists every position joined to it, once each, and no other; the components of a graph
are the classes of joined positions, taken at the smallest position of each class.

## Implementation notes

The invariant of `reach` is kept in four statements that are proved one by one, since the queue
takes part in only two of them: what was met stays met, positions are met once, only joined
positions are met, and a position met that no longer waits has all its neighbours met.
-/

namespace PackedDrawing.Search

variable {edges : List Edge}

/-- Two positions are linked when they are the ends of one link, in either direction. -/
def Linked (edges : List Edge) (i j : Int) : Prop :=
  ∃ e ∈ edges, (e.1.position = i ∧ e.2.position = j) ∨ (e.2.position = i ∧ e.1.position = j)

/-- Two positions are joined when a chain of links leads from one to the other. -/
def Joined (edges : List Edge) : Int → Int → Prop := Relation.ReflTransGen (Linked edges)

/-- The positions that handles mention. -/
def positions (hs : List Handle) : List Int := hs.map Handle.position

@[simp] theorem positions_append (gs hs : List Handle) :
    positions (gs ++ hs) = positions gs ++ positions hs := List.map_append

@[simp] theorem positions_cons (h : Handle) (hs : List Handle) :
    positions (h :: hs) = h.position :: positions hs := rfl

theorem mem_positions {hs : List Handle} {i : Int} :
    i ∈ positions hs ↔ ∃ h ∈ hs, h.position = i := List.mem_map

theorem position_mem {hs : List Handle} {h : Handle} (hm : h ∈ hs) :
    h.position ∈ positions hs := List.mem_map_of_mem hm

theorem met_iff {found : List Handle} {h : Handle} :
    met found h = true ↔ h.position ∈ positions found := by
  simp [met, mem_positions]

theorem Linked.symm {i j : Int} (h : Linked edges i j) : Linked edges j i := by
  obtain ⟨e, he, h | h⟩ := h
  · exact ⟨e, he, Or.inr ⟨h.2, h.1⟩⟩
  · exact ⟨e, he, Or.inl ⟨h.2, h.1⟩⟩

theorem Joined.symm {i j : Int} (h : Joined edges i j) : Joined edges j i := by
  induction h with
  | refl => exact Relation.ReflTransGen.refl
  | tail _ hlink ih => exact Relation.ReflTransGen.head hlink.symm ih

theorem Joined.trans {i j k : Int} (hij : Joined edges i j) (hjk : Joined edges j k) :
    Joined edges i k := Relation.ReflTransGen.trans hij hjk

theorem linked_iff_mem_neighbours {i j : Int} :
    Linked edges i j ↔ j ∈ positions (neighbours edges i) := by
  constructor
  · rintro ⟨e, he, ⟨hi, hj⟩ | ⟨hi, hj⟩⟩
    · exact mem_positions.mpr ⟨e.2, List.mem_flatMap.mpr ⟨e, he, by simp [hi]⟩, hj⟩
    · exact mem_positions.mpr ⟨e.1, List.mem_flatMap.mpr ⟨e, he, by simp [hi]⟩, hj⟩
  · intro hm
    obtain ⟨h, hh, hj⟩ := mem_positions.mp hm
    simp only [neighbours, List.mem_flatMap, List.mem_append] at hh
    obtain ⟨e, he, hh | hh⟩ := hh
    · by_cases hi : e.1.position = i
      · rw [if_pos hi, List.mem_singleton] at hh
        exact ⟨e, he, Or.inl ⟨hi, hh ▸ hj⟩⟩
      · simp [hi] at hh
    · by_cases hi : e.2.position = i
      · rw [if_pos hi, List.mem_singleton] at hh
        exact ⟨e, he, Or.inr ⟨hi, hh ▸ hj⟩⟩
      · simp [hi] at hh

/-- What is met once the fresh ones have joined: what was met before, and all candidates. -/
theorem mem_positions_fresh {found hs : List Handle} {i : Int} :
    i ∈ positions found ∨ i ∈ positions (fresh found hs) ↔
      i ∈ positions found ∨ i ∈ positions hs := by
  induction hs generalizing found with
  | nil => simp [fresh, positions]
  | cons h rest ih =>
      by_cases hm : met found h = true
      · rw [fresh, if_pos hm, ih, positions_cons, List.mem_cons]
        have hin := met_iff.mp hm
        constructor
        · rintro (hi | hi)
          · exact Or.inl hi
          · exact Or.inr (Or.inr hi)
        · rintro (hi | rfl | hi)
          · exact Or.inl hi
          · exact Or.inl hin
          · exact Or.inr hi
      · have hnext := @ih (h :: found)
        simp only [fresh, hm, if_false, positions_cons, List.mem_cons, Bool.false_eq_true] at hnext ⊢
        rw [← or_assoc, or_comm (a := i ∈ positions found), hnext]
        simp only [or_assoc, or_left_comm]

theorem nodup_fresh (found hs : List Handle) : (positions (fresh found hs)).Nodup := by
  induction hs generalizing found with
  | nil => simp [fresh, positions]
  | cons h rest ih =>
      by_cases hm : met found h = true
      · rw [fresh, if_pos hm]
        exact ih found
      · rw [fresh, if_neg hm, positions_cons, List.nodup_cons]
        refine ⟨?_, ih (h :: found)⟩
        intro hin
        obtain ⟨g, hg, hpos⟩ := mem_positions.mp hin
        have hnew := not_met_of_mem_fresh hg
        rw [← Bool.not_eq_true, met_iff, positions_cons, List.mem_cons, not_or] at hnew
        exact hnew.1 hpos

theorem disjoint_fresh (found hs : List Handle) :
    (positions found).Disjoint (positions (fresh found hs)) := by
  intro i hi hfresh
  obtain ⟨h, hh, rfl⟩ := mem_positions.mp hfresh
  have hnew := not_met_of_mem_fresh hh
  rw [← Bool.not_eq_true, met_iff] at hnew
  exact hnew hi

/-- What was met stays met. -/
theorem mem_reach_of_mem {queue found : List Handle} {h : Handle} (hm : h ∈ found) :
    h ∈ reach edges queue found := by
  fun_induction reach edges queue found with
  | case1 found => exact hm
  | case2 found v rest new ih => exact ih (List.mem_append_left new hm)

/-- Every position is met once. -/
theorem nodup_reach {queue found : List Handle} (hd : (positions found).Nodup) :
    (positions (reach edges queue found)).Nodup := by
  fun_induction reach edges queue found with
  | case1 found => exact hd
  | case2 found v rest new ih =>
      apply ih
      rw [positions_append]
      exact List.Nodup.append hd (nodup_fresh found _) (disjoint_fresh found _)

/-- Only what is linked to something met before is met. -/
theorem reach_sound {P : Int → Prop} (closed : ∀ {i j}, P i → Linked edges i j → P j)
    {queue found : List Handle} (hq : ∀ h ∈ queue, P h.position)
    (hf : ∀ h ∈ found, P h.position) : ∀ h ∈ reach edges queue found, P h.position := by
  fun_induction reach edges queue found with
  | case1 found => exact hf
  | case2 found v rest new ih =>
      have hnew : ∀ h ∈ new, P h.position := by
        intro h hh
        have hlink : Linked edges v.position h.position :=
          linked_iff_mem_neighbours.mpr (position_mem (mem_of_mem_fresh hh))
        exact closed (hq v List.mem_cons_self) hlink
      apply ih
      · intro h hh
        rcases List.mem_append.mp hh with hh | hh
        · exact hq h (List.mem_cons_of_mem v hh)
        · exact hnew h hh
      · intro h hh
        rcases List.mem_append.mp hh with hh | hh
        · exact hf h hh
        · exact hnew h hh

/-- Whatever is linked to something met is met, provided that this holds at first of all that do
not wait in the queue. -/
theorem reach_closed {queue found : List Handle}
    (hinv : ∀ h ∈ found, h ∈ queue ∨ ∀ j, Linked edges h.position j → j ∈ positions found) :
    ∀ h ∈ reach edges queue found, ∀ j, Linked edges h.position j →
      j ∈ positions (reach edges queue found) := by
  fun_induction reach edges queue found with
  | case1 found =>
      intro h hh j hj
      rcases hinv h hh with hq | hdone
      · cases hq
      · exact hdone j hj
  | case2 found v rest new ih =>
      apply ih
      intro h hh
      rcases List.mem_append.mp hh with hh | hh
      · rcases hinv h hh with hq | hdone
        · rcases List.mem_cons.mp hq with rfl | hrest
          · right
            intro j hj
            rw [positions_append, List.mem_append]
            exact mem_positions_fresh.mpr (Or.inr (linked_iff_mem_neighbours.mp hj))
          · exact Or.inl (List.mem_append_left new hrest)
        · right
          intro j hj
          rw [positions_append, List.mem_append]
          exact Or.inl (hdone j hj)
      · exact Or.inl (List.mem_append_right rest hh)

/-- The search from a node meets exactly the positions joined to it. -/
theorem mem_positions_reach {start : Handle} {i : Int} :
    i ∈ positions (reach edges [start] [start]) ↔ Joined edges start.position i := by
  constructor
  · intro hi
    obtain ⟨h, hh, rfl⟩ := mem_positions.mp hi
    have hstart : ∀ g ∈ [start], Joined edges start.position g.position := by
      intro g hg
      rw [List.mem_singleton.mp hg]
      exact Relation.ReflTransGen.refl
    exact reach_sound (fun hi hj => hi.tail hj) hstart hstart h hh
  · intro hi
    have hclosed := @reach_closed edges [start] [start] fun h hh => Or.inl hh
    induction hi with
    | refl => exact position_mem (mem_reach_of_mem List.mem_cons_self)
    | tail _ hlink ih =>
        obtain ⟨h, hh, rfl⟩ := mem_positions.mp ih
        exact hclosed h hh _ hlink

theorem mem_positions_component {start : Nat} {i : Int} :
    i ∈ positions (component edges start) ↔ Joined edges start i := by
  rw [← Handle.position_ofNat start, ← mem_positions_reach]
  exact ((List.mergeSort_perm _ _).map Handle.position).mem_iff

theorem start_mem_component (edges : List Edge) (start : Nat) :
    (start : Int) ∈ positions (component edges start) :=
  mem_positions_component.mpr Relation.ReflTransGen.refl

/-- A component lists its positions in strictly ascending order. -/
theorem ascending_component (edges : List Edge) (start : Nat) :
    (positions (component edges start)).Pairwise (· < ·) := by
  have hsorted : (component edges start).Pairwise fun g h =>
      decide (g.position ≤ h.position) = true :=
    List.pairwise_mergeSort
      (fun a b c hab hbc => by simp only [decide_eq_true_eq] at *; omega)
      (fun a b => by simp only [Bool.or_eq_true, decide_eq_true_eq]; omega) _
  have hle : (positions (component edges start)).Pairwise (· ≤ ·) :=
    List.pairwise_map.mpr (hsorted.imp fun h => by simpa using h)
  have hnodup : (positions (component edges start)).Nodup :=
    ((List.mergeSort_perm _ _).map Handle.position).nodup_iff.mpr (nodup_reach (by simp [positions]))
  exact (List.Pairwise.and hle hnodup).imp fun h => Int.lt_iff_le_and_ne.mpr h

end PackedDrawing.Search
