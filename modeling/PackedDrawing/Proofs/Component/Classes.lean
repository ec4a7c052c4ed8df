import Mathlib.Data.List.Perm.Basic
import Mathlib.Data.List.Range
import PackedDrawing.Component.Grouping
import PackedDrawing.Proofs.Component.Reach
import PackedDrawing.Proofs.Outcome

/-!
# Components are the classes of connected nodes

A list of lists is the list of classes of a relation when it lists every node once, puts related
nodes and only those together, and orders the nodes in each list and the lists by their smallest
nodes. The components of a graph are the classes of its connected nodes.

## Implementation notes

The list of components has a closed form: the components of the nodes that lead their class, in
ascending order. All statements about the list are read off that form.
-/

namespace PackedDrawing

/-- The classes of a relation on the nodes `0, …, n - 1`, each in ascending order, in the order of
their smallest nodes. -/
structure Classes (n : Nat) (related : Int → Int → Prop) (classes : List (List Int)) : Prop where
  once : classes.flatten.Perm ((List.range n).map Int.ofNat)
  together_iff : ∀ i j : Nat, i < n → j < n →
    ((∃ c ∈ classes, (i : Int) ∈ c ∧ (j : Int) ∈ c) ↔ related i j)
  ascending : ∀ c ∈ classes, c.Pairwise (· < ·)
  inhabited : ∀ c ∈ classes, c ≠ []
  ordered : classes.Pairwise fun c d => ∃ i ∈ c, (∀ k ∈ c, i ≤ k) ∧ ∀ j ∈ d, i < j

namespace Classes

variable {n : Nat} {related : Int → Int → Prop} {classes : List (List Int)}

theorem mem_flatten_iff (h : Classes n related classes) {i : Int} :
    i ∈ classes.flatten ↔ 0 ≤ i ∧ i < n := by
  rw [h.once.mem_iff, List.mem_map]
  constructor
  · rintro ⟨k, hk, rfl⟩
    have := List.mem_range.mp hk
    rw [Int.ofNat_eq_natCast]
    omega
  · rintro ⟨hlow, hhigh⟩
    exact ⟨i.toNat, List.mem_range.mpr (by omega), Int.toNat_of_nonneg hlow⟩

theorem nodup_flatten (h : Classes n related classes) : classes.flatten.Nodup :=
  h.once.nodup_iff.mpr (List.nodup_range.map fun _ _ => Int.ofNat.inj)

/-- Different classes share no node. -/
theorem pairwise_disjoint (h : Classes n related classes) : classes.Pairwise List.Disjoint :=
  (List.nodup_flatten.mp h.nodup_flatten).2

theorem congr {related' : Int → Int → Prop} (h : Classes n related classes)
    (hr : ∀ i j, related i j ↔ related' i j) : Classes n related' classes :=
  { h with together_iff := fun i j hi hj => (h.together_iff i j hi hj).trans (hr i j) }

end Classes

namespace Search

variable {edges : List Edge}

/-- All ends of links lie in the graph. -/
def Inside (n : Nat) (edges : List Edge) : Prop :=
  ∀ e ∈ edges, (0 ≤ e.1.position ∧ e.1.position < n) ∧ (0 ≤ e.2.position ∧ e.2.position < n)

theorem Linked.inside {n : Nat} (h : Inside n edges) {i j : Int} (hl : Linked edges i j) :
    0 ≤ j ∧ j < n := by
  obtain ⟨e, he, ⟨_, rfl⟩ | ⟨_, rfl⟩⟩ := hl
  · exact (h e he).2
  · exact (h e he).1

theorem Joined.inside {n : Nat} (h : Inside n edges) {i j : Int} (hi : 0 ≤ i ∧ i < n)
    (hj : Joined edges i j) : 0 ≤ j ∧ j < n := by
  induction hj with
  | refl => exact hi
  | tail _ hlink _ => exact hlink.inside h

/-- A node leads its class when no smaller node is joined to it. -/
def Leads (edges : List Edge) (s : Nat) : Prop := ∀ r < s, ¬ Joined edges (r : Nat) (s : Nat)

/-- Every class has a leader. -/
theorem exists_leader (edges : List Edge) (k : Nat) :
    ∃ s ≤ k, Leads edges s ∧ Joined edges (s : Nat) (k : Nat) := by
  induction k using Nat.strong_induction_on with
  | _ k ih =>
      by_cases hk : Leads edges k
      · exact ⟨k, Nat.le_refl k, hk, Relation.ReflTransGen.refl⟩
      · simp only [Leads, not_forall, not_not] at hk
        obtain ⟨r, hr, hjoin⟩ := hk
        obtain ⟨s, hs, hlead, hsr⟩ := ih r hr
        exact ⟨s, by omega, hlead, hsr.trans hjoin⟩

theorem Leads.eq_of_joined {r s : Nat} (hr : Leads edges r) (hs : Leads edges s)
    (h : Joined edges r s) : r = s := by
  rcases Nat.lt_trichotomy r s with hlt | heq | hgt
  · exact absurd h (hs r hlt)
  · exact heq
  · exact absurd h.symm (hr s hgt)

theorem Leads.le_of_joined {s : Nat} (hs : Leads edges s) {i : Int} (hi : 0 ≤ i)
    (h : Joined edges s i) : (s : Int) ≤ i := by
  by_contra hlt
  refine hs i.toNat (by omega) ?_
  rw [Int.toNat_of_nonneg hi]
  exact h.symm

section Leaders
open Classical

/-- The nodes of a graph that lead their class. -/
noncomputable def leaders (n : Nat) (edges : List Edge) : List Nat :=
  (List.range n).filter fun s => decide (Leads edges s)

theorem mem_leaders {n s : Nat} : s ∈ leaders n edges ↔ s < n ∧ Leads edges s := by
  simp [leaders]

theorem leaders_succ (n : Nat) :
    leaders (n + 1) edges = leaders n edges ++ (if Leads edges n then [n] else []) := by
  simp [leaders, List.range_succ, List.filter_singleton]

end Leaders

/-- The components are those of the leaders. -/
theorem components_eq (n : Nat) (edges : List Edge) :
    components n edges = (leaders n edges).map (component edges) := by
  induction n with
  | zero => rfl
  | succ n ih =>
      have hfold : components (n + 1) edges = addComponent edges (components n edges) n := by
        simp [components, List.range_succ]
      have hany : ((components n edges).any (met · (Handle.ofNat n))) = true ↔
          ¬ Leads edges n := by
        rw [ih, List.any_eq_true]
        constructor
        · rintro ⟨c, hc, hmet⟩ hlead
          obtain ⟨s, hs, rfl⟩ := List.mem_map.mp hc
          exact hlead s (mem_leaders.mp hs).1 (mem_positions_component.mp (met_iff.mp hmet))
        · intro hlead
          obtain ⟨s, hs, hfirst, hjoin⟩ := exists_leader edges n
          have hne : s ≠ n := fun heq => hlead (heq ▸ hfirst)
          refine ⟨component edges s, List.mem_map_of_mem (mem_leaders.mpr ⟨by omega, hfirst⟩), ?_⟩
          exact met_iff.mpr (mem_positions_component.mpr hjoin)
      rw [hfold, leaders_succ, addComponent]
      by_cases hlead : Leads edges n
      · rw [if_neg (by rw [hany]; exact fun hn => hn hlead), if_pos hlead, List.map_append, ih]
        rfl
      · rw [if_pos (hany.mpr hlead), if_neg hlead, List.append_nil, ih]

theorem pairwise_leaders (n : Nat) (edges : List Edge) : (leaders n edges).Pairwise (· < ·) :=
  List.Pairwise.filter _ List.pairwise_lt_range

theorem mem_components_iff {n : Nat} {c : List Int} :
    c ∈ (components n edges).map positions ↔
      ∃ s < n, Leads edges s ∧ c = positions (component edges s) := by
  rw [components_eq, List.map_map, List.mem_map]
  constructor
  · rintro ⟨s, hs, rfl⟩
    exact ⟨s, (mem_leaders.mp hs).1, (mem_leaders.mp hs).2, rfl⟩
  · rintro ⟨s, hs, hlead, rfl⟩
    exact ⟨s, mem_leaders.mpr ⟨hs, hlead⟩, rfl⟩

theorem mem_component_inside {n s : Nat} (hin : Inside n edges) (hs : s < n) {i : Int}
    (hi : i ∈ positions (component edges s)) : 0 ≤ i ∧ i < n :=
  (mem_positions_component.mp hi).inside hin (by omega)

/-- Components of different leaders share no node. -/
theorem pairwise_disjoint_components (n : Nat) (edges : List Edge) :
    ((components n edges).map positions).Pairwise List.Disjoint := by
  rw [components_eq, List.map_map, List.pairwise_map]
  refine (pairwise_leaders n edges).imp_of_mem fun {r s} hr hs hlt => ?_
  intro i hi hi'
  have hjoin : Joined edges r s :=
    (mem_positions_component.mp hi).trans (mem_positions_component.mp hi').symm
  have heq := (mem_leaders.mp hr).2.eq_of_joined (mem_leaders.mp hs).2 hjoin
  omega

/-- The components stand in the order of their smallest nodes, which are the leaders. -/
theorem ordered_components {n : Nat} (hin : Inside n edges) :
    ((components n edges).map positions).Pairwise fun c d =>
      ∃ i ∈ c, (∀ k ∈ c, i ≤ k) ∧ ∀ j ∈ d, i < j := by
  rw [components_eq, List.map_map, List.pairwise_map]
  refine (pairwise_leaders n edges).imp_of_mem fun {r s} hr hs hlt => ?_
  obtain ⟨hrn, hrlead⟩ := mem_leaders.mp hr
  obtain ⟨hsn, hslead⟩ := mem_leaders.mp hs
  refine ⟨r, start_mem_component edges r, ?_, ?_⟩
  · intro k hk
    exact hrlead.le_of_joined (mem_component_inside hin hrn hk).1 (mem_positions_component.mp hk)
  · intro j hj
    have hle := hslead.le_of_joined (mem_component_inside hin hsn hj).1
      (mem_positions_component.mp hj)
    omega

/-- The components list every node of the graph once, and nothing else. -/
theorem flatten_components_perm {n : Nat} (hin : Inside n edges) :
    ((components n edges).map positions).flatten.Perm ((List.range n).map Int.ofNat) := by
  have hnodup : ((components n edges).map positions).flatten.Nodup := by
    rw [List.nodup_flatten]
    refine ⟨?_, pairwise_disjoint_components n edges⟩
    intro c hc
    obtain ⟨s, _, _, rfl⟩ := mem_components_iff.mp hc
    exact (ascending_component edges s).imp fun h => Int.ne_of_lt h
  rw [List.perm_ext_iff_of_nodup hnodup (List.nodup_range.map fun _ _ => Int.ofNat.inj)]
  intro i
  rw [List.mem_flatten, List.mem_map]
  constructor
  · rintro ⟨c, hc, hi⟩
    obtain ⟨s, hs, _, rfl⟩ := mem_components_iff.mp hc
    have hrange := mem_component_inside hin hs hi
    exact ⟨i.toNat, List.mem_range.mpr (by omega), Int.toNat_of_nonneg hrange.1⟩
  · rintro ⟨k, hk, rfl⟩
    obtain ⟨s, hs, hlead, hjoin⟩ := exists_leader edges k
    have hk := List.mem_range.mp hk
    exact ⟨_, mem_components_iff.mpr ⟨s, by omega, hlead, rfl⟩, mem_positions_component.mpr hjoin⟩

theorem together_components_iff {n i j : Nat} (hi : i < n) :
    (∃ c ∈ (components n edges).map positions, (i : Int) ∈ c ∧ (j : Int) ∈ c) ↔
      Joined edges i j := by
  constructor
  · rintro ⟨c, hc, hci, hcj⟩
    obtain ⟨s, _, _, rfl⟩ := mem_components_iff.mp hc
    exact (mem_positions_component.mp hci).symm.trans (mem_positions_component.mp hcj)
  · intro hjoin
    obtain ⟨s, hs, hlead, hsi⟩ := exists_leader edges i
    exact ⟨_, mem_components_iff.mpr ⟨s, by omega, hlead, rfl⟩, mem_positions_component.mpr hsi,
      mem_positions_component.mpr (hsi.trans hjoin)⟩

/-- The components are the classes of the joined nodes. -/
theorem classes_components {n : Nat} (hin : Inside n edges) :
    Classes n (Joined edges) ((components n edges).map positions) where
  once := flatten_components_perm hin
  together_iff := fun _ _ hi _ => together_components_iff hi
  ascending := by
    intro c hc
    obtain ⟨s, _, _, rfl⟩ := mem_components_iff.mp hc
    exact ascending_component edges s
  inhabited := by
    intro c hc
    obtain ⟨s, _, _, rfl⟩ := mem_components_iff.mp hc
    exact List.ne_nil_of_mem (start_mem_component edges s)
  ordered := ordered_components hin

end Search

end PackedDrawing
