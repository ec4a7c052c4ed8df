import Mathlib
import PackedDrawing.Proofs.Layout.Checked
import PackedDrawing.Proofs.Sorting.Stable

/-!
# The order of the nodes on a ring

A ring takes its nodes as they are, by degree, or by a key. Each of these orders is told by a rank:
nodes of smaller rank come first, and nodes of the same rank stand as they are listed.

## Main definitions

* `Drawing.degree`: the number of ends of links at a node.
* `Ring.Ranks`: the ranks by which an order takes the nodes of a drawing.
* `Ring.Precedes`: one node is taken before another.

## Main statements

* `Ring.sorted_of_ranks`: every order takes the nodes by their rank.
* `Ring.pairwise_byRank`: how they stand then.
-/

namespace PackedDrawing

namespace Endpoint

variable {α : Type}

/-- The position that an end of a link means, if it means one. -/
def site (nodes : List (Node α)) (e : Endpoint α) : Option Int :=
  (e.mention nodes).located.position.toOption

end Endpoint

namespace Drawing

variable {α : Type} {d : Drawing α}

/-- The number of ends of links at a node. A link from a node to itself has two of them there. -/
def degree (d : Drawing α) (i : Nat) : Nat :=
  (d.links.countP fun l => l.source.site d.nodes == some (i : Int)) +
    d.links.countP fun l => l.target.site d.nodes == some (i : Int)

/-- Both ends of each link mean nodes of the drawing. -/
def Joined (d : Drawing α) : Prop :=
  ∀ l ∈ d.links, ∀ e ∈ [l.source, l.target],
    ∃ i, e.site d.nodes = some i ∧ InGraph d.nodes.length i

end Drawing

namespace Ring

section Order

variable {α : Type} {d : Drawing α} {n : Nat}

/-- The node at an end, where it means one. -/
def home (nodes : List (Node α)) (e : Endpoint α) : Nat := ((e.site nodes).getD 0).toNat

theorem counted_of_site [Scalar α] {e : Endpoint α} {i : Int} (h : e.site d.nodes = some i)
    (hin : InGraph d.nodes.length i) : counted d e = .ok (home d.nodes e) := by
  have hposition : (e.mention d.nodes).located.position = .ok i := by
    rw [Endpoint.site] at h
    cases hp : (e.mention d.nodes).located.position with
    | error f =>
        rw [hp] at h
        cases h
    | ok k =>
        rw [hp] at h
        exact congrArg Except.ok (Option.some.inj h)
  rw [counted, counted_of_located hposition hin, ok_bind, hposition, ok_bind,
    Handle.place?_of_inGraph hin, home, h]
  rfl

theorem linkEnds_of_joined [Scalar α] (h : d.Joined) :
    linkEnds d = .ok ((d.links.flatMap fun l => [l.source, l.target]).map (home d.nodes)) := by
  apply mapM_eq_map
  intro e he
  obtain ⟨l, hl, he⟩ := List.mem_flatMap.mp he
  obtain ⟨i, hi, hin⟩ := h l hl e he
  exact counted_of_site hi hin

/-- Both ends of links are counted. -/
theorem countP_ends (p : Endpoint α → Bool) (ls : List (Link α)) :
    (ls.flatMap fun l => [l.source, l.target]).countP p =
      ls.countP (fun l => p l.source) + ls.countP fun l => p l.target := by
  induction ls with
  | nil => rfl
  | cons l rest ih =>
      simp only [List.flatMap_cons, List.countP_append, List.countP_cons, List.countP_nil, ih]
      omega

theorem count_home (h : d.Joined) (i : Nat) :
    ((d.links.flatMap fun l => [l.source, l.target]).map (home d.nodes)).count i =
      d.degree i := by
  rw [List.count_eq_countP, List.countP_map, Drawing.degree,
    ← countP_ends fun e => e.site d.nodes == some (i : Int)]
  apply List.countP_congr
  intro e he
  obtain ⟨l, hl, he⟩ := List.mem_flatMap.mp he
  obtain ⟨k, hk, hlow, _⟩ := h l hl e he
  rw [Function.comp_apply, home, hk, beq_iff_eq, beq_iff_eq, Option.getD_some, Option.some.injEq]
  omega

variable [Scalar α]

/-- A rank of the nodes of a drawing, by which an order takes them: the nodes of smaller rank come
first. -/
def Ranks (order : NodeOrder α) (d : Drawing α) (rank : Nat → Int) : Prop :=
  match order with
  | .given (.text "degree") => ∀ i, rank i = -(d.degree i : Int)
  | .given _ => ∀ i, rank i = 0
  | .key f => ∀ i n, d.nodes[i]? = some n → ∃ v, f n = .ok v ∧ v.position = .ok (rank i)

/-- The nodes of a drawing sorted by a rank. -/
def byRank (n : Nat) (rank : Nat → Int) : List Nat :=
  (List.range n).mergeSort fun i j => decide (rank i ≤ rank j)

theorem byDegree_eq (h : d.Joined) {rank : Nat → Int} (hrank : ∀ i, rank i = -(d.degree i : Int)) :
    byDegree d = .ok (byRank d.nodes.length rank) := by
  have hle : (fun i j => decide (d.degree j ≤ d.degree i)) =
      fun i j => decide (rank i ≤ rank j) := by
    funext i j
    rw [hrank, hrank, decide_eq_decide]
    omega
  rw [byDegree, linkEnds_of_joined h, ok_bind]
  simp only [count_home h, byRank, ← hle]
  rfl

theorem ranksBelow_of_position {v w : Value α} {i j : Int} (hv : v.position = .ok i)
    (hw : w.position = .ok j) : v.ranksBelow w = decide (i < j) := by
  rw [Value.ranksBelow, Value.number_of_position hv, Value.number_of_position hw]
  rfl

theorem byKey_eq {f : Node α → Except Fault (Value α)} {rank : Nat → Int}
    (h : ∀ i n, d.nodes[i]? = some n → ∃ v, f n = .ok v ∧ v.position = .ok (rank i)) :
    byKey f d = .ok (byRank d.nodes.length rank) := by
  obtain ⟨keys, hkeys⟩ : ∃ keys, d.nodes.mapM f = .ok keys := by
    apply exists_mapM_eq_ok
    intro n hn
    obtain ⟨i, hi⟩ := List.mem_iff_getElem?.mp hn
    obtain ⟨v, hv, _⟩ := h i n hi
    exact ⟨v, hv⟩
  have hlength : keys.length = d.nodes.length := (mapM_eq_ok_iff.mp hkeys).length_eq.symm
  have hitem : ∀ x ∈ keys.mapIdx fun i k => (k, i), x.1.position = .ok (rank x.2) := by
    intro x hx
    obtain ⟨i, hi, rfl⟩ := List.mem_mapIdx.mp hx
    obtain ⟨n, hn, hfn⟩ := (getElem?_eq_some_of_mapM hkeys).mp (List.getElem?_eq_getElem hi)
    obtain ⟨v, hv, hposition⟩ := h i n hn
    obtain rfl := Except.ok.inj (hfn.symm.trans hv)
    exact hposition
  have hranks : (keys.mapIdx fun i k => (k, i)).all (fun x => x.1.isRank) = true := by
    rw [List.all_eq_true]
    intro x hx
    rw [Value.isRank, Value.number_of_position (hitem x hx)]
  have hsnd : (keys.mapIdx fun i k => (k, i)).map Prod.snd = List.range d.nodes.length := by
    apply List.ext_getElem?
    intro i
    rw [List.getElem?_map, List.getElem?_mapIdx, Option.map_map, ← hlength]
    by_cases hi : i < keys.length
    · rw [List.getElem?_eq_getElem hi, List.getElem?_range hi]
      rfl
    · rw [List.getElem?_eq_none (Nat.le_of_not_lt hi), List.getElem?_eq_none (by simpa using hi)]
      rfl
  have hsort : ((keys.mapIdx fun i k => (k, i)).mergeSort fun x y =>
      !Value.ranksBelow y.1 x.1).map Prod.snd = byRank d.nodes.length rank := by
    rw [List.map_mergeSort (s := fun i j => decide (rank i ≤ rank j)), hsnd, byRank]
    intro x hx y hy
    rw [ranksBelow_of_position (hitem y hy) (hitem x hx), Bool.eq_iff_iff, Bool.not_eq_true',
      decide_eq_false_iff_not, decide_eq_true_eq]
    omega
  rw [byKey, hkeys, ok_bind, Value.sortBy, if_pos hranks, hsort]

/-- The nodes stay as they are where they have the same rank. -/
theorem byRank_of_const {rank : Nat → Int} (h : ∀ i, rank i = 0) :
    byRank n rank = List.range n := by
  apply List.mergeSort_of_pairwise
  rw [List.pairwise_iff_forall_sublist]
  intro i j _
  rw [h i, h j]
  rfl

/-- Every order takes the nodes by their rank. -/
theorem sorted_of_ranks {order : NodeOrder α} {rank : Nat → Int} (hjoined : d.Joined)
    (h : Ranks order d rank) : sorted order d = .ok (byRank d.nodes.length rank) := by
  cases order with
  | key f => exact byKey_eq h
  | given v =>
      by_cases hdegree : v = .text "degree"
      · subst hdegree
        exact byDegree_eq hjoined h
      · have hsorted : sorted (.given v) d = .ok (List.range d.nodes.length) := by
          rw [sorted.eq_def]
          split <;> simp_all
        have hrank : ∀ i, rank i = 0 := by
          rw [Ranks.eq_def] at h
          split at h <;> simp_all
        rw [hsorted, byRank_of_const hrank]

theorem perm_byRank (n : Nat) (rank : Nat → Int) : (byRank n rank).Perm (List.range n) :=
  List.mergeSort_perm _ _

/-- A node is taken before another: its rank is smaller, or it is the same and the node is listed
first. -/
def Precedes (rank : Nat → Int) (i j : Nat) : Prop :=
  rank i < rank j ∨ rank i = rank j ∧ i < j

theorem Precedes.asymm {rank : Nat → Int} {i j : Nat} (h : Precedes rank i j) :
    ¬ Precedes rank j i := by
  rw [Precedes] at *
  omega

theorem pairwise_byRank (n : Nat) (rank : Nat → Int) :
    (byRank n rank).Pairwise (Precedes rank) :=
  Sorting.pairwise_mergeSort_stable (fun _ _ => decide_eq_true_iff) List.pairwise_lt_range

end Order

section Seats

variable {n : Nat} {rank : Nat → Int}

theorem mem_byRank {i : Nat} : i ∈ byRank n rank ↔ i < n := by
  rw [(perm_byRank n rank).mem_iff, List.mem_range]

theorem length_byRank : (byRank n rank).length = n := by
  rw [(perm_byRank n rank).length_eq, List.length_range]

theorem nodup_byRank (n : Nat) (rank : Nat → Int) : (byRank n rank).Nodup :=
  (perm_byRank n rank).nodup_iff.mpr List.nodup_range

/-- The number of a node among all of them in their order. -/
def seat (n : Nat) (rank : Nat → Int) (i : Nat) : Nat := (byRank n rank).idxOf i

theorem seat_lt_seat_iff {i j : Nat} (hi : i < n) (hj : j < n) :
    seat n rank i < seat n rank j ↔ Precedes rank i j := by
  have hbefore : ∀ {a b : Nat}, a < n → b < n → seat n rank a < seat n rank b →
      Precedes rank a b := by
    intro a b ha hb hab
    have hpair := List.pairwise_iff_getElem.mp (pairwise_byRank n rank) _ _
      (List.idxOf_lt_length_iff.mpr (mem_byRank.mpr ha))
      (List.idxOf_lt_length_iff.mpr (mem_byRank.mpr hb)) hab
    rwa [List.getElem_idxOf, List.getElem_idxOf] at hpair
  refine ⟨hbefore hi hj, ?_⟩
  intro h
  rcases Nat.lt_trichotomy (seat n rank i) (seat n rank j) with hlt | heq | hgt
  · exact hlt
  · obtain rfl := (List.idxOf_inj (mem_byRank.mpr hi)).mp heq
    exact absurd h h.asymm
  · exact absurd h (hbefore hj hi hgt).asymm

/-- Each node has a number, and each number a node. -/
theorem bijOn_seat (n : Nat) (rank : Nat → Int) :
    Set.BijOn (seat n rank) (Set.Iio n) (Set.Iio n) := by
  refine ⟨?_, ?_, ?_⟩
  · intro i hi
    have hlt := List.idxOf_lt_length_iff.mpr (mem_byRank.mpr hi : i ∈ byRank n rank)
    exact hlt.trans_eq length_byRank
  · intro i hi j _ heq
    exact (List.idxOf_inj (mem_byRank.mpr hi)).mp heq
  · intro k hk
    have hk' : k < (byRank n rank).length := length_byRank.symm ▸ hk
    exact ⟨(byRank n rank)[k], mem_byRank.mp (List.getElem_mem hk'),
      (nodup_byRank n rank).idxOf_getElem k hk'⟩

end Seats

end Ring

end PackedDrawing
