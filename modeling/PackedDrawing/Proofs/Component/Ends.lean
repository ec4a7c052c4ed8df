import PackedDrawing.Numeric.Double
import PackedDrawing.Proofs.Component.Classes

/-!
# Components of a graph with links as they are read

The ends of links are values. A link leads from one position to another when both of its ends are
whole numbers or truth values; two nodes are connected when a chain of links with both ends in the
graph leads from one to the other. The components are the classes of connected nodes.

## Main statements

* `Grouping.components_classes`: for links between whole numbers the search always answers.
* `Grouping.classes_of_components`: whenever it answers, the answer is the list of classes.
-/

namespace PackedDrawing

/-- Whether a position is that of a node in a graph with `n` nodes. -/
def InGraph (n : Nat) (i : Int) : Prop := 0 ≤ i ∧ i < n

instance (n : Nat) (i : Int) : Decidable (InGraph n i) := inferInstanceAs (Decidable (_ ∧ _))

namespace Value

variable {α : Type}

theorem position_eq_ok_iff {v : Value α} {i : Int} :
    v.position = .ok i ↔ ∃ h, v.handle? = some h ∧ h.position = i := by
  unfold position
  cases v.handle? <;> simp

theorem mentioned_eq_ok_iff {v : Value α} {h : Handle} :
    v.mentioned = .ok h ↔ v.handle? = some h := by
  unfold mentioned
  cases v.handle? <;> simp

variable [Scalar α]

/-- Whole numbers and truth values are compared with the size of the graph exactly. -/
theorem inside_of_handle? {v : Value α} {h : Handle} (hv : v.handle? = some h) (n : Nat) :
    v.inside n = .ok (decide (InGraph n h.position)) := by
  have hle : ∀ i : Int,
      ((decide (0 < i) || (0 == i)) && decide (i < n)) = decide (InGraph n i) := by
    intro i
    rw [Bool.eq_iff_iff, Bool.and_eq_true, Bool.or_eq_true, decide_eq_true_eq, decide_eq_true_eq,
      decide_eq_true_eq, beq_iff_eq, InGraph]
    omega
  cases v with
  | int i =>
      obtain rfl := Option.some.inj hv
      exact congrArg Except.ok (hle i)
  | bool b =>
      obtain rfl := Option.some.inj hv
      exact congrArg Except.ok (hle _)
  | real | null | text | list | table | thing => cases hv

end Value

namespace Ends

variable {α : Type}

/-- A link leads from one position to another when its ends are whole numbers, or truth values, that
mention these positions. -/
def Leads (e : Ends α) (i j : Int) : Prop :=
  ∃ v w, e.source = .ok v ∧ e.target = .ok w ∧ v.position = .ok i ∧ w.position = .ok j

theorem leads_iff {e : Ends α} {i j : Int} :
    e.Leads i j ↔ ∃ v w s t, e.source = .ok v ∧ e.target = .ok w ∧ v.handle? = some s ∧
      w.handle? = some t ∧ s.position = i ∧ t.position = j := by
  simp only [Leads, Value.position_eq_ok_iff]
  constructor
  · rintro ⟨v, w, hv, hw, ⟨s, hs, hi⟩, ⟨t, ht, hj⟩⟩
    exact ⟨v, w, s, t, hv, hw, hs, ht, hi, hj⟩
  · rintro ⟨v, w, s, t, hv, hw, hs, ht, hi, hj⟩
    exact ⟨v, w, hv, hw, ⟨s, hs, hi⟩, ⟨t, ht, hj⟩⟩

theorem Leads.unique {e : Ends α} {i j i' j' : Int} (h : e.Leads i j) (h' : e.Leads i' j') :
    i = i' ∧ j = j' := by
  obtain ⟨v, w, hv, hw, hi, hj⟩ := h
  obtain ⟨v', w', hv', hw', hi', hj'⟩ := h'
  obtain rfl := Except.ok.inj (hv.symm.trans hv')
  obtain rfl := Except.ok.inj (hw.symm.trans hw')
  exact ⟨Except.ok.inj (hi.symm.trans hi'), Except.ok.inj (hj.symm.trans hj')⟩

end Ends

namespace Grouping

variable {α : Type}

/-- Two nodes of a graph are adjacent when a link leads from one to the other, in either
direction. -/
def Adjacent (n : Nat) (links : List (Ends α)) (i j : Int) : Prop :=
  InGraph n i ∧ InGraph n j ∧ ∃ e ∈ links, e.Leads i j ∨ e.Leads j i

/-- Two nodes of a graph are connected when a chain of links leads from one to the other. -/
def Connected (n : Nat) (links : List (Ends α)) : Int → Int → Prop :=
  Relation.ReflTransGen (Adjacent n links)

variable [Scalar α] {n : Nat} {links : List (Ends α)}

/-- A link between whole numbers counts when both ends lie in the graph. -/
theorem edgeOf_of_handle? {e : Ends α} {v w : Value α} {s t : Handle} (hv : e.source = .ok v)
    (hw : e.target = .ok w) (hs : v.handle? = some s) (ht : w.handle? = some t) :
    edgeOf n e = .ok (if InGraph n s.position ∧ InGraph n t.position then some (s, t) else none) := by
  unfold edgeOf
  rw [hv, hw, ok_bind, ok_bind, Value.inside_of_handle? hs, ok_bind]
  by_cases hin : InGraph n s.position
  · rw [if_pos (decide_eq_true hin), Value.inside_of_handle? ht, ok_bind]
    by_cases hit : InGraph n t.position
    · rw [if_pos (decide_eq_true hit), if_pos ⟨hin, hit⟩, Value.mentioned_eq_ok_iff.mpr hs,
        Value.mentioned_eq_ok_iff.mpr ht]
      rfl
    · rw [if_neg (by simpa using hit), if_neg fun h => hit h.2]
      rfl
  · rw [if_neg (by simpa using hin), if_neg fun h => hin h.1]
    rfl

/-- A link that counts has both ends in the graph. -/
theorem leads_of_edgeOf {e : Ends α} {s t : Handle} (h : edgeOf n e = .ok (some (s, t))) :
    e.Leads s.position t.position ∧ InGraph n s.position ∧ InGraph n t.position := by
  have h' := h
  unfold edgeOf at h'
  obtain ⟨v, hv, h'⟩ := bind_eq_ok.mp h'
  obtain ⟨w, hw, h'⟩ := bind_eq_ok.mp h'
  obtain ⟨b, _, h'⟩ := bind_eq_ok.mp h'
  cases b with
  | false => cases h'
  | true =>
      obtain ⟨c, _, h'⟩ := bind_eq_ok.mp h'
      cases c with
      | false => cases h'
      | true =>
          obtain ⟨s', hs, h'⟩ := bind_eq_ok.mp h'
          obtain ⟨t', ht, h'⟩ := bind_eq_ok.mp h'
          obtain ⟨rfl, rfl⟩ := Prod.mk.inj (Option.some.inj (Except.ok.inj h'))
          rw [Value.mentioned_eq_ok_iff] at hs ht
          rw [edgeOf_of_handle? hv hw hs ht, Except.ok.injEq] at h
          by_cases hin : InGraph n s'.position ∧ InGraph n t'.position
          · exact ⟨Ends.leads_iff.mpr ⟨v, w, s', t', hv, hw, hs, ht, rfl, rfl⟩, hin⟩
          · rw [if_neg hin] at h
            cases h

/-- A link between whole numbers can always be read. -/
theorem exists_edgeOf {e : Ends α} {i j : Int} (h : e.Leads i j) :
    ∃ r, edgeOf n e = .ok r := by
  obtain ⟨v, w, s, t, hv, hw, hs, ht, _, _⟩ := Ends.leads_iff.mp h
  exact ⟨_, edgeOf_of_handle? hv hw hs ht⟩

/-- The links that count, when all links can be read, link exactly the adjacent nodes. -/
theorem linked_edgesWithin {edges : List Search.Edge} (h : edgesWithin n links = .ok edges)
    {i j : Int} : Search.Linked edges i j ↔ Adjacent n links i j := by
  obtain ⟨found, hfound, h⟩ := bind_eq_ok.mp h
  obtain rfl := pure_eq_ok.mp h
  have hmem : ∀ s t : Handle, (s, t) ∈ found.filterMap id ↔
      ∃ e ∈ links, edgeOf n e = .ok (some (s, t)) := by
    intro s t
    rw [List.mem_filterMap, ← mem_iff_of_mapM hfound]
    simp
  constructor
  · rintro ⟨⟨s, t⟩, he, ⟨rfl, rfl⟩ | ⟨rfl, rfl⟩⟩
    · obtain ⟨e, hel, hedge⟩ := (hmem s t).mp he
      obtain ⟨hlead, hs, ht⟩ := leads_of_edgeOf hedge
      exact ⟨hs, ht, e, hel, Or.inl hlead⟩
    · obtain ⟨e, hel, hedge⟩ := (hmem s t).mp he
      obtain ⟨hlead, hs, ht⟩ := leads_of_edgeOf hedge
      exact ⟨ht, hs, e, hel, Or.inr hlead⟩
  · rintro ⟨hi, hj, e, he, hlead | hlead⟩
    · obtain ⟨v, w, s, t, hv, hw, hs, ht, rfl, rfl⟩ := Ends.leads_iff.mp hlead
      have hedge := edgeOf_of_handle? (n := n) hv hw hs ht
      rw [if_pos ⟨hi, hj⟩] at hedge
      exact ⟨(s, t), (hmem s t).mpr ⟨e, he, hedge⟩, Or.inl ⟨rfl, rfl⟩⟩
    · obtain ⟨v, w, s, t, hv, hw, hs, ht, rfl, rfl⟩ := Ends.leads_iff.mp hlead
      have hedge := edgeOf_of_handle? (n := n) hv hw hs ht
      rw [if_pos ⟨hj, hi⟩] at hedge
      exact ⟨(s, t), (hmem s t).mpr ⟨e, he, hedge⟩, Or.inr ⟨rfl, rfl⟩⟩

theorem inside_edgesWithin {edges : List Search.Edge} (h : edgesWithin n links = .ok edges) :
    Search.Inside n edges := by
  obtain ⟨found, hfound, h⟩ := bind_eq_ok.mp h
  obtain rfl := pure_eq_ok.mp h
  rintro ⟨s, t⟩ he
  obtain ⟨r, hr, rfl⟩ := List.mem_filterMap.mp he
  obtain ⟨e, _, hedge⟩ := (mem_iff_of_mapM hfound).mp hr
  exact (leads_of_edgeOf hedge).2

/-- Whenever the search for components answers, it lists the classes of connected nodes. -/
theorem classes_of_components {found : List (List Handle)} (h : components n links = .ok found) :
    Classes n (Connected n links) (found.map Search.positions) := by
  obtain ⟨edges, hedges, h⟩ := bind_eq_ok.mp h
  obtain rfl := pure_eq_ok.mp h
  have hlinked : Search.Linked edges = Adjacent n links := by
    funext i j
    exact propext (linked_edgesWithin hedges)
  have hclasses := Search.classes_components (inside_edgesWithin hedges)
  rw [Search.Joined, hlinked] at hclasses
  exact hclasses

theorem exists_edgesWithin (h : ∀ e ∈ links, ∃ i j, e.Leads i j) :
    ∃ edges, edgesWithin n links = .ok edges := by
  obtain ⟨found, hfound⟩ := exists_mapM_eq_ok (f := edgeOf n) fun e he => by
    obtain ⟨i, j, hlead⟩ := h e he
    exact exists_edgeOf hlead
  exact ⟨found.filterMap id, bind_eq_ok.mpr ⟨found, hfound, rfl⟩⟩

/-- Links between whole numbers, be they in the graph or not, always have components, and these are
the classes of connected nodes. -/
theorem components_classes (n : Nat) (links : List (Ends α))
    (whole : ∀ e ∈ links, ∃ i j, e.Leads i j) :
    ∃ found, components n links = .ok found ∧
      Classes n (Connected n links) (found.map Search.positions) := by
  obtain ⟨edges, hedges⟩ := exists_edgesWithin (n := n) whole
  have hfound : components n links = .ok (Search.components n edges) :=
    bind_eq_ok.mpr ⟨edges, hedges, rfl⟩
  exact ⟨_, hfound, classes_of_components hfound⟩

/-- Five nodes with two parallel links the one against the other, a loop written with a truth value,
and links that leave the graph at either side. -/
def looseLinks : List (Ends Float) :=
  [(.int 0, .int 3), (.int 3, .int 0), (.bool true, .int 1), (.int 2, .int 7),
    (.int (-1), .int 4)].map fun e => ⟨.ok e.1, .ok e.2⟩

theorem components_classes_looseLinks :
    (∀ e ∈ looseLinks, ∃ i j, e.Leads i j) ∧ Connected 5 looseLinks 3 0 ∧
      ∃ found, components 5 looseLinks = .ok found ∧
        Classes 5 (Connected 5 looseLinks) (found.map Search.positions) := by
  have whole : ∀ e ∈ looseLinks, ∃ i j, e.Leads i j := by
    intro e he
    simp only [looseLinks, List.map_cons, List.map_nil, List.mem_cons, List.not_mem_nil,
      or_false] at he
    rcases he with rfl | rfl | rfl | rfl | rfl <;> exact ⟨_, _, _, _, rfl, rfl, rfl, rfl⟩
  refine ⟨whole, Relation.ReflTransGen.single ?_, components_classes 5 looseLinks whole⟩
  refine ⟨by decide, by decide, ⟨.ok (.int 0), .ok (.int 3)⟩, by simp [looseLinks], Or.inr ?_⟩
  exact ⟨_, _, rfl, rfl, rfl, rfl⟩

end Grouping

end PackedDrawing
