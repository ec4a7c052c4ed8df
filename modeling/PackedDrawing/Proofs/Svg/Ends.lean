import PackedDrawing.Proofs.Component.Readings
import PackedDrawing.Proofs.Layout.Home
import PackedDrawing.Proofs.Svg.Sheet

/-!
# The links that are drawn

A link is drawn when both of its ends have the index of a node; a link with an end without an index,
or one behind the last node, is left out. Indices below zero count from the last node, so the
statements are about links without them.

## Main definitions

* `Endpoint.index?`, `Endpoint.under?`: the index of an end of a link, and the node under it.
* `Endpoint.node?`: the node that an end of a link means.
* `Link.joins`: both ends have the index of a node.
* `Link.Followed`: the ends of a link are whole numbers or nodes, and no index is below zero.

## Main statements

* `Svg.linkPart_eq`: what is drawn of a link.
-/

namespace PackedDrawing

/-- Each node has its position as its index. -/
def Node.Enumerated {α : Type} (nodes : List (Node α)) : Prop :=
  ∀ (i : Nat) (n : Node α), nodes[i]? = some n → n.index.position = .ok (i : Int)

namespace Endpoint

variable {α : Type} {nodes : List (Node α)} {e : Endpoint α}

/-- The index that an end of a link has, if it is a whole number. -/
def index? (nodes : List (Node α)) (e : Endpoint α) : Option Int :=
  match e.mention nodes with
  | .whole h => some h.position
  | .index v => v.position.toOption
  | .unset | .bare | .foreign => none

/-- The end of a link is a whole number, or a node whose index is one if it is set. -/
def Sited (nodes : List (Node α)) (e : Endpoint α) : Prop :=
  match e.mention nodes with
  | .whole _ | .unset => True
  | .index v => ∃ i, v.position = .ok i
  | .bare | .foreign => False

/-- The end of a link has the index of a node. -/
def within (nodes : List (Node α)) (e : Endpoint α) : Bool :=
  (e.index? nodes).any fun i => decide (InGraph nodes.length i)

/-- The node under the index of an end of a link. -/
def under? (nodes : List (Node α)) (e : Endpoint α) : Option (Node α) :=
  (e.index? nodes).bind fun i => if 0 ≤ i then nodes[i.toNat]? else none

/-- The node of a drawing that an end of a link means: the node itself if it is a member, or else the
one under the index. -/
def node? (nodes : List (Node α)) : Endpoint α → Option (Node α)
  | .member k => nodes[k]?
  | .value v => (value v).under? nodes
  | .guest name n => (guest name n).under? nodes

theorem mem_of_under? {n : Node α} (h : e.under? nodes = some n) : n ∈ nodes := by
  obtain ⟨i, _, h⟩ := Option.bind_eq_some_iff.mp h
  by_cases hlow : 0 ≤ i
  · rw [if_pos hlow] at h
    exact List.mem_of_getElem? h
  · rw [if_neg hlow] at h
    cases h

theorem isSome_under? (nodes : List (Node α)) (e : Endpoint α) :
    (e.under? nodes).isSome = e.within nodes := by
  rw [under?, within]
  cases e.index? nodes with
  | none => rfl
  | some i =>
      rw [Bool.eq_iff_iff, Option.bind_some, Option.any_some, decide_eq_true_iff, InGraph]
      by_cases hlow : 0 ≤ i
      · rw [if_pos hlow, isSome_getElem?]
        omega
      · simp [hlow]

/-- Where each node has its position as its index, the node that is an end is the one under the
index. -/
theorem node?_eq (hindex : Node.Enumerated nodes) : e.node? nodes = e.under? nodes := by
  cases e with
  | value v => rfl
  | guest name n => rfl
  | member k =>
      cases hk : nodes[k]? with
      | none => simp [node?, under?, index?, mention, hk]
      | some n =>
          have hposition := hindex k n hk
          have hmention : Mention.ofIndex n.index = .index n.index := by
            cases hv : n.index with
            | null =>
                rw [hv] at hposition
                cases hposition
            | int | real | bool | text | list | table | thing => rfl
          simp [node?, under?, index?, mention, hk, hmention, hposition, Except.toOption]

/-- An end with the index of a node is a whole number or a node. -/
theorem sited_of_within (h : e.within nodes = true) : e.Sited nodes := by
  rw [within, index?] at h
  rw [Sited.eq_def]
  cases hm : e.mention nodes with
  | whole | unset => exact trivial
  | index v =>
      rw [hm] at h
      dsimp only at h
      cases hv : v.position with
      | ok i => exact ⟨i, hv⟩
      | error f =>
          rw [hv] at h
          cases h
  | bare | foreign =>
      rw [hm] at h
      cases h

end Endpoint

namespace Svg

section Ends

variable {α : Type} [Scalar α] {nodes : List (Node α)} {e : Endpoint α} {v : Value α} {i : Int}

omit [Scalar α] in
/-- The index by which an end is drawn is the one that it has. -/
theorem drawnIndex_of_sited (h : e.Sited nodes) :
    e.index? nodes = none ∧ drawnIndex nodes e = .ok none ∨
      ∃ i v, e.index? nodes = some i ∧ drawnIndex nodes e = .ok (some v) ∧ v.position = .ok i := by
  have hsound := Endpoint.sound_mention nodes e
  rw [Endpoint.Sited.eq_def] at h
  rw [drawnIndex, Endpoint.index?]
  cases hm : e.mention nodes with
  | whole m =>
      rw [hm] at hsound
      exact Or.inr ⟨_, _, rfl, rfl, Value.position_ofHandle hsound⟩
  | index v =>
      rw [hm] at h
      obtain ⟨i, hi⟩ := h
      exact Or.inr ⟨i, v, congrArg Except.toOption hi, rfl, hi⟩
  | unset => exact Or.inl ⟨rfl, rfl⟩
  | bare | foreign =>
      rw [hm] at h
      exact h.elim

omit [Scalar α] in
theorem nodeAt_of_position {n : Node α} (h : v.position = .ok i) (hlow : 0 ≤ i)
    (hn : nodes[i.toNat]? = some n) : nodeAt nodes v = .ok n := by
  obtain ⟨hlt, _⟩ := List.getElem?_eq_some_iff.mp hn
  have hin : InGraph nodes.length i := ⟨hlow, by omega⟩
  rw [nodeAt, h, ok_bind, at?, Handle.place?_of_inGraph hin, Option.bind_some, hn]
  rfl

/-- An index that is not below zero lies behind the last node when there is no node under it. -/
theorem beyond_of_position (h : v.position = .ok i) (hlow : 0 ≤ i) :
    beyond nodes v = .ok nodes[i.toNat]?.isNone := by
  rw [beyond, Value.number_of_position h, ok_bind]
  refine congrArg Except.ok ?_
  rw [Number.le, Number.lt, Number.eq, Bool.eq_iff_iff, Bool.or_eq_true, beq_iff_eq,
    decide_eq_true_iff, Option.isNone_iff_eq_none, List.getElem?_eq_none_iff]
  omega

end Ends

end Svg

namespace Link

variable {α : Type} {nodes : List (Node α)} {k : Link α}

/-- Both ends of a link have the index of a node. -/
def joins (nodes : List (Node α)) (k : Link α) : Bool :=
  k.source.within nodes && k.target.within nodes

/-- The nodes under the indices at both ends of a link, if there are any. -/
def ends? (nodes : List (Node α)) (k : Link α) : Option (Node α × Node α) :=
  (k.source.under? nodes).bind fun s => (k.target.under? nodes).map fun t => (s, t)

theorem ends?_eq_some_iff {s t : Node α} : k.ends? nodes = some (s, t) ↔
    k.source.under? nodes = some s ∧ k.target.under? nodes = some t := by
  rw [ends?, Option.bind_eq_some_iff]
  constructor
  · rintro ⟨s', hs, h⟩
    obtain ⟨t', ht, h⟩ := Option.map_eq_some_iff.mp h
    obtain ⟨rfl, rfl⟩ := Prod.mk.inj h
    exact ⟨hs, ht⟩
  · rintro ⟨hs, ht⟩
    exact ⟨s, hs, by rw [ht]; rfl⟩

theorem isSome_ends? (nodes : List (Node α)) (k : Link α) :
    (k.ends? nodes).isSome = k.joins nodes := by
  rw [joins, ← Endpoint.isSome_under?, ← Endpoint.isSome_under?, ends?]
  cases k.source.under? nodes with
  | none => rfl
  | some s => cases k.target.under? nodes <;> rfl

theorem joins_nil (k : Link α) : k.joins [] = false := by
  have hwithin : k.source.within [] = false := by
    rw [Endpoint.within]
    cases k.source.index? [] with
    | none => rfl
    | some i =>
        rw [Option.any_some, decide_eq_false_iff_not, InGraph, List.length_nil]
        omega
  rw [joins, hwithin, Bool.false_and]

/-- A link can be followed when its ends are whole numbers or nodes, and none of their indices is
below zero. -/
def Followed (nodes : List (Node α)) (k : Link α) : Prop :=
  ∀ e ∈ [k.source, k.target], e.Sited nodes ∧ ∀ i, e.index? nodes = some i → 0 ≤ i

/-- A link that joins two nodes can be followed. -/
theorem followed_of_joins (h : k.joins nodes = true) : k.Followed nodes := by
  rw [joins, Bool.and_eq_true] at h
  have hlow : ∀ e : Endpoint α, e.within nodes = true →
      e.Sited nodes ∧ ∀ i, e.index? nodes = some i → 0 ≤ i := by
    intro e he
    refine ⟨Endpoint.sited_of_within he, ?_⟩
    intro i hi
    rw [Endpoint.within, hi, Option.any_some, decide_eq_true_iff] at he
    exact he.1
  intro e he
  rcases List.mem_pair.mp he with rfl | rfl
  · exact hlow _ h.1
  · exact hlow _ h.2

end Link

namespace Svg

variable {α : Type} [Scalar α] {nodes : List (Node α)} {o : Options α} {shift : Point (Number α)}
  {k : Link α}

/-- What is drawn of a link: the line between its nodes, or nothing at all. -/
theorem linkPart_eq (h : k.Followed nodes) :
    linkPart o nodes shift k = match k.ends? nodes with
      | some (s, t) => (fun points => some (.polyline points o.edgeColor o.edgeWidth)) <$>
          (spot s :: k.bends ++ [spot t]).mapM (moved shift)
      | none => .ok none := by
  obtain ⟨hsource, hsourceLow⟩ := h k.source (by simp)
  obtain ⟨htarget, htargetLow⟩ := h k.target (by simp)
  rw [Link.ends?, Endpoint.under?, Endpoint.under?, linkPart]
  rcases drawnIndex_of_sited hsource with ⟨hi, hv⟩ | ⟨i, v, hi, hv, hvi⟩
  · -- the source has no index; the target is looked at nevertheless
    rcases drawnIndex_of_sited htarget with ⟨hj, hw⟩ | ⟨j, w, hj, hw, hwj⟩ <;>
      rw [hv, ok_bind, hw, ok_bind, hi] <;> rfl
  · rcases drawnIndex_of_sited htarget with ⟨hj, hw⟩ | ⟨j, w, hj, hw, hwj⟩
    · rw [hv, ok_bind, hw, ok_bind, hj, Option.bind_none]
      simp only [Option.map_none, Option.bind_fun_none]
      rfl
    · have hlow := hsourceLow i hi
      have hlow' := htargetLow j hj
      rw [hv, ok_bind, hw, ok_bind, hi, hj, Option.bind_some, Option.bind_some, if_pos hlow,
        if_pos hlow']
      dsimp only
      rw [beyond_of_position hvi hlow, ok_bind, beyond_of_position hwj hlow']
      cases hs : nodes[i.toNat]? with
      | none => rfl
      | some s =>
          cases ht : nodes[j.toNat]? with
          | none => rfl
          | some t =>
              rw [nodeAt_of_position hvi hlow hs, nodeAt_of_position hwj hlow' ht]
              rfl

theorem linkPart_of_none (h : k.Followed nodes) (hends : k.ends? nodes = none) :
    linkPart o nodes shift k = .ok none := by
  rw [linkPart_eq h, hends]

theorem linkPart_eq_ok_iff (h : k.Followed nodes) {s t : Node α}
    (hends : k.ends? nodes = some (s, t)) {drawn : Option (Part α)} :
    linkPart o nodes shift k = .ok drawn ↔
      ∃ points, (spot s :: k.bends ++ [spot t]).mapM (moved shift) = .ok points ∧
        drawn = some (.polyline points o.edgeColor o.edgeWidth) := by
  rw [linkPart_eq h, hends]
  dsimp only
  cases (spot s :: k.bends ++ [spot t]).mapM (moved shift) with
  | error e => simp [Functor.map, Except.map]
  | ok points => simp [Functor.map, Except.map, eq_comm]

end Svg

end PackedDrawing
