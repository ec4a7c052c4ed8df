import PackedDrawing.Proofs.Placement.Moves
import PackedDrawing.Proofs.Component.Sharing
import PackedDrawing.Layout.Mosaic

/-!
# The records of the components

The records that are collected for the components of a graph have homes of their own, and no record
belongs to two components, because no node and no link does.

## Main definitions

* `Record.ofPart`: the records of a component.

## Main statements

* `Record.collect_eq`: what is collected, in every drawing of the same shape.
* `Record.nodup_parts`: no record is collected twice.
-/

namespace PackedDrawing

open Search

/-- A position in a graph is its own place. -/
theorem Handle.place?_of_inGraph {n : Nat} {i : Int} (h : InGraph n i) :
    place? n i = some i.toNat := by
  obtain ⟨hlow, hhigh⟩ := h
  have hnat : place? n (i.toNat : Nat) = some i.toNat := place?_ofNat (by omega)
  rwa [Int.toNat_of_nonneg hlow] at hnat

namespace Record

variable {α : Type}

/-- The records of a component: its nodes, and the bends of its links if bends take part. -/
def ofPart (d : Drawing α) (flags : Flags) (part : List Handle × List Nat) : List Record :=
  (part.1.map fun h => node h.position.toNat) ++
    if flags.bends then part.2.flatMap (bendsOf d) else []

theorem bendsOf_eq (d : Drawing α) (l : Nat) :
    bendsOf d l = (List.range (count d l)).map fun k => bend l (k : Nat) := rfl

theorem mem_bendsOf_iff {d : Drawing α} {l : Nat} {r : Record} :
    r ∈ bendsOf d l ↔ ∃ k < count d l, r = bend l (k : Nat) := by
  rw [bendsOf_eq, List.mem_map]
  constructor
  · rintro ⟨k, hk, rfl⟩
    exact ⟨k, List.mem_range.mp hk, rfl⟩
  · rintro ⟨k, hk, rfl⟩
    exact ⟨k, List.mem_range.mpr hk, rfl⟩

theorem mem_ofPart_iff {d : Drawing α} {flags : Flags} {part : List Handle × List Nat}
    {r : Record} :
    r ∈ ofPart d flags part ↔ (∃ h ∈ part.1, r = node h.position.toNat) ∨
      flags.bends = true ∧ ∃ l ∈ part.2, ∃ k < count d l, r = bend l (k : Nat) := by
  rw [ofPart, List.mem_append, List.mem_map]
  refine or_congr ?_ ?_
  · simp only [eq_comm]
  · cases flags.bends with
    | false => simp
    | true => simp [List.mem_flatMap, mem_bendsOf_iff]

theorem SameShape.ofPart_eq {d d' : Drawing α} (h : SameShape d d') (flags : Flags)
    (part : List Handle × List Nat) : ofPart d' flags part = ofPart d flags part := by
  have hbends : bendsOf d' = bendsOf d := by
    funext l
    rw [bendsOf_eq, bendsOf_eq, h.bends]
  rw [ofPart, ofPart, hbends]

/-- The records of a component are where their points are kept. -/
theorem home_ofPart {d : Drawing α} {flags : Flags} {part : List Handle × List Nat} {r : Record}
    (hr : r ∈ ofPart d flags part) : home d r = r := by
  rcases mem_ofPart_iff.mp hr with ⟨h, _, rfl⟩ | ⟨_, l, _, k, hk, rfl⟩
  · rfl
  · rw [home, Handle.place?_ofNat hk]

theorem map_home_ofPart (d : Drawing α) (flags : Flags) (part : List Handle × List Nat) :
    (ofPart d flags part).map (home d) = ofPart d flags part :=
  (List.map_congr_left fun _ hr => home_ofPart hr).trans (List.map_id _)

theorem places_nodeValues {n : Nat} {c : List Handle} (hsound : ∀ h ∈ c, h.Sound)
    (hin : ∀ h ∈ c, InGraph n h.position) :
    Value.places n (Mosaic.nodeValues c : List (Value α)) = .ok (c.map (·.position.toNat)) := by
  rw [Value.places, Mosaic.nodeValues, mapM_eq_ok_iff, List.forall₂_map_left_iff,
    List.forall₂_map_right_iff, List.forall₂_same]
  intro h hh
  rw [Value.position_ofHandle (hsound h hh), ok_bind, Handle.place?_of_inGraph (hin h hh)]
  rfl

theorem places_linkValues {n : Nat} {es : List Nat} (hin : ∀ e ∈ es, e < n) :
    Value.places n (Mosaic.linkValues es : List (Value α)) = .ok es := by
  rw [Value.places, Mosaic.linkValues, mapM_eq_ok_iff, List.forall₂_map_left_iff, List.forall₂_same]
  intro e he
  have hposition : (Value.int (e : Nat) : Value α).position = .ok (e : Nat) := rfl
  rw [hposition, ok_bind, Handle.place?_ofNat (hin e he)]
  rfl

/-- A part of a drawing: nodes and links by positions that the drawing has. -/
structure HasPart (d : Drawing α) (part : List Handle × List Nat) : Prop where
  sound : ∀ h ∈ part.1, h.Sound
  node : ∀ h ∈ part.1, InGraph d.nodes.length h.position
  link : ∀ e ∈ part.2, e < d.links.length

theorem HasPart.of_sameShape {d d' : Drawing α} {part : List Handle × List Nat} (h : HasPart d part)
    (hshape : SameShape d d') : HasPart d' part :=
  ⟨h.sound, hshape.nodes.symm ▸ h.node, hshape.links.symm ▸ h.link⟩

theorem collect_eq [Scalar α] {d : Drawing α} {part : List Handle × List Nat} (h : HasPart d part)
    (flags : Flags) :
    collect d (Mosaic.nodeValues part.1) (Mosaic.linkValues part.2) flags =
      .ok (ofPart d flags part) := by
  rw [collect, places_nodeValues h.sound h.node, ok_bind, ofPart]
  cases flags.bends with
  | false =>
      rw [if_neg Bool.false_ne_true, if_neg Bool.false_ne_true, List.append_nil, List.map_map]
      rfl
  | true =>
      rw [if_pos rfl, if_pos rfl, places_linkValues h.link, ok_bind, List.map_map]
      rfl

section Parts

variable {g : Grouping}

theorem part_of_shares {d : Drawing α} (hg : g.Shares d.nodes.length d.ends)
    {part : List Handle × List Nat} (hpart : part ∈ g.nodes.zip g.links) : HasPart d part := by
  obtain ⟨hnodes, hlinks⟩ := List.of_mem_zip hpart
  refine ⟨hg.sound _ hnodes, fun h => hg.inside hnodes, ?_⟩
  intro e he
  obtain ⟨l, hl, _⟩ := (hg.mem_links_iff part hpart e).mp he
  have hlength : d.ends.length = d.links.length := List.length_map _
  exact hlength ▸ (List.getElem?_eq_some_iff.mp hl).1

theorem nodup_nodes {d : Drawing α} {part : List Handle × List Nat} (hpart : HasPart d part)
    (hascending : (positions part.1).Pairwise (· < ·)) :
    (part.1.map fun h => node h.position.toNat).Nodup := by
  rw [positions, List.pairwise_map] at hascending
  rw [List.Nodup, List.pairwise_map]
  refine hascending.imp_of_mem ?_
  intro a b ha hb hlt heq
  have hnat := Record.node.inj heq
  have hina := hpart.node a ha
  have hinb := hpart.node b hb
  unfold InGraph at hina hinb
  omega

theorem nodup_bends (d : Drawing α) {es : List Nat} (hascending : es.Pairwise (· < ·)) :
    (es.flatMap (bendsOf d)).Nodup := by
  rw [List.nodup_flatMap]
  constructor
  · intro l _
    rw [bendsOf_eq]
    exact List.nodup_range.map fun _ _ heq => Int.ofNat.inj (Record.bend.inj heq).2
  · refine hascending.imp ?_
    intro l l' hlt r hr hr'
    obtain ⟨k, _, rfl⟩ := mem_bendsOf_iff.mp hr
    obtain ⟨k', _, heq⟩ := mem_bendsOf_iff.mp hr'
    exact absurd (Record.bend.inj heq).1 (Nat.ne_of_lt hlt)

theorem nodup_ofPart {d : Drawing α} (hg : g.Shares d.nodes.length d.ends) (flags : Flags)
    {part : List Handle × List Nat} (hpart : part ∈ g.nodes.zip g.links) :
    (ofPart d flags part).Nodup := by
  obtain ⟨hnodes, hlinks⟩ := List.of_mem_zip hpart
  have hvertices := nodup_nodes (part_of_shares hg hpart)
    (hg.classes.ascending _ (List.mem_map_of_mem hnodes))
  rw [ofPart]
  cases flags.bends with
  | false =>
      rw [if_neg Bool.false_ne_true, List.append_nil]
      exact hvertices
  | true =>
      rw [if_pos rfl]
      refine List.nodup_append'.mpr ⟨hvertices, nodup_bends d (hg.ascending _ hlinks), ?_⟩
      intro r hr hr'
      obtain ⟨h, _, rfl⟩ := List.mem_map.mp hr
      obtain ⟨l, _, hr'⟩ := List.mem_flatMap.mp hr'
      obtain ⟨k, _, heq⟩ := mem_bendsOf_iff.mp hr'
      cases heq

theorem disjoint_ofPart {d : Drawing α} (flags : Flags) {x y : List Handle × List Nat}
    (hx : HasPart d x) (hy : HasPart d y)
    (h : (positions x.1).Disjoint (positions y.1) ∧ x.2.Disjoint y.2) :
    (ofPart d flags x).Disjoint (ofPart d flags y) := by
  intro r hrx hry
  rcases mem_ofPart_iff.mp hrx with ⟨a, ha, rfl⟩ | ⟨_, l, hl, k, _, rfl⟩
  · rcases mem_ofPart_iff.mp hry with ⟨b, hb, heq⟩ | ⟨_, l', _, k', _, heq⟩
    · have hposition : a.position = b.position := by
        have hnat := Record.node.inj heq
        have := hx.node a ha
        have := hy.node b hb
        unfold InGraph at *
        omega
      exact h.1 (position_mem ha) (hposition ▸ position_mem hb)
    · cases heq
  · rcases mem_ofPart_iff.mp hry with ⟨b, _, heq⟩ | ⟨_, l', hl', k', _, heq⟩
    · cases heq
    · exact h.2 hl ((Record.bend.inj heq).1 ▸ hl')

/-- No record is collected twice. -/
theorem nodup_parts {d : Drawing α} (hg : g.Shares d.nodes.length d.ends) (flags : Flags) :
    ((g.nodes.zip g.links).map (ofPart d flags)).flatten.Nodup := by
  rw [List.nodup_flatten]
  constructor
  · intro rs hrs
    obtain ⟨part, hpart, rfl⟩ := List.mem_map.mp hrs
    exact nodup_ofPart hg flags hpart
  · rw [List.pairwise_map]
    refine hg.pairwise_disjoint.imp_of_mem ?_
    intro x y hx hy h
    exact disjoint_ofPart flags (part_of_shares hg hx) (part_of_shares hg hy) h

end Parts

end Record

/-- A component of a drawing is posed by its records. -/
theorem Mosaic.poseComponent_eq {α : Type} [Scalar α] {s : Mosaic α} {d : Drawing α}
    {x : List Handle × List Nat} (hx : Record.HasPart d x) :
    s.poseComponent x.1 x.2 d =
      (orient (Record.ofPart d s.flags x) s.border s.envelope >>= fun g =>
        pure (Record.ofPart d s.flags x, g)) d := by
  rw [poseComponent, Act.bind_of_ok (Act.state_apply d), Record.collect_eq hx,
    Act.bind_of_ok (Act.attempt_apply _ _)]

end PackedDrawing
