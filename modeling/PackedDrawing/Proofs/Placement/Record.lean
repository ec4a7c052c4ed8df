import PackedDrawing.Placement.Record
import PackedDrawing.Proofs.Outcome

/-!
# Reading what was moved

Two records keep their points at the same place exactly when they have the same home. Moving a
record changes what is read from the records with that home, and nothing else.

## Main definitions

* `Record.home`: the record under which a point is kept; bends are counted from the front there.
* `Record.held`: the coordinates at a record, not yet read as scalars.
* `Record.SameShape`: drawings with the same records.
* `Drawing.frame`: what a drawing is without its points.

## Main statements

* `Record.held_move`: what is held where after a move.
-/

namespace PackedDrawing

/-- What a drawing is without its points: nodes without positions, and links without bends. -/
def Drawing.frame {α : Type} (d : Drawing α) : Drawing α :=
  { nodes := d.nodes.map fun n => { n with x := .null, y := .null }
    links := d.links.map fun l => { l with bends := [] } }

namespace Record

variable {α : Type}

/-- The number of bends of a link; none for a link that is not there. -/
def count (d : Drawing α) (l : Nat) : Nat := (d.links[l]?.map (·.bends.length)).getD 0

/-- The record under which a point is kept. -/
def home (d : Drawing α) : Record → Record
  | node k => node k
  | bend l i =>
    match Handle.place? (count d l) i with
    | some j => bend l (j : Nat)
    | none => bend l i

/-- The coordinates that are kept at a record. -/
def held (d : Drawing α) : Record → Option (Point (Value α))
  | node k => d.nodes[k]?.map fun n => ⟨n.x, n.y⟩
  | bend l i => d.links[l]?.bind fun link => at? link.bends i

/-- Two drawings have as many nodes and links, and as many bends on each link. -/
structure SameShape (d d' : Drawing α) : Prop where
  nodes : d'.nodes.length = d.nodes.length
  links : d'.links.length = d.links.length
  bends : ∀ l, count d' l = count d l

theorem SameShape.refl (d : Drawing α) : SameShape d d := ⟨rfl, rfl, fun _ => rfl⟩

theorem SameShape.trans {d d' d'' : Drawing α} (h : SameShape d d') (h' : SameShape d' d'') :
    SameShape d d'' :=
  ⟨h'.nodes.trans h.nodes, h'.links.trans h.links, fun l => (h'.bends l).trans (h.bends l)⟩

theorem SameShape.symm {d d' : Drawing α} (h : SameShape d d') : SameShape d' d :=
  ⟨h.nodes.symm, h.links.symm, fun l => (h.bends l).symm⟩

theorem SameShape.home_eq {d d' : Drawing α} (h : SameShape d d') (r : Record) :
    home d' r = home d r := by
  cases r with
  | node k => rfl
  | bend l i => rw [home, home, h.bends l]

theorem count_of_some {d : Drawing α} {l : Nat} {link : Link α} (h : d.links[l]? = some link) :
    count d l = link.bends.length := by
  rw [count, h]
  rfl

theorem home_bend {d : Drawing α} {l : Nat} {link : Link α} (h : d.links[l]? = some link)
    (i : Int) :
    home d (bend l i) = match Handle.place? link.bends.length i with
      | some j => bend l (j : Nat)
      | none => bend l i := by
  rw [home, count_of_some h]

theorem exists_home_bend (d : Drawing α) (l : Nat) (i : Int) :
    ∃ j, home d (bend l i) = bend l j := by
  rw [home]
  cases Handle.place? (count d l) i with
  | none => exact ⟨i, rfl⟩
  | some j => exact ⟨(j : Nat), rfl⟩

/-- A bend that is not there shares its home with no bend that is. -/
theorem home_ne_of_place?_none {d : Drawing α} {l : Nat} {link : Link α}
    (h : d.links[l]? = some link) {i i' : Int} {j : Nat}
    (hi : Handle.place? link.bends.length i = none)
    (hi' : Handle.place? link.bends.length i' = some j) :
    home d (bend l i) ≠ home d (bend l i') := by
  rw [home_bend h, home_bend h, hi, hi']
  intro heq
  obtain ⟨_, rfl⟩ := Record.bend.inj heq
  rw [Handle.place?_ofNat (Handle.place?_lt hi')] at hi
  cases hi

theorem held_home (d : Drawing α) (r : Record) : held d (home d r) = held d r := by
  cases r with
  | node k => rfl
  | bend l i =>
      cases h : d.links[l]? with
      | none =>
          obtain ⟨j, hj⟩ := exists_home_bend d l i
          rw [hj, held, held, h]
          rfl
      | some link =>
          rw [home_bend h]
          cases hi : Handle.place? link.bends.length i with
          | none => rfl
          | some j =>
              simp only [held, h, Option.bind_some, at?_ofNat]
              rw [at?, hi, Option.bind_some]

theorem held_eq_of_home_eq {d : Drawing α} {r r' : Record} (h : home d r' = home d r) :
    held d r' = held d r := by
  rw [← held_home d r', h, held_home]

section Scalars

variable [Scalar α]

theorem point_eq (d : Drawing α) (r : Record) :
    r.point d = match held d r with
      | some v => v.mapM Value.toReal
      | none => .error .outOfRange := by
  cases r with
  | node k =>
      rw [point, held]
      cases d.nodes[k]? with
      | none => rfl
      | some n => rfl
  | bend l i => rfl

theorem point_home (d : Drawing α) (r : Record) : (home d r).point d = r.point d := by
  rw [point_eq, point_eq, held_home]

theorem exists_held_of_point {d : Drawing α} {r : Record} {p : Point α} (h : r.point d = .ok p) :
    ∃ v, held d r = some v := by
  rw [point_eq] at h
  cases hheld : held d r with
  | none =>
      rw [hheld] at h
      cases h
  | some v => exact ⟨v, rfl⟩

theorem mapM_toReal_real (p : Point α) : (p.map Value.real).mapM Value.toReal = .ok p := rfl

end Scalars

theorem sameShape_move (p : Point α) (d : Drawing α) (r : Record) :
    SameShape d (r.move p d) := by
  cases r with
  | node k => exact ⟨Drawing.length_nodes_updateNode k _ d, rfl, fun _ => rfl⟩
  | bend l i =>
      refine ⟨rfl, Drawing.length_links_updateLink l _ d, ?_⟩
      intro l'
      rw [move, count, count, Drawing.updateLink, List.getElem?_modify]
      cases d.links[l']? with
      | none => rfl
      | some link =>
          simp only [Option.map_eq_map, Option.map_some, Option.getD_some]
          by_cases hl : l = l'
          · rw [if_pos hl]
            cases Handle.place? link.bends.length i with
            | none => rfl
            | some j => exact List.length_set
          · rw [if_neg hl]

/-- A move changes nothing but a point. -/
theorem frame_move (p : Point α) (d : Drawing α) (r : Record) : (r.move p d).frame = d.frame := by
  cases r with
  | node k =>
      have hnodes : (d.nodes.modify k (·.moveTo p.x p.y)).map
          (fun n => { n with x := .null, y := .null }) =
            d.nodes.map fun n => { n with x := .null, y := .null } := by
        apply map_modify_eq
        intro n
        rfl
      exact congrArg (fun nodes => ({ d.frame with nodes } : Drawing α)) hnodes
  | bend l i =>
      have hlinks : (d.links.modify l fun link =>
          match Handle.place? link.bends.length i with
          | some j => { link with bends := link.bends.set j (p.map .real) }
          | none => link).map (fun link => { link with bends := [] }) =
            d.links.map fun link => { link with bends := [] } := by
        apply map_modify_eq
        intro link
        cases Handle.place? link.bends.length i <;> rfl
      exact congrArg (fun links => ({ d.frame with links } : Drawing α)) hlinks

theorem home_bend_ne_node (d : Drawing α) (l k : Nat) (i : Int) :
    home d (bend l i) ≠ home d (node k) := by
  obtain ⟨j, hj⟩ := exists_home_bend d l i
  rw [hj]
  exact Record.noConfusion

theorem home_bend_ne_bend (d : Drawing α) {l l' : Nat} (hl : l ≠ l') (i i' : Int) :
    home d (bend l i) ≠ home d (bend l' i') := by
  obtain ⟨j, hj⟩ := exists_home_bend d l i
  obtain ⟨j', hj'⟩ := exists_home_bend d l' i'
  rw [hj, hj']
  exact fun heq => hl (Record.bend.inj heq).1

/-- What is at a position of a list after one of its items was replaced. -/
theorem at?_set {β : Type} {xs : List β} {i : Int} {j : Nat}
    (hi : Handle.place? xs.length i = some j) (y : β) (i' : Int) :
    at? (xs.set j y) i' = if Handle.place? xs.length i' = some j then some y else at? xs i' := by
  rw [at?, at?, List.length_set]
  cases hi' : Handle.place? xs.length i' with
  | none => simp
  | some j' =>
      rw [Option.bind_some, Option.bind_some, List.getElem?_set]
      by_cases hj : j = j'
      · rw [if_pos hj, if_pos (Handle.place?_lt hi), if_pos (congrArg some hj.symm)]
      · rw [if_neg hj, if_neg fun heq => hj (Option.some.inj heq).symm]

/-- Moving a bend, seen from the bends of the same link. -/
theorem held_move_bend (p : Point α) {d : Drawing α} {l : Nat} {link : Link α}
    (h : d.links[l]? = some link) (i i' : Int) :
    held ((bend l i).move p d) (bend l i') =
      if home d (bend l i') = home d (bend l i) then (held d (bend l i')).map fun _ => p.map .real
      else held d (bend l i') := by
  have hbefore : held d (bend l i') = at? link.bends i' := by
    rw [held, h]
    rfl
  have hafter : held ((bend l i).move p d) (bend l i') =
      at? (match Handle.place? link.bends.length i with
        | some j => { link with bends := link.bends.set j (p.map .real) }
        | none => link).bends i' := by
    rw [move, held, Drawing.updateLink, List.getElem?_modify_eq, h]
    rfl
  rw [hbefore, hafter]
  cases hi : Handle.place? link.bends.length i with
  | none =>
      by_cases hc : home d (bend l i') = home d (bend l i)
      · rw [if_pos hc, at?]
        cases hi' : Handle.place? link.bends.length i' with
        | none => rfl
        | some j' => exact absurd hc.symm (home_ne_of_place?_none h hi hi')
      · rw [if_neg hc]
  | some j =>
      have hsame : home d (bend l i') = home d (bend l i) ↔
          Handle.place? link.bends.length i' = some j := by
        cases hi' : Handle.place? link.bends.length i' with
        | none =>
            have hne := home_ne_of_place?_none h hi' hi
            simp [hne]
        | some j' =>
            rw [home_bend h, home_bend h, hi, hi', Option.some.injEq, Record.bend.injEq]
            exact ⟨fun heq => Int.ofNat.inj heq.2, fun heq => ⟨rfl, congrArg Int.ofNat heq⟩⟩
      simp only [hsame, at?_set hi]
      by_cases hj : Handle.place? link.bends.length i' = some j
      · rw [if_pos hj, if_pos hj, at?, hj, Option.bind_some,
          List.getElem?_eq_getElem (Handle.place?_lt hi)]
        rfl
      · rw [if_neg hj, if_neg hj]

theorem held_move_node (p : Point α) (d : Drawing α) (k k' : Nat) :
    held ((node k).move p d) (node k') =
      if home d (node k') = home d (node k) then (held d (node k')).map fun _ => p.map .real
      else held d (node k') := by
  rw [move, held, held, home, home, Drawing.updateNode, List.getElem?_modify]
  by_cases hk : k = k'
  · subst hk
    rw [if_pos rfl]
    cases d.nodes[k]? with
    | none => rfl
    | some n => simp [Node.moveTo, Point.map]
  · rw [if_neg (by simpa using Ne.symm hk)]
    simp [hk]

/-- Moving a record changes what is held at the records that share its home. -/
theorem held_move (p : Point α) (d : Drawing α) (r r' : Record) :
    held (r.move p d) r' =
      if home d r' = home d r then (held d r').map fun _ => p.map .real else held d r' := by
  cases r with
  | node k =>
      cases r' with
      | node k' => exact held_move_node p d k k'
      | bend l i =>
          rw [if_neg (home_bend_ne_node d l k i)]
          rfl
  | bend l i =>
      cases r' with
      | node k =>
          rw [if_neg (home_bend_ne_node d l k i).symm]
          rfl
      | bend l' i' =>
          by_cases hl : l = l'
          · subst hl
            cases hlink : d.links[l]? with
            | none => simp [move, held, Drawing.updateLink, hlink]
            | some link => exact held_move_bend p hlink i i'
          · rw [if_neg (home_bend_ne_bend d (Ne.symm hl) i' i), move, held, held,
              Drawing.updateLink, List.getElem?_modify]
            simp [hl]

/-- A move is read back from all records that share the home of the moved one. -/
theorem point_move [Scalar α] (p : Point α) {d : Drawing α} {r : Record}
    (h : ∃ q, r.point d = .ok q) (r' : Record) :
    r'.point (r.move p d) = if home d r' = home d r then .ok p else r'.point d := by
  rw [point_eq, point_eq, held_move]
  by_cases hc : home d r' = home d r
  · obtain ⟨q, hq⟩ := h
    obtain ⟨v, hv⟩ := exists_held_of_point hq
    rw [if_pos hc, if_pos hc, held_eq_of_home_eq hc, hv]
    exact mapM_toReal_real p
  · rw [if_neg hc, if_neg hc]

end Record

end PackedDrawing
