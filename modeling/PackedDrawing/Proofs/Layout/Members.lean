import PackedDrawing.Proofs.Layout.Checked

/-!
# Links between members of a drawing

An end of a link that is a member of the drawing is followed by the index that this node carries.
Nodes without an index get their position as one, so links between such nodes join these nodes. A
node that was given another index beforehand is taken for the node at that position.

## Main definitions

* `Drawing.Joins`, `Drawing.JoinsMembers`: the links of a drawing join members of it.
* `Drawing.OwnIndices`: what links join carries its own position, if it carries an index.

## Main statements

* `Drawing.connected_iff`: the connected nodes are those that a chain of links joins.
* `Mosaic.run_members`: no run fails over such links, and the components that it finds are the
  classes of joined members.
-/

namespace PackedDrawing

open Search

namespace Mention

variable {α : Type} {v : Value α} {i : Int}

variable [Scalar α]

/-- Where an index is a whole number, the two readings are the same position. -/
theorem checked_of_position (h : v.position = .ok i) :
    (index v).checked = .ok (some ⟨i, false⟩) := by
  cases v with
  | int k =>
      obtain rfl := Except.ok.inj h
      rfl
  | bool b =>
      obtain rfl := Except.ok.inj h
      rfl
  | real | null | text | list | table | thing => cases h

theorem uncut_of_position (h : v.position = .ok i) (n : Nat) : (index v).Uncut n := by
  cases v with
  | real => cases h
  | int | bool | null | text | list | table | thing => exact trivial

end Mention

namespace Drawing

variable {α : Type} {d : Drawing α}

/-- A link leads from one member of a drawing to another. -/
def Joins (d : Drawing α) (i j : Nat) : Prop :=
  ∃ l ∈ d.links, l.source = .member i ∧ l.target = .member j

/-- All links of a drawing join members of it. -/
def JoinsMembers (d : Drawing α) : Prop :=
  ∀ l ∈ d.links, ∃ i j, i < d.nodes.length ∧ j < d.nodes.length ∧ l.source = .member i ∧
    l.target = .member j

/-- The node at a position carries this position as its index, if it carries an index. -/
def Own (d : Drawing α) (k : Nat) : Prop :=
  ∀ n, d.nodes[k]? = some n → n.index = .null ∨ n.index.position = .ok (k : Int)

/-- The nodes that links join carry their own positions, if they carry an index. -/
def OwnIndices (d : Drawing α) : Prop := ∀ i j, d.Joins i j → d.Own i ∧ d.Own j

/-- A member is mentioned by its own position once the nodes are numbered. -/
theorem mention_numberNodes {k : Nat} (hk : k < d.nodes.length) (hown : d.Own k) :
    ∃ v, (Endpoint.member k).mention d.numberNodes.nodes = .index v ∧
      v.position = .ok (k : Int) := by
  obtain ⟨⟨index, x, y, z, width, height, extras⟩, hnode⟩ :
      ∃ n, d.nodes[k]? = some n := ⟨_, List.getElem?_eq_getElem hk⟩
  rw [Endpoint.mention, numberNodes, List.getElem?_mapIdx, hnode, Option.map_some]
  cases index with
  | null => exact ⟨.int k, rfl, rfl⟩
  | int | real | bool | text | list | table | thing =>
      exact ⟨_, rfl, (hown _ hnode).resolve_left (by rintro ⟨⟩)⟩

/-- Once the nodes are numbered, the ends of a link are mentioned by the positions of the members
that it joins. -/
theorem mentions_of_joins (hjoins : d.JoinsMembers) (hown : d.OwnIndices) {l : Link α}
    (hl : l ∈ d.links) {i j : Nat} (hsource : l.source = .member i)
    (htarget : l.target = .member j) :
    (i < d.nodes.length ∧
      ∃ v, l.source.mention d.numberNodes.nodes = .index v ∧ v.position = .ok (i : Int)) ∧
    (j < d.nodes.length ∧
      ∃ v, l.target.mention d.numberNodes.nodes = .index v ∧ v.position = .ok (j : Int)) := by
  obtain ⟨i', j', hi, hj, hsource', htarget'⟩ := hjoins l hl
  obtain rfl := Endpoint.member.inj (hsource.symm.trans hsource')
  obtain rfl := Endpoint.member.inj (htarget.symm.trans htarget')
  obtain ⟨howni, hownj⟩ := hown i j ⟨l, hl, hsource, htarget⟩
  rw [hsource, htarget]
  exact ⟨⟨hi, mention_numberNodes hi howni⟩, hj, mention_numberNodes hj hownj⟩

/-- Once the nodes are numbered, a link leads from the first member that it joins to the second. -/
theorem leads_of_joins (hjoins : d.JoinsMembers) (hown : d.OwnIndices) {l : Link α}
    (hl : l ∈ d.links) {i j : Nat} (hsource : l.source = .member i)
    (htarget : l.target = .member j) :
    InGraph d.nodes.length i ∧ InGraph d.nodes.length j ∧
      ((LinkEntry.ready l).ends d.numberNodes.nodes).Leads i j := by
  obtain ⟨⟨hi, v, hv, hvi⟩, hj, w, hw, hwj⟩ := mentions_of_joins hjoins hown hl hsource htarget
  refine ⟨⟨Int.natCast_nonneg i, Int.ofNat_lt.mpr hi⟩, ⟨Int.natCast_nonneg j, Int.ofNat_lt.mpr hj⟩,
    v, w, ?_, ?_, hvi, hwj⟩
  · exact congrArg (fun m => Except.ok (Mention.located m)) hv
  · exact congrArg (fun m => Except.ok (Mention.located m)) hw

/-- The connected nodes of a drawing are those that a chain of links joins, in either direction. -/
theorem connected_iff (hjoins : d.JoinsMembers) (hown : d.OwnIndices) {i j : Nat} :
    Grouping.Connected d.nodes.length d.numberNodes.ends i j ↔
      Relation.ReflTransGen (fun a b => d.Joins a b ∨ d.Joins b a) i j := by
  constructor
  · intro h
    refine h.lift Int.toNat ?_
    rintro x y ⟨_, _, e, he, hlead⟩
    obtain ⟨l, hl, rfl⟩ := List.mem_map.mp he
    obtain ⟨a, b, _, _, hsource, htarget⟩ := hjoins l hl
    obtain ⟨_, _, hlead'⟩ := leads_of_joins hjoins hown hl hsource htarget
    rcases hlead with hlead | hlead
    · obtain ⟨rfl, rfl⟩ := hlead.unique hlead'
      exact Or.inl ⟨l, hl, hsource, htarget⟩
    · obtain ⟨rfl, rfl⟩ := hlead.unique hlead'
      exact Or.inr ⟨l, hl, hsource, htarget⟩
  · intro h
    refine h.lift Int.ofNat ?_
    have hadjacent : ∀ a b, d.Joins a b → InGraph d.nodes.length a ∧ InGraph d.nodes.length b ∧
        ∃ e ∈ d.numberNodes.ends, e.Leads a b := by
      rintro a b ⟨l, hl, hsource, htarget⟩
      obtain ⟨ha, hb, hlead⟩ := leads_of_joins hjoins hown hl hsource htarget
      exact ⟨ha, hb, _, List.mem_map_of_mem hl, hlead⟩
    rintro a b (hjoin | hjoin)
    · obtain ⟨ha, hb, e, he, hlead⟩ := hadjacent a b hjoin
      exact ⟨ha, hb, e, he, Or.inl hlead⟩
    · obtain ⟨hb, ha, e, he, hlead⟩ := hadjacent b a hjoin
      exact ⟨ha, hb, e, he, Or.inr hlead⟩

/-- Each end of a link mentions the position of a member. -/
theorem exists_mention (hjoins : d.JoinsMembers) (hown : d.OwnIndices) {l : Link α}
    (hl : l ∈ d.links) (side : LinkEnd) :
    ∃ e v k, (LinkEntry.ready l).endpoint? side = some e ∧ k < d.nodes.length ∧
      e.mention d.numberNodes.nodes = .index v ∧ v.position = .ok ((k : Nat) : Int) := by
  obtain ⟨i, j, _, _, hsource, htarget⟩ := hjoins l hl
  obtain ⟨⟨hi, v, hv, hvi⟩, hj, w, hw, hwj⟩ := mentions_of_joins hjoins hown hl hsource htarget
  cases side with
  | source => exact ⟨l.source, v, i, rfl, hi, hv, hvi⟩
  | target => exact ⟨l.target, w, j, rfl, hj, hw, hwj⟩

section Scalars

variable [Scalar α]

/-- The links between members that carry their own positions are definite. -/
theorem definite_numberNodes (hjoins : d.JoinsMembers) (hown : d.OwnIndices) :
    d.numberNodes.Definite := by
  intro l hl side
  obtain ⟨e, v, k, he, _, hmention, hposition⟩ := exists_mention hjoins hown hl side
  refine ⟨e, he, ?_⟩
  rw [hmention]
  exact ⟨⟨_, Value.number_of_position hposition⟩, Mention.uncut_of_position hposition _⟩

/-- They are valid, too. -/
theorem validate_numberNodes (hjoins : d.JoinsMembers) (hown : d.OwnIndices) :
    d.numberNodes.validate = .ok () := by
  rw [validate_eq, Check.links_eq_ok_iff, length_nodes_numberNodes, List.forall_mem_map]
  intro l hl side
  obtain ⟨e, v, k, he, hk, hmention, hposition⟩ := exists_mention hjoins hown hl side
  refine ⟨⟨k, false⟩, ?_, Int.natCast_nonneg k, Int.ofNat_lt.mpr hk⟩
  rw [(LinkEntry.readings_of_endpoint? _ he).1, hmention, Mention.checked_of_position hposition]

end Scalars

end Drawing

namespace Mosaic

variable {α : Type} [Scalar α]

/-- Where links join members that carry their own positions, if they carry an index, all of them are
followed, no run fails over them, and two nodes are in one component when a chain of links joins
them. -/
theorem run_members (s : Mosaic α) (l : Listeners α) (arrange : Arrangement α) (b : Board α)
    (hjoins : b.drawing.JoinsMembers) (hown : b.drawing.OwnIndices) :
    b.drawing.numberNodes.Followed ∧
    ∃ g, groupingOf b.drawing.numberNodes = .ok g ∧
      (∀ i j, i < b.drawing.nodes.length → j < b.drawing.nodes.length →
        ((∃ c ∈ g.nodes, (i : Int) ∈ positions c ∧ (j : Int) ∈ positions c) ↔
          Relation.ReflTransGen (fun i j => b.drawing.Joins i j ∨ b.drawing.Joins j i) i j)) ∧
      (∀ e b', s.run l (some arrange) b = (.error e, b') →
        s.Blamed l arrange g (begun l b) e) ∧
      ∀ b', s.run l (some arrange) b = (.ok (), b') → b.drawing.nodes ≠ [] →
        b'.results.components = some g := by
  have hends := Drawing.definite_numberNodes hjoins hown
  have hvalid := Drawing.validate_numberNodes hjoins hown
  have hfollowed := Drawing.followed_of_validate hends hvalid
  obtain ⟨g, hg, _⟩ := hfollowed.grouped
  obtain ⟨_, hshares⟩ := shares_of_groupingOf hg
  rw [Drawing.length_nodes_numberNodes] at hshares
  refine ⟨hfollowed, g, hg, ?_, ?_, ?_⟩
  · intro i j hi hj
    rw [← Drawing.connected_iff hjoins hown, ← hshares.classes.together_iff i j hi hj]
    simp only [List.mem_map, exists_exists_and_eq_and]
  · exact fun e b' h => blamed_of_run hg (Drawing.wholeEnds_of_validate hends hvalid) h
  · intro b' h hne
    obtain ⟨g', b₁, poses, b₂, hg', _, hsettle, rfl⟩ := (run_eq_ok_iff hne).mp h
    obtain ⟨g'', offsets, d', hgiven, _, rfl⟩ := settle_eq_ok_iff.mp hsettle
    obtain rfl := Except.ok.inj hgiven
    obtain rfl := Except.ok.inj (hg'.symm.trans hg)
    rfl

/-- A node with an index of its own, or without one. -/
def indexed {α : Type} [Scalar α] (index : Value α) : Node α := { Node.blank with index }

/-- A link between the second node, which carries its own position, and the first one, which carries
no index; the third node carries a position that there is not. -/
noncomputable def pairAndStray : Drawing ℝ :=
  { nodes := [{ indexed .null with x := .int 0, y := .int 0 },
      { indexed (.int 1) with x := .int 3, y := .int 4 },
      { indexed (.int 9) with x := .int 7, y := .int 7 }]
    links := [{ source := .member 1, target := .member 0, length := .null, weight := .null
                bends := [], extras := [] }] }

theorem typed_pairAndStray : pairAndStray.numberNodes.Typed Flags.plain := by
  refine ⟨?_, ?_, ?_⟩
  · intro e he
    obtain rfl := List.mem_singleton.mp he
    exact ⟨1, 0, _, _, rfl, rfl, rfl, rfl⟩
  · intro n hn
    simp only [pairAndStray, Drawing.numberNodes, List.mapIdx_cons, List.mapIdx_nil,
      List.mem_cons, List.not_mem_nil, or_false] at hn
    rcases hn with rfl | rfl | rfl
    · exact ⟨⟨(0 : Int), (0 : Int)⟩, rfl⟩
    · exact ⟨⟨(3 : Int), (4 : Int)⟩, rfl⟩
    · exact ⟨⟨(7 : Int), (7 : Int)⟩, rfl⟩
  · intro _ l hl v hv
    obtain rfl := List.mem_singleton.mp hl
    cases hv

theorem joins_pairAndStray {i j : Nat} : pairAndStray.Joins i j ↔ i = 1 ∧ j = 0 := by
  constructor
  · rintro ⟨l, hl, hsource, htarget⟩
    obtain rfl := List.mem_singleton.mp hl
    exact ⟨(Endpoint.member.inj hsource).symm, (Endpoint.member.inj htarget).symm⟩
  · rintro ⟨rfl, rfl⟩
    exact ⟨_, List.mem_cons_self, rfl, rfl⟩

theorem run_members_pairAndStray :
    pairAndStray.JoinsMembers ∧ pairAndStray.OwnIndices ∧
      ∃ b' g, piled.run {} (some heaped) { drawing := pairAndStray } = (.ok (), b') ∧
        b'.results.components = some g ∧
        ∃ c ∈ g.nodes, (0 : Int) ∈ positions c ∧ (1 : Int) ∈ positions c := by
  have hjoins : pairAndStray.JoinsMembers := by
    intro l hl
    obtain rfl := List.mem_singleton.mp hl
    exact ⟨1, 0, by decide, by decide, rfl, rfl⟩
  have hown : pairAndStray.OwnIndices := by
    intro i j hjoin
    obtain ⟨rfl, rfl⟩ := joins_pairAndStray.mp hjoin
    constructor
    · intro n hn
      obtain rfl := Option.some.inj hn
      exact Or.inr rfl
    · intro n hn
      obtain rfl := Option.some.inj hn
      exact Or.inl rfl
  obtain ⟨b', hrun⟩ := exists_run (s := piled) (b := { drawing := pairAndStray }) {}
    (List.cons_ne_nil _ _) rfl typed_pairAndStray (returns_heaped _) (fun ps _ => ⟨_, rfl⟩)
    fun sizes => ⟨_, rfl, List.length_map _⟩
  obtain ⟨_, g, _, hsame, _, hdone⟩ :=
    run_members piled {} heaped { drawing := pairAndStray } hjoins hown
  refine ⟨hjoins, hown, b', g, hrun, hdone b' hrun (List.cons_ne_nil _ _),
    (hsame 0 1 (by decide) (by decide)).mpr ?_⟩
  exact Relation.ReflTransGen.single (Or.inr (joins_pairAndStray.mpr ⟨rfl, rfl⟩))

/-- A link from one member to another. -/
def linking (i j : Nat) : Link Float :=
  { source := .member i, target := .member j, length := .null, weight := .null, bends := []
    extras := [] }

/-- Two members with the same index, and one without an index that is linked to the second. -/
def twins : Drawing Float :=
  { nodes := [indexed (.int 0), indexed (.int 0), indexed .null], links := [linking 1 2] }

/-- What is linked to the second of two members with the same index goes with the first. -/
theorem groupingOf_twins : groupingOf twins.numberNodes =
    .ok ⟨[[⟨0, false⟩, ⟨2, false⟩], [⟨1, false⟩]], [[0], []]⟩ := by
  have hedges : Grouping.edgesWithin 3 twins.numberNodes.ends =
      .ok [(⟨0, false⟩, ⟨2, false⟩)] := rfl
  have hsearch : Search.components 3 [(⟨0, false⟩, ⟨2, false⟩)] =
      [[⟨0, false⟩, ⟨2, false⟩], [⟨1, false⟩]] := by cbv
  have hnodes : Grouping.components 3 twins.numberNodes.ends =
      .ok [[⟨0, false⟩, ⟨2, false⟩], [⟨1, false⟩]] :=
    bind_eq_ok.mpr ⟨_, hedges, congrArg Except.ok hsearch⟩
  exact bind_eq_ok.mpr ⟨(), rfl, bind_eq_ok.mpr ⟨_, hnodes, rfl⟩⟩

/-- A link between two members is rejected when one of them was given an index beforehand; and it
joins other nodes when two members were given the same one. -/
theorem members_mistaken :
    (plain.run {} (some (Secondary.call (fun _ d => .ok d) false))
        { drawing := { nodes := [indexed (.int 2), indexed .null], links := [linking 0 1] } }).1 =
      .error (.invalidLinks [⟨0, .source, .outside ⟨2, false⟩ 2⟩]) ∧
    twins.Joins 1 2 ∧ groupingOf twins.numberNodes =
      .ok ⟨[[⟨0, false⟩, ⟨2, false⟩], [⟨1, false⟩]], [[0], []]⟩ :=
  ⟨rfl, ⟨_, List.mem_cons_self, rfl, rfl⟩, groupingOf_twins⟩

end Mosaic

end PackedDrawing
