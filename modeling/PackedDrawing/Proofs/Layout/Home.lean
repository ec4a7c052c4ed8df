import PackedDrawing.Proofs.Layout.Rigid

/-!
# Components that were laid out are brought home

Bringing a component home writes positions and bends, and leaves the graph of the drawing as it is.
So whatever lays out the components, the grouping that was computed first is still the grouping of
the drawing when they are packed.

## Main definitions

* `Drawing.graph`: the indices of the nodes and the ends of the links.
* `Copy.Closed`: a part of a drawing with both ends of its links.
* `Drawing.Returnable`, `Arrangement.Returns`: what is laid out can be brought home and read.

## Main statements

* `Mosaic.graph_layOutFrom`: the graph stays as it is.
* `Mosaic.exists_layOutFrom`: all components can be laid out and brought home.
-/

namespace PackedDrawing

open Record Search

namespace Value

variable {α : Type}

theorem number_of_position {v : Value α} {i : Int} (h : v.position = .ok i) :
    v.number = .ok (.int i) := by
  cases v with
  | int n =>
      obtain rfl := Except.ok.inj h
      rfl
  | bool b =>
      obtain rfl := Except.ok.inj h
      rfl
  | real | null | text | list | table | thing => cases h

/-- Whole numbers and truth values count as equal when they mention the same position. -/
theorem same_iff_of_position [Scalar α] {v w : Value α} {i j : Int} (hv : v.position = .ok i)
    (hw : w.position = .ok j) : v.same w = true ↔ i = j := by
  have hsame : v.same w = sameNumber (.int i) w := by
    cases v with
    | int n =>
        obtain rfl := Except.ok.inj hv
        rfl
    | bool b =>
        obtain rfl := Except.ok.inj hv
        rfl
    | real | null | text | list | table | thing => cases hv
  rw [hsame, sameNumber, number_of_position hw]
  exact beq_iff_eq

end Value

namespace Endpoint

variable {α : Type}

/-- An end says the same of nodes with the same indices. -/
theorem mention_congr {nodes nodes' : List (Node α)}
    (h : nodes'.map (·.index) = nodes.map (·.index)) (e : Endpoint α) :
    e.mention nodes' = e.mention nodes := by
  cases e with
  | value v => rfl
  | guest name n => rfl
  | member k =>
      have hk := congrArg (fun vs : List (Value α) => vs[k]?) h
      simp only [List.getElem?_map] at hk
      rw [mention, mention]
      cases hn : nodes[k]? with
      | none =>
          rw [hn, Option.map_none, Option.map_eq_none_iff] at hk
          rw [hk]
      | some n =>
          rw [hn, Option.map_some, Option.map_eq_some_iff] at hk
          obtain ⟨n', hn', hindex⟩ := hk
          rw [hn']
          exact congrArg Mention.ofIndex hindex

end Endpoint

namespace Check

variable {α : Type} [Scalar α] {nodes nodes' : List (Node α)}

/-- The complaints about links are about their ends. -/
theorem linkIssuesFrom_congr (hnodes : nodes'.map (·.index) = nodes.map (·.index)) (count : Int)
    {ls ls' : List (Link α)}
    (hlinks : ls'.map (fun l => (l.source, l.target)) = ls.map fun l => (l.source, l.target))
    (position : Nat) :
    linkIssuesFrom nodes' count position (ls'.map .ready) =
      linkIssuesFrom nodes count position (ls.map .ready) := by
  induction ls generalizing ls' position with
  | nil =>
      rw [List.map_eq_nil_iff.mp hlinks]
      rfl
  | cons l rest ih =>
      obtain ⟨l', rest', rfl, hends, hrest⟩ := List.map_eq_cons_iff.mp hlinks
      obtain ⟨hsource, htarget⟩ := Prod.mk.inj hends
      have hfirst : issuesOf nodes' count position (.ready l') =
          issuesOf nodes count position (.ready l) := by
        simp only [issuesOf, mentioned, LinkEntry.endpoint?, hsource, htarget,
          Endpoint.mention_congr hnodes]
      rw [List.map_cons, List.map_cons, linkIssuesFrom, linkIssuesFrom, hfirst,
        ih hrest (position + 1)]

end Check

namespace Drawing

variable {α : Type} {d d' : Drawing α}

/-- The graph of a drawing: the indices of its nodes, and the ends of its links. -/
def graph (d : Drawing α) : List (Value α) × List (Endpoint α × Endpoint α) :=
  (d.nodes.map (·.index), d.links.map fun l => (l.source, l.target))

theorem length_nodes_of_graph (h : d'.graph = d.graph) : d'.nodes.length = d.nodes.length := by
  have hindices := congrArg List.length (Prod.mk.inj h).1
  rwa [List.length_map, List.length_map] at hindices

theorem length_links_of_graph (h : d'.graph = d.graph) : d'.links.length = d.links.length := by
  have hjoins := congrArg List.length (Prod.mk.inj h).2
  rwa [List.length_map, List.length_map] at hjoins

theorem ends_eq (d : Drawing α) :
    d.ends = d.graph.2.map fun e =>
      ⟨.ok (e.1.mention d.nodes).located, .ok (e.2.mention d.nodes).located⟩ := by
  rw [ends, graph, List.map_map]
  rfl

/-- The ends of links are read off the graph. -/
theorem ends_of_graph (h : d'.graph = d.graph) : d'.ends = d.ends := by
  rw [ends_eq, ends_eq, h]
  apply List.map_congr_left
  intro e _
  have hindices := (Prod.mk.inj h).1
  rw [Endpoint.mention_congr hindices e.1, Endpoint.mention_congr hindices e.2]

/-- Whether links are valid is said by the graph. -/
theorem validate_of_graph [Scalar α] (h : d'.graph = d.graph) : d'.validate = d.validate := by
  have hempty : d'.links.isEmpty = d.links.isEmpty := by
    rw [Bool.eq_iff_iff, List.isEmpty_iff_length_eq_zero, List.isEmpty_iff_length_eq_zero,
      length_links_of_graph h]
  rw [validate, validate, hempty, Check.links, Check.links, Check.linkIssues, Check.linkIssues,
    length_nodes_of_graph h, Check.linkIssuesFrom_congr (Prod.mk.inj h).1 _ (Prod.mk.inj h).2]

/-- The grouping of a drawing is that of its graph. -/
theorem groupingOf_of_graph [Scalar α] (h : d'.graph = d.graph) :
    Mosaic.groupingOf d' = Mosaic.groupingOf d := by
  have hgrouping : Grouping.of d'.nodes.length d'.ends = Grouping.of d.nodes.length d.ends := by
    rw [length_nodes_of_graph h, ends_of_graph h]
  rw [Mosaic.groupingOf, Mosaic.groupingOf, validate_of_graph h]
  exact congrArg (fun r => d.validate >>= fun _ => r) hgrouping

theorem numberNodes_eq_self (h : ∀ n ∈ d.nodes, n.index ≠ .null) : d.numberNodes = d := by
  have hnodes : d.numberNodes.nodes = d.nodes := by
    apply List.ext_getElem?
    intro i
    rw [numberNodes, List.getElem?_mapIdx]
    cases hi : d.nodes[i]? with
    | none => rfl
    | some n =>
        have hindex := h n (List.mem_of_getElem? hi)
        rw [Option.map_some]
        congr 1
        split
        · contradiction
        · rfl
  exact congrArg (fun nodes => { d with nodes }) hnodes

theorem index_numberNodes_ne_null {n : Node α} (hn : n ∈ d.numberNodes.nodes) :
    n.index ≠ .null := by
  obtain ⟨i, hi, rfl⟩ := List.mem_mapIdx.mp hn
  split
  · intro heq
    cases heq
  · assumption

/-- A drawing with the graph of a numbered one is numbered. -/
theorem numberNodes_of_graph (h : d'.graph = d.numberNodes.graph) : d'.numberNodes = d' := by
  apply numberNodes_eq_self
  intro n hn
  have hindex : n.index ∈ d.numberNodes.graph.1 := by
    rw [← h]
    exact List.mem_map_of_mem hn
  obtain ⟨n', hn', heq⟩ := List.mem_map.mp hindex
  exact heq ▸ index_numberNodes_ne_null hn'

theorem graph_updateNode {f : Node α → Node α} (hf : ∀ n, (f n).index = n.index) (k : Nat)
    (d : Drawing α) : (d.updateNode k f).graph = d.graph :=
  Prod.ext (map_modify_eq hf k d.nodes) rfl

theorem graph_updateLink {f : Link α → Link α}
    (hf : ∀ l, ((f l).source, (f l).target) = (l.source, l.target)) (k : Nat) (d : Drawing α) :
    (d.updateLink k f).graph = d.graph :=
  Prod.ext rfl (map_modify_eq hf k d.links)

section Reals

variable {flags : Flags} {d : Drawing ℝ}

theorem Readable.updateNode (h : d.Readable flags) {f : Node ℝ → Node ℝ}
    (hf : ∀ n, ∃ p, Point.mapM Value.toReal ⟨(f n).x, (f n).y⟩ = .ok p) (k : Nat) :
    (d.updateNode k f).Readable flags := by
  refine ⟨?_, h.bend⟩
  intro n hn
  rcases mem_modify hn with hn | ⟨m, _, rfl⟩
  · exact h.node n hn
  · exact hf m

theorem Readable.updateLink (h : d.Readable flags) {f : Link ℝ → Link ℝ}
    (hf : ∀ l, ∀ v ∈ (f l).bends, ∃ p, v.mapM Value.toReal = .ok p) (k : Nat) :
    (d.updateLink k f).Readable flags := by
  refine ⟨h.node, ?_⟩
  intro hbends l hl
  rcases mem_modify hl with hl | ⟨m, _, rfl⟩
  · exact h.bend hbends l hl
  · exact hf m

end Reals

end Drawing

namespace Copy

section Graph

variable {α : Type} [Scalar α] {c : Copy α} {d d' : Drawing α}

theorem graph_writeNode {n : Node α} (h : c.writeNode n d = (.ok (), d')) :
    d'.graph = d.graph := by
  obtain ⟨home?, u, hhome, h⟩ := Act.bind_eq_ok.mp h
  obtain ⟨_, rfl⟩ := Act.attempt_eq_ok.mp hhome
  cases home? with
  | none => rw [(Act.pure_eq_ok.mp h).2]
  | some k =>
      rw [← (Prod.mk.inj h).2]
      apply Drawing.graph_updateNode
      intro m
      rfl

omit [Scalar α] in
theorem graph_writeLinks {place : Nat} {links : List (Link α)}
    (h : c.writeLinks place links d = (.ok (), d')) : d'.graph = d.graph := by
  induction links generalizing place d with
  | nil => rw [(Act.pure_eq_ok.mp h).2]
  | cons l rest ih =>
      rw [writeLinks] at h
      cases hhome : c.linkHome place with
      | none =>
          rw [hhome] at h
          exact ih h
      | some k =>
          rw [hhome] at h
          obtain ⟨_, u, hwrite, hrest⟩ := Act.bind_eq_ok.mp h
          rw [ih hrest, ← (Prod.mk.inj hwrite).2]
          apply Drawing.graph_updateLink
          intro m
          rfl

/-- Bringing a component home leaves the graph as it is. -/
theorem graph_bringHome {nodes : List (Node α)} {links : List (Link α)}
    (h : c.bringHome nodes links d = (.ok (), d')) : d'.graph = d.graph := by
  obtain ⟨_, u, hnodes, h⟩ := Act.bind_eq_ok.mp h
  have hlinks : d'.graph = u.graph := by
    by_cases hbends : c.flags.bends = true
    · rw [if_pos hbends] at h
      exact graph_writeLinks h
    · rw [if_neg hbends] at h
      rw [(Act.pure_eq_ok.mp h).2]
  calc
    d'.graph = u.graph := hlinks
    _ = d.graph := Act.each_keeps (fun _ _ _ _ => graph_writeNode) hnodes

end Graph

section Copying

variable {α : Type} [Scalar α] {d : Drawing α}

/-- A copy has a number for each node of its component. -/
theorem exists_localNumber {c : List Handle} (hsound : ∀ h ∈ c, h.Sound) {v : Value α} {i : Int}
    (hv : v.position = .ok i) (hi : i ∈ positions c) :
    ∃ k, localNumber (Mosaic.nodeValues c) v = .ok k := by
  obtain ⟨h, hh, rfl⟩ := mem_positions.mp hi
  obtain ⟨k, hk, heq⟩ := List.mem_iff_getElem.mp hh
  have hitem : (Mosaic.nodeValues c : List (Value α))[k]? = some (.ofHandle h) := by
    rw [Mosaic.nodeValues, List.getElem?_map, List.getElem?_eq_getElem hk, heq]
    rfl
  have hsame := (Value.same_iff_of_position hv (Value.position_ofHandle (hsound h hh))).mpr rfl
  -- there may be a later place with the same position; the search then finds that one
  have hlookup : ((List.range (Mosaic.nodeValues c : List (Value α)).length).reverse.find? fun k =>
      ((Mosaic.nodeValues c)[k]?.map (Value.same v)).getD false).isSome := by
    rw [List.find?_isSome]
    refine ⟨k, ?_, ?_⟩
    · rw [List.mem_reverse, List.mem_range, Mosaic.nodeValues, List.length_map]
      exact hk
    · rw [hitem, Option.map_some, Option.getD_some]
      exact hsame
  obtain ⟨m, hm⟩ := Option.isSome_iff_exists.mp hlookup
  refine ⟨m, ?_⟩
  cases v with
  | list | table => cases hv
  | int | real | bool | null | text | thing => simp only [localNumber, hm]

/-- A part of a drawing with both ends of its links. -/
structure Closed (d : Drawing α) (part : List Handle × List Nat) : Prop extends HasPart d part where
  ends : ∀ e ∈ part.2, ∃ l i j, d.ends[e]? = some l ∧ l.Leads i j ∧ i ∈ positions part.1 ∧
    j ∈ positions part.1

omit [Scalar α] in
theorem Closed.of_graph {d' : Drawing α} {part : List Handle × List Nat} (h : Closed d part)
    (hgraph : d'.graph = d.graph) : Closed d' part := by
  have hnodes := Drawing.length_nodes_of_graph hgraph
  have hlinks := Drawing.length_links_of_graph hgraph
  exact ⟨⟨h.sound, hnodes.symm ▸ h.node, hlinks.symm ▸ h.link⟩,
    Drawing.ends_of_graph hgraph ▸ h.ends⟩

theorem closed_of_shares {g : Grouping} (hvalid : d.validate = .ok ()) (hwhole : d.WholeEnds)
    (hg : g.Shares d.nodes.length d.ends) {part : List Handle × List Nat}
    (hpart : part ∈ g.nodes.zip g.links) : Closed d part :=
  ⟨part_of_shares hg hpart, fun _ he => Drawing.ends_in_part hvalid hwhole hg hpart he⟩

/-- A part with both ends of its links can be copied. -/
theorem exists_of {part : List Handle × List Nat} (h : Closed d part) (flags : Flags) :
    ∃ c, Copy.of d (Mosaic.nodeValues part.1) (Mosaic.linkValues part.2) flags = .ok c ∧
      c.flags = flags := by
  have hcopy : ∀ l ∈ part.2.filterMap (d.links[·]?),
      ∃ l', copyLink flags d.nodes (Mosaic.nodeValues part.1) l = .ok l' := by
    intro l hl
    obtain ⟨e, he, hle⟩ := List.mem_filterMap.mp hl
    obtain ⟨l', i, j, hl', hleads, hi, hj⟩ := h.ends e he
    rw [Drawing.ends, List.getElem?_map, hle, Option.map_some, Option.some.injEq] at hl'
    obtain ⟨v, w, hv, hw, hvi, hwj⟩ := hl' ▸ hleads
    obtain rfl := Except.ok.inj hv
    obtain rfl := Except.ok.inj hw
    obtain ⟨s, hs⟩ := exists_localNumber h.sound hvi hi
    obtain ⟨t, ht⟩ := exists_localNumber h.sound hwj hj
    exact ⟨_, bind_eq_ok.mpr ⟨s, hs, bind_eq_ok.mpr ⟨t, ht, rfl⟩⟩⟩
  obtain ⟨links, hlinks⟩ := exists_mapM_eq_ok hcopy
  refine ⟨_, bind_eq_ok.mpr ⟨_, places_nodeValues h.sound h.node, bind_eq_ok.mpr
    ⟨_, places_linkValues h.link, bind_eq_ok.mpr ⟨links, hlinks, rfl⟩⟩⟩, rfl⟩

end Copying

/-- A node that carries a whole number has the home under that number, if there is one. -/
theorem nodeHome_of_position {α : Type} [Scalar α] {c : Copy α} {n : Node α} {i : Int}
    (h : n.index.position = .ok i) :
    c.nodeHome n = .ok (if 0 ≤ i then c.nodeHomes[i.toNat]? else none) := by
  obtain ⟨m, hm, rfl⟩ := Value.position_eq_ok_iff.mp h
  have hread : c.nodeHome n = (n.index.inside c.nodeHomes.length >>= fun b =>
      if b then n.index.mentioned >>= fun m => pure c.nodeHomes[m.position.toNat]?
      else pure none) := by
    rw [nodeHome]
    split
    · rename_i hnull
      rw [hnull] at hm
      cases hm
    · rfl
  rw [hread, Value.inside_of_handle? hm, ok_bind, Value.mentioned_eq_ok_iff.mpr hm, ok_bind]
  by_cases hin : InGraph c.nodeHomes.length m.position
  · rw [if_pos (decide_eq_true hin), if_pos hin.1]
    rfl
  · rw [if_neg (by simpa using hin)]
    by_cases hlow : 0 ≤ m.position
    · have hhigh : ¬ m.position < c.nodeHomes.length := fun h => hin ⟨hlow, h⟩
      rw [if_pos hlow, List.getElem?_eq_none (by omega)]
      rfl
    · rw [if_neg hlow]
      rfl

section Returning

variable {c : Copy ℝ} {d : Drawing ℝ}

theorem exists_nodeHome {n : Node ℝ} (h : n.index = .null ∨ ∃ i, n.index.position = .ok i) :
    ∃ home?, c.nodeHome n = .ok home? := by
  rcases h with hnull | ⟨i, hi⟩
  · refine ⟨none, ?_⟩
    rw [nodeHome, hnull]
  · exact ⟨_, nodeHome_of_position hi⟩

theorem exists_writeNode {n : Node ℝ} (h : n.index = .null ∨ ∃ i, n.index.position = .ok i)
    (hread : ∃ p, Point.mapM Value.toReal ⟨n.x, n.y⟩ = .ok p) {flags : Flags}
    (hd : d.Readable flags) : ∃ d', c.writeNode n d = (.ok (), d') ∧ d'.Readable flags := by
  obtain ⟨home?, hhome⟩ := exists_nodeHome (c := c) h
  rw [writeNode, hhome, Act.bind_of_ok (Act.attempt_apply _ _)]
  cases home? with
  | none => exact ⟨d, rfl, hd⟩
  | some k =>
      refine ⟨_, rfl, ?_⟩
      apply hd.updateNode
      intro m
      exact hread

theorem exists_writeLinks {links : List (Link ℝ)}
    (hread : ∀ l ∈ links, ∀ v ∈ l.bends, ∃ p, v.mapM Value.toReal = .ok p) {flags : Flags}
    (hd : d.Readable flags) (place : Nat) :
    ∃ d', c.writeLinks place links d = (.ok (), d') ∧ d'.Readable flags := by
  induction links generalizing place d with
  | nil => exact ⟨d, rfl, hd⟩
  | cons l rest ih =>
      have hrest := fun {u : Drawing ℝ} => @ih u fun m hm => hread m (List.mem_cons_of_mem l hm)
      rw [writeLinks]
      cases c.linkHome place with
      | none => exact hrest hd (place + 1)
      | some k =>
          have hu := hd.updateLink (f := fun m => { m with bends := l.bends })
            (fun _ => hread l List.mem_cons_self) k
          exact hrest hu (place + 1)

end Returning

end Copy

/-- A drawing that can be brought home: its nodes carry whole numbers, if they carry anything, and
it can be read. -/
structure Drawing.Returnable (flags : Flags) (d : Drawing ℝ) : Prop where
  index : ∀ n ∈ d.nodes, n.index = .null ∨ ∃ i, n.index.position = .ok i
  readable : d.Readable flags

/-- Bringing home succeeds, and what can be read stays so. -/
theorem Copy.exists_bringHome {c : Copy ℝ} {d laid : Drawing ℝ} (hlaid : laid.Returnable c.flags)
    (hd : d.Readable c.flags) :
    ∃ d', c.bringHome laid.nodes laid.links d = (.ok (), d') ∧ d'.Readable c.flags := by
  have hwrite : ∀ n ∈ laid.nodes, ∀ u : Drawing ℝ, u.Readable c.flags →
      ∃ u', c.writeNode n u = (.ok (), u') ∧ u'.Readable c.flags := fun n hn _ hu =>
    exists_writeNode (hlaid.index n hn) (hlaid.readable.node n hn) hu
  obtain ⟨u, hnodes, hu⟩ := Act.exists_each hwrite hd
  rw [bringHome, Act.bind_of_ok hnodes]
  by_cases hbends : c.flags.bends = true
  · rw [if_pos hbends]
    exact exists_writeLinks (hlaid.readable.bend hbends) hu 0
  · rw [if_neg hbends]
    exact ⟨u, rfl, hu⟩

/-- Whatever copy of a readable drawing is laid out, the outcome can be brought home. -/
def Arrangement.Returns (flags : Flags) (arrange : Arrangement ℝ) : Prop :=
  ∀ d nodes links c, d.Readable flags → Copy.of d nodes links flags = .ok c →
    ∀ j, ∃ laid j', arrange c.drawing j = (.ok laid, j') ∧ laid.Returnable flags

namespace Mosaic

section Kept

variable {α : Type} [Scalar α] {s : Mosaic α} {l : Listeners α} {arrange : Arrangement α}
  {b b' : Board α}

theorem graph_layOutComponent {nodes : List Handle} {edges : List Nat}
    (h : s.layOutComponent arrange nodes edges b = (.ok (), b')) :
    b'.drawing.graph = b.drawing.graph := by
  obtain ⟨d, b₁, hdrawn, h⟩ := Act.bind_eq_ok.mp h
  obtain ⟨c, b₂, hcopy, h⟩ := Act.bind_eq_ok.mp h
  obtain ⟨laid, b₃, harrange, hhome⟩ := Act.bind_eq_ok.mp h
  obtain rfl := (Prod.mk.inj hdrawn).2
  obtain ⟨_, rfl⟩ := Act.attempt_eq_ok.mp hcopy
  obtain ⟨j, _, rfl⟩ := Act.within_eq_ok.mp harrange
  obtain ⟨d', hd', rfl⟩ := Act.within_eq_ok.mp hhome
  exact Copy.graph_bringHome hd'

/-- Laying out the components leaves the graph as it is. -/
theorem graph_layOutFrom {count i : Nat} {parts : List (List Handle × List Nat)}
    (h : s.layOutFrom l arrange count i parts b = (.ok (), b')) :
    b'.drawing.graph = b.drawing.graph := by
  induction parts generalizing i b with
  | nil => rw [(Act.pure_eq_ok.mp h).2]
  | cons x rest ih =>
      obtain ⟨_, b₁, hfirst, h⟩ := Act.bind_eq_ok.mp h
      obtain ⟨alpha, b₂, halpha, h⟩ := Act.bind_eq_ok.mp h
      obtain ⟨_, b₃, hannounce, hrest⟩ := Act.bind_eq_ok.mp h
      obtain ⟨_, rfl⟩ := Act.attempt_eq_ok.mp halpha
      have hthere : b₃.drawing = b₁.drawing := by
        rw [← (Prod.mk.inj hannounce).2]
      calc
        b'.drawing.graph = b₃.drawing.graph := ih hrest
        _ = b₁.drawing.graph := by rw [hthere]
        _ = b.drawing.graph := graph_layOutComponent hfirst

end Kept

section Returning

variable {s : Mosaic ℝ} {l : Listeners ℝ} {arrange : Arrangement ℝ} {b : Board ℝ}

theorem exists_layOutComponent (harrange : arrange.Returns s.flags) {part : List Handle × List Nat}
    (hpart : Copy.Closed b.drawing part) (hread : b.drawing.Readable s.flags) :
    ∃ b', s.layOutComponent arrange part.1 part.2 b = (.ok (), b') ∧
      b'.drawing.Readable s.flags := by
  obtain ⟨c, hc, hflags⟩ := Copy.exists_of hpart s.flags
  obtain ⟨laid, j, hlaid, hreturn⟩ := harrange _ _ _ c hread hc b.journal
  obtain ⟨d', hhome, hd'⟩ := Copy.exists_bringHome (hflags.symm ▸ hreturn) (hflags.symm ▸ hread)
  refine ⟨{ b with journal := j, drawing := d' }, ?_, hflags ▸ hd'⟩
  refine Act.bind_eq_ok.mpr ⟨b.drawing, b, rfl, ?_⟩
  refine Act.bind_eq_ok.mpr ⟨c, b, Act.attempt_eq_ok.mpr ⟨hc, rfl⟩, ?_⟩
  refine Act.bind_eq_ok.mpr ⟨laid, { b with journal := j }, ?_, ?_⟩
  · exact Act.within_eq_ok.mpr ⟨j, hlaid, rfl⟩
  · exact Act.within_eq_ok.mpr ⟨d', hhome, rfl⟩

/-- All components can be laid out and brought home. -/
theorem exists_layOutFrom (harrange : arrange.Returns s.flags) (count i : Nat)
    {parts : List (List Handle × List Nat)} (hparts : ∀ x ∈ parts, Copy.Closed b.drawing x)
    (hread : b.drawing.Readable s.flags) :
    ∃ b', s.layOutFrom l arrange count i parts b = (.ok (), b') ∧
      b'.drawing.Readable s.flags := by
  induction parts generalizing i b with
  | nil => exact ⟨b, rfl, hread⟩
  | cons x rest ih =>
      obtain ⟨b₁, hfirst, hread₁⟩ :=
        exists_layOutComponent harrange (hparts x List.mem_cons_self) hread
      have hgraph := graph_layOutComponent hfirst
      obtain ⟨alpha, halpha⟩ : ∃ alpha : ℝ, remaining (i + 1) count = .ok alpha := ⟨_, rfl⟩
      obtain ⟨b₂, hannounce, hthere⟩ : ∃ b₂, Board.announce l
          { kind := .tick, alpha := some (.real alpha), component := some (.int i) } b₁ =
            (.ok (), b₂) ∧ b₂.drawing = b₁.drawing := ⟨_, rfl, rfl⟩
      -- the other parts still have both ends of their links, as the graph is the same
      obtain ⟨b', hrest, hread'⟩ := @ih b₂ (i + 1)
        (fun y hy => (hparts y (List.mem_cons_of_mem x hy)).of_graph (hthere ▸ hgraph))
        (hthere ▸ hread₁)
      refine ⟨b', ?_, hread'⟩
      refine Act.bind_eq_ok.mpr ⟨(), b₁, hfirst, ?_⟩
      refine Act.bind_eq_ok.mpr ⟨alpha, b₁, Act.attempt_eq_ok.mpr ⟨halpha, rfl⟩, ?_⟩
      exact Act.bind_eq_ok.mpr ⟨(), b₂, hannounce, hrest⟩

end Returning

end Mosaic

end PackedDrawing
