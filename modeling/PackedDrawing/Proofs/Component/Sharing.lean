import PackedDrawing.Graph.Drawing
import PackedDrawing.Proofs.Component.Ends

/-!
# A grouping shares out the nodes and links of a graph

The components of a grouping are the classes of connected nodes, and a link belongs to the component
of its source. So every node is in one component, and so is every link that starts in the graph. In
a drawing that was checked these are all links.

## Main definitions

* `Grouping.Shares`: what a grouping says about a graph.
* `Drawing.WholeEnds`: the ends of links are whole numbers, or members that carry one.

## Main statements

* `Grouping.shares_of`: every grouping that is answered shares out the graph.
* `Drawing.leads_inside`: in a checked drawing all links lead from node to node.
* `Drawing.ends_in_part`: both ends of a link are in its component.
-/

namespace PackedDrawing

/-- A truth value mentions zero or one. -/
def Handle.Sound (h : Handle) : Prop := h.truth = true → h.position = 0 ∨ h.position = 1

namespace Value

variable {α : Type}

theorem sound_of_handle? {v : Value α} {h : Handle} (hv : v.handle? = some h) : h.Sound := by
  cases v with
  | int i =>
      obtain rfl := Option.some.inj hv
      intro ht
      cases ht
  | bool b =>
      obtain rfl := Option.some.inj hv
      intro _
      cases b with
      | false => exact Or.inl rfl
      | true => exact Or.inr rfl
  | real | null | text | list | table | thing => cases hv

/-- A mention is read back as the position that was mentioned. -/
theorem position_ofHandle {h : Handle} (hs : h.Sound) :
    (ofHandle h : Value α).position = .ok h.position := by
  obtain ⟨position, truth⟩ := h
  cases truth with
  | false => rfl
  | true =>
      rcases hs rfl with h | h
      · obtain rfl : position = 0 := h
        rfl
      · obtain rfl : position = 1 := h
        rfl

end Value

namespace Search

variable {edges : List Edge} {P : Handle → Prop}

theorem forall_reach (hedges : ∀ e ∈ edges, P e.1 ∧ P e.2) {queue found : List Handle}
    (hfound : ∀ h ∈ found, P h) : ∀ h ∈ reach edges queue found, P h := by
  fun_induction reach edges queue found with
  | case1 found => exact hfound
  | case2 found v rest new ih =>
      apply ih
      intro h hh
      rcases List.mem_append.mp hh with hh | hh
      · exact hfound h hh
      · have hmention := mem_mentions_of_mem_neighbours (mem_of_mem_fresh hh)
        simp only [mentions, List.mem_flatMap, List.mem_cons, List.not_mem_nil, or_false] at hmention
        obtain ⟨e, he, rfl | rfl⟩ := hmention
        · exact (hedges e he).1
        · exact (hedges e he).2

/-- All handles in components are mentions by links, or plain ones. -/
theorem forall_components {n : Nat} (hedges : ∀ e ∈ edges, P e.1 ∧ P e.2)
    (hplain : ∀ k, P (Handle.ofNat k)) : ∀ c ∈ components n edges, ∀ h ∈ c, P h := by
  rw [components_eq]
  intro c hc h hh
  obtain ⟨s, _, rfl⟩ := List.mem_map.mp hc
  refine forall_reach hedges ?_ h ((List.mergeSort_perm _ _).mem_iff.mp hh)
  intro g hg
  rw [List.mem_singleton.mp hg]
  exact hplain s

end Search

namespace Ends

variable {α : Type}

/-- A link starts at a position when its source is a whole number, or a truth value, that mentions
the position. -/
def Starts (e : Ends α) (i : Int) : Prop := ∃ v, e.source = .ok v ∧ v.position = .ok i

theorem Starts.unique {e : Ends α} {i j : Int} (hi : e.Starts i) (hj : e.Starts j) : i = j := by
  obtain ⟨v, hv, hi⟩ := hi
  obtain ⟨w, hw, hj⟩ := hj
  obtain rfl := Except.ok.inj (hv.symm.trans hw)
  exact Except.ok.inj (hi.symm.trans hj)

theorem Leads.starts {e : Ends α} {i j : Int} (h : e.Leads i j) : e.Starts i := by
  obtain ⟨v, _, hv, _, hi, _⟩ := h
  exact ⟨v, hv, hi⟩

end Ends

namespace Grouping

variable {α : Type}

/-- A grouping of a graph lists the classes of connected nodes, and for each of them the links that
start there, in ascending order. -/
structure Shares (n : Nat) (links : List (Ends α)) (g : Grouping) : Prop where
  classes : Classes n (Connected n links) (g.nodes.map Search.positions)
  sound : ∀ c ∈ g.nodes, ∀ h ∈ c, h.Sound
  length_eq : g.links.length = g.nodes.length
  ascending : ∀ es ∈ g.links, es.Pairwise (· < ·)
  mem_links_iff : ∀ x ∈ g.nodes.zip g.links, ∀ e,
    e ∈ x.2 ↔ ∃ l, links[e]? = some l ∧ ∃ i ∈ Search.positions x.1, l.Starts i

section Of

variable [Scalar α] {n : Nat} {links : List (Ends α)} {g : Grouping}

theorem sound_edgesWithin {edges : List Search.Edge} (h : edgesWithin n links = .ok edges) :
    ∀ e ∈ edges, e.1.Sound ∧ e.2.Sound := by
  obtain ⟨found, hfound, h⟩ := bind_eq_ok.mp h
  obtain rfl := pure_eq_ok.mp h
  rintro ⟨s, t⟩ he
  obtain ⟨r, hr, heq⟩ := List.mem_filterMap.mp he
  obtain rfl : r = some (s, t) := heq
  obtain ⟨e, _, hedge⟩ := (mem_iff_of_mapM hfound).mp hr
  obtain ⟨v, w, s', t', hv, hw, hs, ht, hs', ht'⟩ := Ends.leads_iff.mp (leads_of_edgeOf hedge).1
  rw [edgeOf_of_handle? hv hw hs ht, Except.ok.injEq] at hedge
  by_cases hin : InGraph n s'.position ∧ InGraph n t'.position
  · rw [if_pos hin, Option.some.injEq, Prod.mk.injEq] at hedge
    exact ⟨hedge.1 ▸ Value.sound_of_handle? hs, hedge.2 ▸ Value.sound_of_handle? ht⟩
  · rw [if_neg hin] at hedge
    cases hedge

theorem sourceOf_eq_ok_iff {e : Ends α} {i : Int} (hi : InGraph n i) :
    (∃ h, sourceOf n e = .ok (some h) ∧ h.position = i) ↔ e.Starts i := by
  constructor
  · rintro ⟨h, hsource, rfl⟩
    obtain ⟨v, hv, hsource⟩ := bind_eq_ok.mp hsource
    obtain ⟨b, _, hsource⟩ := bind_eq_ok.mp hsource
    cases b with
    | false => cases hsource
    | true =>
        obtain ⟨h', hh', hsource⟩ := bind_eq_ok.mp hsource
        obtain rfl := Option.some.inj (Except.ok.inj hsource)
        exact ⟨v, hv, Value.position_eq_ok_iff.mpr ⟨h', Value.mentioned_eq_ok_iff.mp hh', rfl⟩⟩
  · rintro ⟨v, hv, hposition⟩
    obtain ⟨h, hh, rfl⟩ := Value.position_eq_ok_iff.mp hposition
    refine ⟨h, ?_, rfl⟩
    rw [sourceOf, hv, ok_bind, Value.inside_of_handle? hh, ok_bind, if_pos (decide_eq_true hi),
      Value.mentioned_eq_ok_iff.mpr hh]
    rfl

theorem mem_linksFrom {sources : List (Option Handle)} {c : List Handle} {e : Nat} :
    e ∈ linksFrom sources c ↔
      ∃ h, sources[e]? = some (some h) ∧ h.position ∈ Search.positions c := by
  rw [linksFrom, List.mem_filter, List.mem_range]
  constructor
  · rintro ⟨he, hmet⟩
    rw [List.getElem?_eq_getElem he] at hmet ⊢
    cases hs : sources[e] with
    | none =>
        rw [hs] at hmet
        cases hmet
    | some h =>
        rw [hs] at hmet
        exact ⟨h, rfl, Search.met_iff.mp hmet⟩
  · rintro ⟨h, hs, hh⟩
    obtain ⟨he, _⟩ := List.getElem?_eq_some_iff.mp hs
    refine ⟨he, ?_⟩
    rw [hs]
    exact Search.met_iff.mpr hh

theorem mem_linksFrom_iff {sources : List (Option Handle)} {c : List Handle}
    (hsources : links.mapM (sourceOf n) = .ok sources)
    (hin : ∀ i ∈ Search.positions c, InGraph n i) {e : Nat} :
    e ∈ linksFrom sources c ↔
      ∃ l, links[e]? = some l ∧ ∃ i ∈ Search.positions c, l.Starts i := by
  rw [mem_linksFrom]
  constructor
  · rintro ⟨h, hs, hh⟩
    obtain ⟨l, hl, hs⟩ := (getElem?_eq_some_of_mapM hsources).mp hs
    exact ⟨l, hl, _, hh, (sourceOf_eq_ok_iff (hin _ hh)).mp ⟨h, hs, rfl⟩⟩
  · rintro ⟨l, hl, i, hi, hstarts⟩
    obtain ⟨h, hs, rfl⟩ := (sourceOf_eq_ok_iff (hin i hi)).mpr hstarts
    exact ⟨h, (getElem?_eq_some_of_mapM hsources).mpr ⟨l, hl, hs⟩, hi⟩

/-- Whenever a grouping is answered, it shares out the graph. -/
theorem shares_of (h : of (n : Int) links = .ok g) : Shares n links g := by
  obtain ⟨nodes, hnodes, h⟩ := bind_eq_ok.mp h
  obtain ⟨sources, hsources, h⟩ := bind_eq_ok.mp h
  obtain rfl := pure_eq_ok.mp h
  have hclasses := classes_of_components hnodes
  refine ⟨hclasses, ?_, List.length_map _, ?_, ?_⟩
  · obtain ⟨edges, hedges, hcomponents⟩ := bind_eq_ok.mp hnodes
    obtain rfl := pure_eq_ok.mp hcomponents
    exact Search.forall_components (sound_edgesWithin hedges) fun k ht => nomatch ht
  · intro es hes
    obtain ⟨c, _, rfl⟩ := List.mem_map.mp hes
    exact List.pairwise_lt_range.filter _
  · intro x hx e
    rw [← List.map_prod_left_eq_zip, List.mem_map] at hx
    obtain ⟨c, hc, rfl⟩ := hx
    apply mem_linksFrom_iff hsources
    intro i hi
    exact hclasses.mem_flatten_iff.mp (List.mem_flatten.mpr ⟨_, List.mem_map_of_mem hc, hi⟩)

/-- The source of a link between whole numbers can always be read. -/
theorem exists_sourceOf {e : Ends α} {i : Int} (h : e.Starts i) : ∃ r, sourceOf n e = .ok r := by
  obtain ⟨v, hv, hposition⟩ := h
  obtain ⟨s, hs, _⟩ := Value.position_eq_ok_iff.mp hposition
  rw [sourceOf, hv, ok_bind, Value.inside_of_handle? hs, ok_bind,
    Value.mentioned_eq_ok_iff.mpr hs]
  by_cases hin : InGraph n s.position
  · rw [if_pos (decide_eq_true hin)]
    exact ⟨some s, rfl⟩
  · rw [if_neg (by simpa using hin)]
    exact ⟨none, rfl⟩

/-- Links between whole numbers always have a grouping. -/
theorem exists_of (h : ∀ e ∈ links, ∃ i j, e.Leads i j) : ∃ g, of (n : Int) links = .ok g := by
  obtain ⟨edges, hedges⟩ := exists_edgesWithin (n := n) h
  obtain ⟨sources, hsources⟩ := exists_mapM_eq_ok (f := sourceOf (n : Int)) fun e he => by
    obtain ⟨i, j, hleads⟩ := h e he
    exact exists_sourceOf hleads.starts
  have hnodes : components (n : Int) links = .ok (Search.components n edges) :=
    bind_eq_ok.mpr ⟨edges, hedges, rfl⟩
  exact ⟨_, bind_eq_ok.mpr ⟨_, hnodes, bind_eq_ok.mpr ⟨sources, hsources, rfl⟩⟩⟩

end Of

namespace Shares

variable {n : Nat} {links : List (Ends α)} {g : Grouping}

theorem inside (hg : Shares n links g) {c : List Handle} (hc : c ∈ g.nodes) {h : Handle}
    (hh : h ∈ c) : InGraph n h.position :=
  hg.classes.mem_flatten_iff.mp
    (List.mem_flatten.mpr ⟨_, List.mem_map_of_mem hc, Search.position_mem hh⟩)

theorem map_fst_zip (hg : Shares n links g) : (g.nodes.zip g.links).map Prod.fst = g.nodes :=
  List.map_fst_zip hg.length_eq.ge

theorem map_snd_zip (hg : Shares n links g) : (g.nodes.zip g.links).map Prod.snd = g.links :=
  List.map_snd_zip hg.length_eq.le

/-- What is connected with a node of a component is in the component. -/
theorem mem_of_connected (hg : Shares n links g) {c : List Handle} (hc : c ∈ g.nodes) {i j : Int}
    (hi : i ∈ Search.positions c) (hin : InGraph n i) (hjn : InGraph n j)
    (h : Connected n links i j) : j ∈ Search.positions c := by
  obtain ⟨k, rfl⟩ := Int.eq_ofNat_of_zero_le hin.1
  obtain ⟨m, rfl⟩ := Int.eq_ofNat_of_zero_le hjn.1
  obtain ⟨c', hc', hk, hm⟩ := (hg.classes.together_iff k m (Int.ofNat_lt.mp hin.2)
    (Int.ofNat_lt.mp hjn.2)).mpr h
  have hsame : c' = Search.positions c := by
    by_contra hne
    have hsymm : Std.Symm (α := List Int) List.Disjoint := ⟨fun _ _ => List.disjoint_symm⟩
    exact hg.classes.pairwise_disjoint.forall hc' (List.mem_map_of_mem hc) hne hk hi
  exact hsame ▸ hm

/-- Two components share neither a node nor a link. -/
theorem pairwise_disjoint (hg : Shares n links g) :
    (g.nodes.zip g.links).Pairwise fun x y =>
      (Search.positions x.1).Disjoint (Search.positions y.1) ∧ x.2.Disjoint y.2 := by
  have hnodes : (g.nodes.zip g.links).Pairwise fun x y =>
      (Search.positions x.1).Disjoint (Search.positions y.1) := by
    have hall := List.pairwise_map.mp hg.classes.pairwise_disjoint
    rw [← hg.map_fst_zip, List.pairwise_map] at hall
    exact hall
  refine hnodes.imp_of_mem ?_
  intro x y hx hy hdisjoint
  refine ⟨hdisjoint, ?_⟩
  intro e hex hey
  obtain ⟨l, hl, i, hi, hstarts⟩ := (hg.mem_links_iff x hx e).mp hex
  obtain ⟨l', hl', j, hj, hstarts'⟩ := (hg.mem_links_iff y hy e).mp hey
  obtain rfl := Option.some.inj (hl.symm.trans hl')
  exact hdisjoint hi (hstarts.unique hstarts' ▸ hj)

theorem nodup_links (hg : Shares n links g) : g.links.flatten.Nodup := by
  rw [List.nodup_flatten]
  constructor
  · intro es hes
    exact (hg.ascending es hes).imp fun h => Nat.ne_of_lt h
  · have hall := hg.pairwise_disjoint.imp fun {x y} h => h.2
    rw [← hg.map_snd_zip]
    exact List.pairwise_map.mpr hall

/-- The links in components are those that start in the graph. -/
theorem mem_flatten_links_iff (hg : Shares n links g) {e : Nat} :
    e ∈ g.links.flatten ↔ ∃ l, links[e]? = some l ∧ ∃ i, InGraph n i ∧ l.Starts i := by
  rw [List.mem_flatten]
  constructor
  · rintro ⟨es, hes, he⟩
    rw [← hg.map_snd_zip] at hes
    obtain ⟨x, hx, rfl⟩ := List.mem_map.mp hes
    obtain ⟨l, hl, i, hi, hstarts⟩ := (hg.mem_links_iff x hx e).mp he
    obtain ⟨h, hh, rfl⟩ := Search.mem_positions.mp hi
    exact ⟨l, hl, _, hg.inside (List.of_mem_zip hx).1 hh, hstarts⟩
  · rintro ⟨l, hl, i, hin, hstarts⟩
    obtain ⟨ps, hps, hi⟩ := List.mem_flatten.mp (hg.classes.mem_flatten_iff.mpr hin)
    obtain ⟨c, hc, rfl⟩ := List.mem_map.mp hps
    rw [← hg.map_fst_zip] at hc
    obtain ⟨x, hx, rfl⟩ := List.mem_map.mp hc
    exact ⟨x.2, (List.of_mem_zip hx).2, (hg.mem_links_iff x hx e).mpr ⟨l, hl, i, hi, hstarts⟩⟩

end Shares

end Grouping

namespace Drawing

variable {α : Type}

/-- The ends of the links of a drawing, as they are read. -/
def ends (d : Drawing α) : List (Ends α) := d.links.map fun l => (LinkEntry.ready l).ends d.nodes

/-- The ends of links are whole numbers or truth values, or members that carry such an index. -/
def WholeEnds (d : Drawing α) : Prop := ∀ e ∈ d.ends, ∃ i j, e.Leads i j

end Drawing

/-- Where the index that a thing carries is a whole number, its two readings agree. -/
theorem Mention.checked_eq_located {α : Type} [Scalar α] {v : Value α} {h : Handle} {i : Int}
    (hc : (ofIndex v).checked = .ok (some h)) (hl : (ofIndex v).located.position = .ok i) :
    h.position = i := by
  cases v with
  | int n =>
      obtain rfl := Option.some.inj (Except.ok.inj hc)
      exact Except.ok.inj hl
  | bool b =>
      obtain rfl := Option.some.inj (Except.ok.inj hc)
      exact Except.ok.inj hl
  | null => cases hc
  | real | text | list | table | thing => cases hl

namespace Endpoint

variable {α : Type} [Scalar α]

/-- Where an end is a whole number, its two readings agree. -/
theorem checked_eq_located {nodes : List (Node α)} {e : Endpoint α} {h : Handle} {i : Int}
    (hc : (e.mention nodes).checked = .ok (some h))
    (hl : (e.mention nodes).located.position = .ok i) : h.position = i := by
  cases e with
  | member k =>
      rw [mention] at hc hl
      cases hk : nodes[k]? with
      | none =>
          rw [hk] at hc
          cases hc
      | some n =>
          rw [hk] at hc hl
          exact Mention.checked_eq_located hc hl
  | guest name n => exact Mention.checked_eq_located hc hl
  | value v =>
      cases v with
      | int n =>
          obtain rfl := Option.some.inj (Except.ok.inj hc)
          exact Except.ok.inj hl
      | bool b =>
          obtain rfl := Option.some.inj (Except.ok.inj hc)
          rw [mention, Mention.ofValue, Mention.located,
            Value.position_ofHandle (Value.sound_of_handle? (v := Value.bool (α := α) b) rfl)] at hl
          exact Except.ok.inj hl
      | thing index =>
          cases index with
          | none => cases hc
          | some v => exact Mention.checked_eq_located hc hl
      | real | null | text | list | table => cases hc

end Endpoint

namespace Check

variable {α : Type} [Scalar α] {nodes : List (Node α)} {count : Int}

/-- A link without a complaint has both of its ends in the graph. -/
theorem inside_of_issuesOf {position : Nat} {l : LinkEntry α}
    (h : issuesOf nodes count position l = .ok []) (side : LinkEnd) :
    ∃ s, mentioned nodes side l = .ok (some s) ∧ 0 ≤ s.position ∧ s.position < count := by
  obtain ⟨source, hsource, h⟩ := bind_eq_ok.mp h
  obtain ⟨target, htarget, h⟩ := bind_eq_ok.mp h
  obtain ⟨hnone, hnone'⟩ := List.append_eq_nil_iff.mp (pure_eq_ok.mp h)
  rw [Option.toList_eq_nil_iff, Option.map_eq_none_iff] at hnone hnone'
  have hinside : ∀ h?, endProblem count h? = none →
      ∃ s, h? = some s ∧ 0 ≤ s.position ∧ s.position < count := by
    intro h? hproblem
    cases h? with
    | none => cases hproblem
    | some s =>
        refine ⟨s, rfl, ?_⟩
        rw [endProblem] at hproblem
        by_cases hout : s.position < 0 ∨ count ≤ s.position
        · rw [if_pos hout] at hproblem
          cases hproblem
        · omega
  cases side with
  | source =>
      obtain ⟨s, rfl, hin⟩ := hinside source hnone
      exact ⟨s, hsource, hin⟩
  | target =>
      obtain ⟨t, rfl, hin⟩ := hinside target hnone'
      exact ⟨t, htarget, hin⟩

theorem inside_of_linkIssuesFrom {position : Nat} {ls : List (LinkEntry α)}
    (h : linkIssuesFrom nodes count position ls = .ok []) :
    ∀ l ∈ ls, ∀ side, ∃ s, mentioned nodes side l = .ok (some s) ∧ 0 ≤ s.position ∧
      s.position < count := by
  induction ls generalizing position with
  | nil =>
      intro l hl
      cases hl
  | cons l rest ih =>
      obtain ⟨here, hhere, h⟩ := bind_eq_ok.mp h
      obtain ⟨more, hmore, h⟩ := bind_eq_ok.mp h
      obtain ⟨rfl, rfl⟩ := List.append_eq_nil_iff.mp (pure_eq_ok.mp h)
      intro l' hl'
      rcases List.mem_cons.mp hl' with rfl | hl'
      · exact inside_of_issuesOf hhere
      · exact ih hmore l' hl'

end Check

namespace Drawing

variable {α : Type} [Scalar α]

/-- The ends of links in a checked drawing lie in the graph. -/
theorem inside_of_validate {d : Drawing α} (hvalid : d.validate = .ok ()) {l : Link α}
    (hl : l ∈ d.links) (side : LinkEnd) :
    ∃ s, Check.mentioned d.nodes side (.ready l) = .ok (some s) ∧
      InGraph d.nodes.length s.position := by
  rw [validate, if_neg (by simpa using List.ne_nil_of_mem hl)] at hvalid
  obtain ⟨issues, hlinks, hissues⟩ := bind_eq_ok.mp hvalid
  have hempty : issues = [] := by
    by_contra hne
    rw [if_neg (by simpa using hne)] at hissues
    cases hissues
  exact Check.inside_of_linkIssuesFrom (hempty ▸ hlinks) (.ready l) (List.mem_map_of_mem hl) side

/-- In a checked drawing with whole ends, all links lead from one node of the graph to another. -/
theorem leads_inside {d : Drawing α} (hvalid : d.validate = .ok ()) (hwhole : d.WholeEnds) :
    ∀ e ∈ d.ends, ∃ i j, e.Leads i j ∧ InGraph d.nodes.length i ∧ InGraph d.nodes.length j := by
  intro e he
  obtain ⟨i, j, hleads⟩ := hwhole e he
  obtain ⟨l, hl, rfl⟩ := List.mem_map.mp he
  obtain ⟨v, w, hv, hw, hi, hj⟩ := hleads
  obtain rfl := Except.ok.inj hv
  obtain rfl := Except.ok.inj hw
  obtain ⟨s, hs, hsin⟩ := inside_of_validate hvalid hl .source
  obtain ⟨t, ht, htin⟩ := inside_of_validate hvalid hl .target
  rw [Endpoint.checked_eq_located hs hi] at hsin
  rw [Endpoint.checked_eq_located ht hj] at htin
  exact ⟨i, j, ⟨_, _, rfl, rfl, hi, hj⟩, hsin, htin⟩

/-- Both ends of a link are in its component. -/
theorem ends_in_part {d : Drawing α} {g : Grouping} (hvalid : d.validate = .ok ())
    (hwhole : d.WholeEnds) (hg : g.Shares d.nodes.length d.ends) {x : List Handle × List Nat}
    (hx : x ∈ g.nodes.zip g.links) {e : Nat} (he : e ∈ x.2) :
    ∃ l i j, d.ends[e]? = some l ∧ l.Leads i j ∧ i ∈ Search.positions x.1 ∧
      j ∈ Search.positions x.1 := by
  obtain ⟨l, hl, k, hk, hstarts⟩ := (hg.mem_links_iff x hx e).mp he
  have hmem := List.mem_of_getElem? hl
  obtain ⟨i, j, hleads, hi, hj⟩ := leads_inside hvalid hwhole l hmem
  obtain rfl := hstarts.unique hleads.starts
  have hadjacent : Grouping.Adjacent d.nodes.length d.ends k j :=
    ⟨hi, hj, l, hmem, Or.inl hleads⟩
  exact ⟨l, k, j, hl, hleads, hk, hg.mem_of_connected (List.of_mem_zip hx).1 hk hi hj
    (Relation.ReflTransGen.single hadjacent)⟩

/-- In a checked drawing with whole ends, every link is in one component. -/
theorem links_perm {d : Drawing α} {g : Grouping} (hvalid : d.validate = .ok ())
    (hwhole : d.WholeEnds) (hg : g.Shares d.nodes.length d.ends) :
    g.links.flatten.Perm (List.range d.links.length) := by
  rw [List.perm_ext_iff_of_nodup hg.nodup_links List.nodup_range]
  intro e
  rw [hg.mem_flatten_links_iff, List.mem_range]
  have hlength : d.ends.length = d.links.length := List.length_map _
  constructor
  · rintro ⟨l, hl, _⟩
    rw [← hlength]
    exact (List.getElem?_eq_some_iff.mp hl).1
  · intro he
    rw [← hlength] at he
    obtain ⟨i, j, hleads, hi, _⟩ := leads_inside hvalid hwhole _ (List.getElem_mem he)
    exact ⟨_, List.getElem?_eq_getElem he, i, hi, hleads.starts⟩

end Drawing

end PackedDrawing
