import PackedDrawing.Proofs.Layout.Home

/-!
# Copies of components are isomorphic to them

Whatever copy of a part of a drawing is answered has the part's nodes, numbered from zero in the
order of the part, and the part's links between those numbers. In a checked drawing each component
has both ends of its links, so it can be copied, and the components share out all nodes and links.

## Main definitions

* `Copy.Mirrors`: a copy is the part of a drawing it was made of, with its nodes numbered anew.

## Main statements

* `Copy.mirrors_of`: every copy of a part with both ends of its links mirrors the part.
* `Grouping.Shares.exists_locate`: a node is in the component it is located in.
* `Drawing.components_copied`: the components of a checked drawing share out its links, and each of
  them can be copied.
-/

namespace PackedDrawing

open Search

namespace Copy

variable {α : Type} [Scalar α] {d : Drawing α}

/-- The number that a copy gives to a node is that of the node in its component. -/
theorem position_of_localNumber {handles : List Handle} (hsound : ∀ h ∈ handles, h.Sound)
    {v : Value α} {i : Int} (hv : v.position = .ok i) {k : Nat}
    (h : localNumber (Mosaic.nodeValues handles) v = .ok k) :
    ∃ g, handles[k]? = some g ∧ g.position = i := by
  have hfound : (List.range (Mosaic.nodeValues handles : List (Value α)).length).reverse.find?
      (fun k => ((Mosaic.nodeValues handles)[k]?.map (Value.same v)).getD false) = some k := by
    cases v with
    | real | null | text | list | table | thing => cases hv
    | int | bool =>
        simp only [localNumber] at h
        split at h
        · rename_i hsome
          rw [← Except.ok.inj h]
          exact hsome
        · cases h
  have hsame := List.find?_some hfound
  rw [Mosaic.nodeValues, List.getElem?_map] at hsame
  cases hg : handles[k]? with
  | none =>
      rw [hg] at hsame
      cases hsame
  | some g =>
      rw [hg] at hsame
      have hposition := Value.position_ofHandle (α := α) (hsound g (List.mem_of_getElem? hg))
      exact ⟨g, rfl, ((Value.same_iff_of_position hv hposition).mp hsame).symm⟩

/-- A copy mirrors a part of a drawing: its node under a number is a copy of the part's node at that
place, carries the number and is brought home to the node, and its link under a number is a copy of
the part's link at that place, between the numbers of the nodes that the link joins. -/
structure Mirrors (d : Drawing α) (part : List Handle × List Nat) (c : Copy α) : Prop where
  length_nodes : c.drawing.nodes.length = part.1.length
  length_links : c.drawing.links.length = part.2.length
  node : ∀ (k : Nat) (h : Handle), part.1[k]? = some h → ∃ original copy,
    d.nodes[h.position.toNat]? = some original ∧ c.drawing.nodes[k]? = some copy ∧
      copy = copyNode c.flags k original ∧ copy.index = .int k ∧
        c.nodeHome copy = .ok (some h.position.toNat)
  link : ∀ k e : Nat, part.2[k]? = some e → ∃ (original copy : Link α) (s t : Nat) (g h : Handle),
    d.links[e]? = some original ∧ c.drawing.links[k]? = some copy ∧ c.linkHome k = some e ∧
      copy = { original with
        source := .value (.int s)
        target := .value (.int t)
        weight := if c.flags.weights then original.weight else .null
        bends := if c.flags.bends then original.bends else [] } ∧
      part.1[s]? = some g ∧ part.1[t]? = some h ∧
        ((LinkEntry.ready original).ends d.nodes).Leads g.position h.position

theorem getElem?_filterMap {β γ : Type} {f : β → Option γ} {l : List β}
    (h : ∀ x ∈ l, ∃ y, f x = some y) (k : Nat) : (l.filterMap f)[k]? = l[k]?.bind f := by
  induction l generalizing k with
  | nil => rfl
  | cons x rest ih =>
      obtain ⟨y, hy⟩ := h x List.mem_cons_self
      rw [List.filterMap_cons_some hy]
      cases k with
      | zero => exact hy.symm
      | succ k => exact ih (fun z hz => h z (List.mem_cons_of_mem x hz)) k

theorem length_filterMap {β γ : Type} {f : β → Option γ} {l : List β}
    (h : ∀ x ∈ l, ∃ y, f x = some y) : (l.filterMap f).length = l.length := by
  induction l with
  | nil => rfl
  | cons x rest ih =>
      obtain ⟨y, hy⟩ := h x List.mem_cons_self
      rw [List.filterMap_cons_some hy, List.length_cons, List.length_cons,
        ih fun z hz => h z (List.mem_cons_of_mem x hz)]

theorem nodeHome_of_index {c : Copy α} {n : Node α} {k : Nat} (hindex : n.index = .int k) :
    c.nodeHome n = .ok c.nodeHomes[k]? := by
  have hposition : n.index.position = .ok (k : Int) := by
    rw [hindex]
    rfl
  rw [nodeHome_of_position hposition, if_pos (Int.natCast_nonneg k), Int.toNat_natCast]

/-- The copy of a link joins the numbers of the nodes that the link joins. -/
theorem link_of_copyLink {part : List Handle × List Nat} (hsound : ∀ h ∈ part.1, h.Sound)
    {flags : Flags} {original copy : Link α} {i j : Int}
    (hleads : ((LinkEntry.ready original).ends d.nodes).Leads i j)
    (h : copyLink flags d.nodes (Mosaic.nodeValues part.1) original = .ok copy) :
    ∃ s t g h, copy = { original with
        source := .value (.int (s : Nat))
        target := .value (.int (t : Nat))
        weight := if flags.weights then original.weight else .null
        bends := if flags.bends then original.bends else [] } ∧
      part.1[s]? = some g ∧ part.1[t]? = some h ∧ g.position = i ∧ h.position = j := by
  obtain ⟨v, w, hv, hw, hvi, hwj⟩ := hleads
  obtain rfl := Except.ok.inj hv
  obtain rfl := Except.ok.inj hw
  obtain ⟨s, hs, h⟩ := bind_eq_ok.mp h
  obtain ⟨t, ht, h⟩ := bind_eq_ok.mp h
  obtain ⟨g, hg, hgi⟩ := position_of_localNumber hsound hvi hs
  obtain ⟨g', hg', hgj⟩ := position_of_localNumber hsound hwj ht
  exact ⟨s, t, g, g', (pure_eq_ok.mp h).symm, hg, hg', hgi, hgj⟩

/-- Every copy of a part with both ends of its links mirrors the part. -/
theorem mirrors_of {part : List Handle × List Nat} (hpart : Closed d part) {flags : Flags}
    {c : Copy α}
    (h : Copy.of d (Mosaic.nodeValues part.1) (Mosaic.linkValues part.2) flags = .ok c) :
    Mirrors d part c := by
  obtain ⟨nodeHomes, hnodeHomes, h⟩ := bind_eq_ok.mp h
  obtain ⟨linkHomes, hlinkHomes, h⟩ := bind_eq_ok.mp h
  obtain ⟨links, hlinks, h⟩ := bind_eq_ok.mp h
  obtain rfl := pure_eq_ok.mp h
  rw [Record.places_nodeValues hpart.sound hpart.node, Except.ok.injEq] at hnodeHomes
  rw [Record.places_linkValues hpart.link, Except.ok.injEq] at hlinkHomes
  subst hnodeHomes hlinkHomes
  have hnodes : ∀ k ∈ part.1.map (·.position.toNat), ∃ n, d.nodes[k]? = some n := by
    intro k hk
    obtain ⟨h, hh, rfl⟩ := List.mem_map.mp hk
    obtain ⟨hlow, hhigh⟩ := hpart.node h hh
    exact ⟨_, List.getElem?_eq_getElem (by omega)⟩
  have hjoins : ∀ e ∈ part.2, ∃ l, d.links[e]? = some l := fun e he =>
    ⟨_, List.getElem?_eq_getElem (hpart.link e he)⟩
  have hlength : links.length = part.2.length :=
    (mapM_eq_ok_iff.mp hlinks).length_eq.symm.trans (length_filterMap hjoins)
  constructor
  case length_nodes => rw [List.length_mapIdx, length_filterMap hnodes, List.length_map]
  case length_links => exact hlength
  case node =>
    intro k h hk
    obtain ⟨original, horiginal⟩ := hnodes _ (List.mem_map_of_mem (List.mem_of_getElem? hk))
    refine ⟨original, copyNode flags k original, horiginal, ?_, rfl, rfl, ?_⟩
    · rw [List.getElem?_mapIdx, getElem?_filterMap hnodes, List.getElem?_map, hk]
      exact congrArg (Option.map _) horiginal
    · rw [nodeHome_of_index rfl, List.getElem?_map, hk]
      rfl
  case link =>
    intro k e hk
    obtain ⟨original, horiginal⟩ := hjoins e (List.mem_of_getElem? hk)
    obtain ⟨l, i, j, hl, hleads, _⟩ := hpart.ends e (List.mem_of_getElem? hk)
    rw [Drawing.ends, List.getElem?_map, horiginal, Option.map_some, Option.some.injEq] at hl
    subst hl
    have hk' : k < links.length := hlength ▸ (List.getElem?_eq_some_iff.mp hk).1
    obtain ⟨x, hx, hcopy⟩ :=
      (getElem?_eq_some_of_mapM hlinks).mp (List.getElem?_eq_getElem hk')
    rw [getElem?_filterMap hjoins, hk] at hx
    obtain rfl := Option.some.inj (horiginal.symm.trans hx)
    obtain ⟨s, t, g, h, heq, hg, hh, rfl, rfl⟩ := link_of_copyLink hpart.sound hleads hcopy
    exact ⟨original, _, s, t, g, h, horiginal, List.getElem?_eq_getElem hk', hk, heq, hg, hh,
      hleads⟩

end Copy

namespace Grouping

variable {α : Type} {n : Nat} {links : List (Ends α)} {g : Grouping}

theorem Shares.size_eq (hg : Shares n links g) : g.size = n := by
  have hlength := hg.classes.once.length_eq
  rw [List.length_flatten, List.map_map, List.length_map, List.length_range] at hlength
  rw [size, ← hlength]
  congr 1
  apply List.map_congr_left
  intro c _
  rw [Function.comp_apply, positions, List.length_map]

theorem nodesAt_eq_ok_iff {i : Nat} {c : List Handle} :
    g.nodesAt i = .ok c ↔ g.nodes[i]? = some c := by
  rw [nodesAt, at?_ofNat]
  cases g.nodes[i]? <;> simp

theorem linksAt_eq_ok_iff {i : Nat} {es : List Nat} :
    g.linksAt i = .ok es ↔ g.links[i]? = some es := by
  rw [linksAt, at?_ofNat]
  cases g.links[i]? <;> simp

/-- No link is in two components. -/
theorem Shares.eq_of_mem_links (hg : Shares n links g) {i j e : Nat} {es es' : List Nat}
    (hi : g.links[i]? = some es) (he : e ∈ es) (hj : g.links[j]? = some es') (he' : e ∈ es') :
    i = j := by
  have hdisjoint := List.pairwise_iff_getElem.mp (List.nodup_flatten.mp hg.nodup_links).2
  obtain ⟨hin, rfl⟩ := List.getElem?_eq_some_iff.mp hi
  obtain ⟨hjn, rfl⟩ := List.getElem?_eq_some_iff.mp hj
  rcases Nat.lt_trichotomy i j with hlt | heq | hgt
  · exact (hdisjoint i j hin hjn hlt he he').elim
  · exact heq
  · exact (hdisjoint j i hjn hin hgt he' he).elim

/-- A node is in the component it is located in. -/
theorem Shares.exists_locate (hg : Shares n links g) {v : Nat} (hv : v < n) :
    ∃ i c, g.locate v = .ok i ∧ g.nodesAt i = .ok c ∧ (v : Int) ∈ positions c := by
  have hmem := hg.classes.mem_flatten_iff.mpr
    ⟨Int.natCast_nonneg v, Int.ofNat_lt.mpr hv⟩
  obtain ⟨ps, hps, hvps⟩ := List.mem_flatten.mp hmem
  obtain ⟨c, hc, rfl⟩ := List.mem_map.mp hps
  have hfind : g.nodes.findIdx (met · (Handle.ofNat v)) < g.nodes.length :=
    List.findIdx_lt_length_of_exists ⟨c, hc, met_iff.mpr hvps⟩
  have hmet : met g.nodes[g.nodes.findIdx (met · (Handle.ofNat v))] (Handle.ofNat v) = true :=
    @List.findIdx_getElem _ (met · (Handle.ofNat v)) g.nodes hfind
  refine ⟨_, _, ?_, nodesAt_eq_ok_iff.mpr (List.getElem?_eq_getElem hfind), met_iff.mp hmet⟩
  rw [locate, Handle.place?_ofNat (hg.size_eq.symm ▸ hv)]

end Grouping

namespace Drawing

variable {α : Type} [Scalar α] {d : Drawing α}

/-- The components of a checked drawing share out its nodes and links, and each of them can be
copied. -/
theorem components_copied (hvalid : d.validate = .ok ()) (hwhole : d.WholeEnds) :
    ∃ g, Grouping.ofDrawing d = .ok g ∧
      (∀ e < d.links.length, ∃! i, i < g.count ∧ ∃ es, g.linksAt (i : Nat) = .ok es ∧ e ∈ es) ∧
      (∀ v < d.nodes.length, ∃ i c, g.locate (v : Nat) = .ok i ∧ g.nodesAt i = .ok c ∧
        (v : Int) ∈ positions c) ∧
      ∀ i < g.count, ∃ c es, g.nodesAt (i : Nat) = .ok c ∧ g.linksAt (i : Nat) = .ok es ∧
        es.Pairwise (· < ·) ∧
        (∀ e ∈ es, ∃ l s t, d.ends[e]? = some l ∧ l.Leads s t ∧ s ∈ positions c ∧
          t ∈ positions c) ∧
        ∀ flags, ∃ copy, Copy.of d (Mosaic.nodeValues c) (Mosaic.linkValues es) flags = .ok copy ∧
          copy.flags = flags ∧ copy.Mirrors d (c, es) := by
  obtain ⟨g, hgrouping⟩ := Grouping.exists_of (n := d.nodes.length) hwhole
  have hg := Grouping.shares_of hgrouping
  refine ⟨g, hgrouping, ?_, fun v hv => hg.exists_locate hv, ?_⟩
  · intro e he
    have hmem := (links_perm hvalid hwhole hg).mem_iff.mpr (List.mem_range.mpr he)
    obtain ⟨es, hes, hees⟩ := List.mem_flatten.mp hmem
    obtain ⟨i, hi⟩ := List.mem_iff_getElem?.mp hes
    have hcount : i < g.count := by
      have hlength := (List.getElem?_eq_some_iff.mp hi).1
      rwa [hg.length_eq] at hlength
    refine ⟨i, ⟨hcount, es, Grouping.linksAt_eq_ok_iff.mpr hi, hees⟩, ?_⟩
    rintro j ⟨_, es', hj, hees'⟩
    exact hg.eq_of_mem_links (Grouping.linksAt_eq_ok_iff.mp hj) hees' hi hees
  · intro i hi
    have hi' : i < g.links.length := hg.length_eq.symm ▸ hi
    have hnodes : g.nodes[i]? = some g.nodes[i] := List.getElem?_eq_getElem hi
    have hlinks : g.links[i]? = some g.links[i] := List.getElem?_eq_getElem hi'
    have hpart : (g.nodes[i], g.links[i]) ∈ g.nodes.zip g.links :=
      List.mem_of_getElem? (List.getElem?_zip_eq_some.mpr ⟨hnodes, hlinks⟩)
    have hclosed := Copy.closed_of_shares hvalid hwhole hg hpart
    refine ⟨_, _, Grouping.nodesAt_eq_ok_iff.mpr hnodes, Grouping.linksAt_eq_ok_iff.mpr hlinks,
      hg.ascending _ (List.mem_of_getElem? hlinks), hclosed.ends, ?_⟩
    intro flags
    obtain ⟨copy, hcopy, hflags⟩ := Copy.exists_of hclosed flags
    exact ⟨copy, hcopy, hflags, Copy.mirrors_of hclosed hcopy⟩

/-- Three nodes, a link from a whole number to a member, and a loop from a thing with an index to a
truth value. -/
def mixedEnds : Drawing Float :=
  { nodes := [{ Node.blank with index := .int 0 }, { Node.blank with index := .int 1 },
      { Node.blank with index := .int 2 }]
    links := [(.value (.int 2), .member 0),
      (.value (.thing (some (.int 1))), .value (.bool true))].map
      fun e => { source := e.1, target := e.2, length := .null, weight := .null, bends := []
                 extras := [] } }

theorem wholeEnds_mixedEnds : mixedEnds.WholeEnds := by
  intro e he
  simp only [mixedEnds, ends, List.map_cons, List.map_nil, List.mem_cons, List.not_mem_nil,
    or_false] at he
  rcases he with rfl | rfl
  · exact ⟨2, 0, _, _, rfl, rfl, rfl, rfl⟩
  · exact ⟨1, 1, _, _, rfl, rfl, rfl, rfl⟩

theorem components_copied_mixedEnds :
    mixedEnds.validate = .ok () ∧ mixedEnds.WholeEnds ∧ ∃ g, ∃ i : Nat, ∃ c es copy,
      Grouping.ofDrawing mixedEnds = .ok g ∧ g.nodesAt i = .ok c ∧ g.linksAt i = .ok es ∧ 1 ∈ es ∧
        Copy.of mixedEnds (Mosaic.nodeValues c) (Mosaic.linkValues es) .plain = .ok copy ∧
          copy.Mirrors mixedEnds (c, es) := by
  have hvalid : mixedEnds.validate = .ok () := rfl
  obtain ⟨g, hg, hlinks, _, hcopies⟩ := components_copied hvalid wholeEnds_mixedEnds
  obtain ⟨i, ⟨hi, es, hes, hmem⟩, _⟩ := hlinks 1 (by decide)
  obtain ⟨c, es', hc, hes', _, _, hcopy⟩ := hcopies i hi
  obtain rfl := Except.ok.inj (hes.symm.trans hes')
  obtain ⟨copy, hof, _, hmirrors⟩ := hcopy .plain
  exact ⟨hvalid, wholeEnds_mixedEnds, g, i, c, es, copy, hg, hc, hes, hmem, hof, hmirrors⟩

end Drawing

end PackedDrawing
