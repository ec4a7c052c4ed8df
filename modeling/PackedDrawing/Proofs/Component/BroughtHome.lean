import PackedDrawing.Proofs.Component.Return

/-!
# Several layouts brought home

Components share neither nodes nor links, so what one layout changes when it is brought home is no
concern of the other components. Their copies stay what they were, and the layouts that are brought
home one after another all stay as they were brought.

## Main definitions

* `Copy.Strangers`: two copies have no home in common.
* `BroughtHome`: layouts of several copies were brought home, and nothing else was changed.

## Main statements

* `Copy.Strangers.of_rewritten`: a copy stays what it was when another component is changed.
* `BroughtHome.cons`: one layout is brought home first, and then the others.
-/

namespace PackedDrawing

variable {α : Type}

namespace Copy

/-- Two copies have no home in common. -/
structure Strangers (c c' : Copy α) : Prop where
  nodes : c.nodeHomes.Disjoint c'.nodeHomes
  links : c.linkHomes.Disjoint c'.linkHomes

section Scalars

variable [Scalar α] {c : Copy α} {d d' : Drawing α} {nodeIndices linkIndices : List (Value α)}
  {flags : Flags}

/-- A copy is made of the nodes and links at its homes, and of the graph. -/
theorem of_congr (h : Copy.of d nodeIndices linkIndices flags = .ok c) (hgraph : d'.graph = d.graph)
    (hnodes : ∀ k ∈ c.nodeHomes, d'.nodes[k]? = d.nodes[k]?)
    (hlinks : ∀ e ∈ c.linkHomes, d'.links[e]? = d.links[e]?) :
    Copy.of d' nodeIndices linkIndices flags = .ok c := by
  obtain ⟨nodeHomes, hnodeHomes, h⟩ := bind_eq_ok.mp h
  obtain ⟨linkHomes, hlinkHomes, h⟩ := bind_eq_ok.mp h
  obtain ⟨links, hcopied, h⟩ := bind_eq_ok.mp h
  obtain rfl := pure_eq_ok.mp h
  have hcopy : copyLink flags d'.nodes nodeIndices = copyLink flags d.nodes nodeIndices := by
    funext l
    simp only [copyLink, Endpoint.mention_congr (Prod.mk.inj hgraph).1]
  rw [Copy.of, Drawing.length_nodes_of_graph hgraph, Drawing.length_links_of_graph hgraph,
    hnodeHomes, ok_bind, hlinkHomes, ok_bind, hcopy, List.filterMap_congr hlinks, hcopied, ok_bind,
    List.filterMap_congr hnodes]
  rfl

/-- A part is still copied as before when a stranger to its copy was changed. -/
theorem Strangers.of_rewritten {c' : Copy α} {f : Nat → Node α → Node α} {f' : Nat → Link α → Link α}
    (h : c'.Strangers c) (hgraph : d'.graph = d.graph)
    (hnodes : Rewritten c'.nodeHomes f d.nodes d'.nodes)
    (hlinks : Rewritten c'.linkHomes f' d.links d'.links)
    (hc : Copy.of d nodeIndices linkIndices flags = .ok c) :
    Copy.of d' nodeIndices linkIndices flags = .ok c := by
  apply of_congr hc hgraph
  · exact fun k hk => hnodes.elsewhere k fun hk' => h.nodes hk' hk
  · exact fun e he => hlinks.elsewhere e fun he' => h.links he' he

/-- The copies of components are strangers. -/
theorem pairwise_strangers {g : Grouping} (hg : g.Shares d.nodes.length d.ends)
    {copies : List (Copy α)} (hcopies : (g.nodes.zip g.links).mapM (fun part =>
      Copy.of d (Mosaic.nodeValues part.1) (Mosaic.linkValues part.2) flags) = .ok copies) :
    copies.Pairwise Strangers := by
  have hhomes : copies.map (fun c => (c.nodeHomes, c.linkHomes)) =
      (g.nodes.zip g.links).map fun part => (part.1.map (·.position.toNat), part.2) := by
    have hmapped := congrArg (Except.map (List.map fun c => (c.nodeHomes, c.linkHomes))) hcopies
    rw [← mapM_map] at hmapped
    have hparts : (g.nodes.zip g.links).mapM (fun part =>
        (Copy.of d (Mosaic.nodeValues part.1) (Mosaic.linkValues part.2) flags).map
          fun c => (c.nodeHomes, c.linkHomes)) =
        .ok ((g.nodes.zip g.links).map fun part => (part.1.map (·.position.toNat), part.2)) := by
      apply mapM_eq_map
      intro part hpart
      obtain ⟨c, _, hc⟩ := exists_of_mapM hcopies hpart
      obtain ⟨_, hnodes, hlinks⟩ := homes_of (Record.part_of_shares hg hpart) hc
      rw [hc, ← hnodes, ← hlinks]
      rfl
    exact Except.ok.inj (hmapped.symm.trans hparts)
  have hpairs : ((g.nodes.zip g.links).map fun part =>
      (part.1.map (·.position.toNat), part.2)).Pairwise fun x y =>
        x.1.Disjoint y.1 ∧ x.2.Disjoint y.2 := by
    rw [List.pairwise_map]
    apply hg.pairwise_disjoint.imp_of_mem
    intro x y hx hy hdisjoint
    refine ⟨?_, hdisjoint.2⟩
    intro k hkx hky
    obtain ⟨a, ha, rfl⟩ := List.mem_map.mp hkx
    obtain ⟨a', ha', heq⟩ := List.mem_map.mp hky
    -- positions in the graph are not below zero, so they are told apart by their numbers
    obtain ⟨hlow, _⟩ := hg.inside (List.of_mem_zip hx).1 ha
    obtain ⟨hlow', _⟩ := hg.inside (List.of_mem_zip hy).1 ha'
    have hposition : a.position = a'.position := by omega
    exact hdisjoint.1 (Search.position_mem ha) (hposition ▸ Search.position_mem ha')
  rw [← hhomes, List.pairwise_map] at hpairs
  exact hpairs.imp fun h => ⟨h.1, h.2⟩

end Scalars

end Copy

/-- Layouts of copies were brought home, each to the homes of its copy, and nothing else was
changed. -/
structure BroughtHome (copies : List (Copy α)) (laids : List (Drawing α)) (d d' : Drawing α) :
    Prop where
  graph : d'.graph = d.graph
  node : ∀ x ∈ copies.zip laids, ∀ i k, x.1.nodeHomes[i]? = some k →
    d'.nodes[k]? = d.nodes[k]?.map (Copy.returnNode x.1.flags x.2.nodes i)
  link : ∀ x ∈ copies.zip laids, ∀ p e, x.1.linkHomes[p]? = some e →
    d'.links[e]? = d.links[e]?.map (Copy.returnLink x.1.flags x.2.links p)
  otherNode : ∀ k, (∀ c ∈ copies, k ∉ c.nodeHomes) → d'.nodes[k]? = d.nodes[k]?
  otherLink : ∀ e, (∀ c ∈ copies, e ∉ c.linkHomes) → d'.links[e]? = d.links[e]?

namespace BroughtHome

variable {c : Copy α} {copies : List (Copy α)} {laid : Drawing α} {laids : List (Drawing α)}
  {d u d' : Drawing α}

theorem nil (d : Drawing α) : BroughtHome [] [] d d := by
  refine ⟨rfl, ?_, ?_, fun _ _ => rfl, fun _ _ => rfl⟩
  · intro x hx
    cases hx
  · intro x hx
    cases hx

/-- One layout is brought home first, and then the others, which have no home in common with it. -/
theorem cons (hgraph : u.graph = d.graph)
    (hnodes : Rewritten c.nodeHomes (Copy.returnNode c.flags laid.nodes) d.nodes u.nodes)
    (hlinks : Rewritten c.linkHomes (Copy.returnLink c.flags laid.links) d.links u.links)
    (h : BroughtHome copies laids u d') (hstrangers : ∀ c' ∈ copies, c.Strangers c') :
    BroughtHome (c :: copies) (laid :: laids) d d' := by
  have hnodeHere : ∀ k ∈ c.nodeHomes, ∀ c' ∈ copies, k ∉ c'.nodeHomes := fun k hk c' hc' hk' =>
    (hstrangers c' hc').nodes hk hk'
  have hlinkHere : ∀ e ∈ c.linkHomes, ∀ c' ∈ copies, e ∉ c'.linkHomes := fun e he c' hc' he' =>
    (hstrangers c' hc').links he he'
  constructor
  case graph => exact h.graph.trans hgraph
  case node =>
    intro x hx i k hk
    rcases List.mem_cons.mp hx with rfl | hx
    · rw [h.otherNode k (hnodeHere k (List.mem_of_getElem? hk)), hnodes.home i k hk]
    · rw [h.node x hx i k hk, hnodes.elsewhere]
      intro hkc
      exact hnodeHere k hkc x.1 (List.of_mem_zip hx).1 (List.mem_of_getElem? hk)
  case link =>
    intro x hx p e he
    rcases List.mem_cons.mp hx with rfl | hx
    · rw [h.otherLink e (hlinkHere e (List.mem_of_getElem? he)), hlinks.home p e he]
    · rw [h.link x hx p e he, hlinks.elsewhere]
      intro hec
      exact hlinkHere e hec x.1 (List.of_mem_zip hx).1 (List.mem_of_getElem? he)
  case otherNode =>
    intro k hk
    rw [List.forall_mem_cons] at hk
    rw [h.otherNode k hk.2, hnodes.elsewhere k hk.1]
  case otherLink =>
    intro e he
    rw [List.forall_mem_cons] at he
    rw [h.otherLink e he.2, hlinks.elsewhere e he.1]

end BroughtHome

end PackedDrawing
