import PackedDrawing.Proofs.Component.Copies

/-!
# The readings of the ends of links

Links are checked by one reading of their ends, and components are found by another one. The check
makes the index of a thing whole, the search takes it as it is. The two agree on everything but
scalars that are cut to a node: these are accepted, and then they mention no node.

## Main definitions

* `Scalar.Cuts`: a scalar that lies in a graph is cut to one of its nodes.
* `Mention.Numeric`, `Mention.Uncut`: a mention is a number, if it is anything, and it is not cut to
  a node.
* `LinkEntry.Definite`: both ends of a link are such mentions.
* `LinkEntry.Attached`: both ends of a link lie in the graph, as the search reads them.

## Main statements

* `Check.links_eq_ok_iff`: which links are accepted.
* `Grouping.readings_agree`: accepted links are those with both ends in the graph, and they can be
  grouped and copied.
-/

namespace PackedDrawing

/-- A scalar that lies in a graph is cut to one of its nodes. -/
def Scalar.Cuts (α : Type) [Scalar α] : Prop :=
  ∀ (n : Nat) (r : α), (Value.real r).inside n = .ok true →
    ∃ i, Scalar.truncate r = .ok i ∧ InGraph n i

/-- A scalar in a graph is compared with the size of the graph exactly. -/
theorem Value.compareInt_of_inside {α : Type} [Scalar α] {n : Nat} {r : α}
    (h : (Value.real r).inside n = .ok true) :
    (Scalar.compareInt r 0 = some .gt ∨ Scalar.compareInt r 0 = some .eq) ∧
      Scalar.compareInt r n = some .lt := by
  have hboth : (Number.le (.int 0) (.real r) && Number.lt (.real r) (.int n)) = true :=
    Except.ok.inj h
  rw [Bool.and_eq_true, Number.le, Bool.or_eq_true] at hboth
  obtain ⟨hlow, hhigh⟩ := hboth
  exact ⟨hlow.imp beq_iff_eq.mp beq_iff_eq.mp, beq_iff_eq.mp hhigh⟩

/-- A value that mentions a position lies in a graph when the position does. -/
theorem Value.inside_iff {α : Type} [Scalar α] {n : Nat} {v : Value α} {i : Int}
    (h : v.position = .ok i) : v.inside n = .ok true ↔ InGraph n i := by
  obtain ⟨handle, hv, rfl⟩ := position_eq_ok_iff.mp h
  rw [inside_of_handle? hv, Except.ok.injEq, decide_eq_true_iff]

namespace Double

theorem fraction_pos (negative : Bool) (m : Nat) (q : Int) : 0 < (fraction negative m q).2 :=
  Int.natCast_pos.mpr (Nat.two_pow_pos _)

/-- Doubles are cut toward zero, so one between two nodes is cut to the first of them. -/
theorem cuts : Scalar.Cuts Float := by
  intro n r h
  obtain ⟨hlow, hhigh⟩ := Value.compareInt_of_inside h
  change compareInt r 0 = some .gt ∨ compareInt r 0 = some .eq at hlow
  change compareInt r n = some .lt at hhigh
  change ∃ i, truncate r = .ok i ∧ InGraph n i
  unfold compareInt at hlow hhigh
  unfold truncate
  cases hdatum : Binary64.Datum.ofFloat r with
  | undefined => simp [hdatum] at hhigh
  | infinite negative =>
      rw [hdatum] at hlow hhigh
      cases negative <;> simp at hlow hhigh
  | finite negative m q =>
      rw [hdatum] at hlow hhigh
      simp only [Option.some.injEq, zero_mul, compare_gt_iff_gt, compare_eq_iff_eq,
        compare_lt_iff_lt] at hlow hhigh
      have hpos := fraction_pos negative m q
      refine ⟨_, rfl, ?_⟩
      generalize fraction negative m q = f at *
      have hnonneg : 0 ≤ f.1 := by omega
      refine ⟨Int.tdiv_nonneg hnonneg hpos.le, ?_⟩
      rw [Int.tdiv_eq_ediv_of_nonneg hnonneg]
      exact Int.ediv_lt_of_lt_mul hpos hhigh

end Double

namespace Mention

variable {α : Type} [Scalar α] {n : Nat} {m : Mention α}

/-- A mention is a position or the number that a thing carries, or there is none. -/
def Numeric : Mention α → Prop
  | whole _ | unset | bare => True
  | index v => ∃ x, v.number = .ok x
  | foreign => False

/-- The scalar that a thing carries is not cut to a node. -/
def Uncut (n : Nat) : Mention α → Prop
  | index (.real r) => ∀ i, Scalar.truncate r = .ok i → ¬ InGraph n i
  | _ => True

/-- A mention of a position that is a truth value mentions zero or one. -/
def Sound : Mention α → Prop
  | whole h => h.Sound
  | _ => True

/-- Where the check finds a node, the search finds the same. -/
theorem position_of_checked (hsound : m.Sound) (hnumeric : m.Numeric) (huncut : m.Uncut n)
    {h : Handle} (hc : m.checked = .ok (some h)) (hin : InGraph n h.position) :
    m.located.position = .ok h.position := by
  cases m with
  | whole h' =>
      obtain rfl := Option.some.inj (Except.ok.inj hc)
      exact Value.position_ofHandle hsound
  | unset | bare => cases hc
  | foreign => cases hnumeric
  | index v =>
      cases v with
      | int k =>
          obtain rfl := Option.some.inj (Except.ok.inj hc)
          rfl
      | bool b =>
          obtain rfl := Option.some.inj (Except.ok.inj hc)
          rfl
      | real r =>
          obtain ⟨i, hi, hc⟩ := bind_eq_ok.mp hc
          obtain rfl := Option.some.inj (Except.ok.inj hc)
          exact absurd hin (huncut i hi)
      | null | text | list | table | thing =>
          obtain ⟨x, hx⟩ := hnumeric
          cases hx

/-- What the search finds in the graph, the check finds there too. -/
theorem exists_checked_of_inside (hcuts : Scalar.Cuts α) (hsound : m.Sound) (hnumeric : m.Numeric)
    (huncut : m.Uncut n) (hin : m.located.inside n = .ok true) :
    ∃ h, m.checked = .ok (some h) ∧ InGraph n h.position := by
  cases m with
  | whole h => exact ⟨h, rfl, (Value.inside_iff (Value.position_ofHandle hsound)).mp hin⟩
  | unset | bare =>
      have hgraph : InGraph n (-1) := (Value.inside_iff (v := Value.int (α := α) (-1)) rfl).mp hin
      exact absurd hgraph.1 (by decide)
  | foreign => cases hnumeric
  | index v =>
      cases v with
      | int k => exact ⟨_, rfl, (Value.inside_iff (v := .int k) rfl).mp hin⟩
      | bool b => exact ⟨_, rfl, (Value.inside_iff (v := .bool b) rfl).mp hin⟩
      | real r =>
          obtain ⟨i, hi, hgraph⟩ := hcuts n r hin
          exact absurd hgraph (huncut i hi)
      | null | text | list | table | thing =>
          obtain ⟨x, hx⟩ := hnumeric
          cases hx

end Mention

/-- An end of a link never mentions a truth value other than zero or one. -/
theorem Endpoint.sound_mention {α : Type} (nodes : List (Node α)) (e : Endpoint α) :
    (e.mention nodes).Sound := by
  have hindex : ∀ v : Value α, (Mention.ofIndex v).Sound := by
    intro v
    cases v <;> exact trivial
  cases e with
  | member k =>
      rw [mention]
      cases nodes[k]? with
      | none => exact trivial
      | some node => exact hindex node.index
  | guest name node => exact hindex node.index
  | value v =>
      cases v with
      | int i => exact Value.sound_of_handle? (v := Value.int (α := α) i) rfl
      | bool b => exact Value.sound_of_handle? (v := Value.bool (α := α) b) rfl
      | thing index =>
          cases index with
          | none => exact trivial
          | some v => exact hindex v
      | real | null | text | list | table => exact trivial

namespace Check

variable {α : Type} [Scalar α] {nodes : List (Node α)} {count : Int}

/-- A link with both ends in the graph gives no cause for complaint. -/
theorem issuesOf_eq_nil {position : Nat} {l : LinkEntry α}
    (h : ∀ side, ∃ s, mentioned nodes side l = .ok (some s) ∧ 0 ≤ s.position ∧
      s.position < count) : issuesOf nodes count position l = .ok [] := by
  obtain ⟨s, hs, hslow, hshigh⟩ := h .source
  obtain ⟨t, ht, htlow, hthigh⟩ := h .target
  have hsource : endProblem count (some s) = none := if_neg (by omega)
  have htarget : endProblem count (some t) = none := if_neg (by omega)
  rw [issuesOf, hs, ht, ok_bind, ok_bind]
  simp only [hsource, htarget]
  rfl

theorem linkIssuesFrom_eq_nil {position : Nat} {ls : List (LinkEntry α)}
    (h : ∀ l ∈ ls, ∀ side, ∃ s, mentioned nodes side l = .ok (some s) ∧ 0 ≤ s.position ∧
      s.position < count) : linkIssuesFrom nodes count position ls = .ok [] := by
  induction ls generalizing position with
  | nil => rfl
  | cons l rest ih =>
      rw [linkIssuesFrom, issuesOf_eq_nil (h l List.mem_cons_self),
        ih fun l' hl' => h l' (List.mem_cons_of_mem l hl')]
      rfl

theorem links_eq_ok_iff_issues {ls : List (LinkEntry α)} :
    links nodes count ls = .ok () ↔ linkIssues nodes count ls = .ok [] := by
  rw [links, bind_eq_ok]
  constructor
  · rintro ⟨issues, hissues, h⟩
    cases issues with
    | nil => exact hissues
    | cons issue rest => cases h
  · exact fun h => ⟨[], h, rfl⟩

/-- The links that are accepted are those with both ends in the graph, as the check reads them. -/
theorem links_eq_ok_iff {ls : List (LinkEntry α)} :
    links nodes count ls = .ok () ↔ ∀ l ∈ ls, ∀ side, ∃ s,
      mentioned nodes side l = .ok (some s) ∧ 0 ≤ s.position ∧ s.position < count :=
  links_eq_ok_iff_issues.trans ⟨inside_of_linkIssuesFrom, linkIssuesFrom_eq_nil⟩

end Check

namespace LinkEntry

variable {α : Type} [Scalar α]

/-- The two readings of an end that an entry holds. -/
theorem readings_of_endpoint? (nodes : List (Node α)) {side : LinkEnd} {l : LinkEntry α}
    {e : Endpoint α} (h : l.endpoint? side = some e) :
    Check.mentioned nodes side l = (e.mention nodes).checked ∧
      l.located nodes side = .ok (e.mention nodes).located := by
  constructor
  · rw [Check.mentioned, h]
  · unfold located
    rw [h]

/-- A link is definite when each of its ends mentions a number, if anything, and no scalar that is
cut to a node of the graph. -/
def Definite (nodes : List (Node α)) (n : Nat) (l : LinkEntry α) : Prop :=
  ∀ side, ∃ e, l.endpoint? side = some e ∧ (e.mention nodes).Numeric ∧ (e.mention nodes).Uncut n

/-- A link is attached when the search for components finds both ends in the graph. -/
def Attached (nodes : List (Node α)) (n : Nat) (l : LinkEntry α) : Prop :=
  ∀ side, ∃ v, l.located nodes side = .ok v ∧ v.inside n = .ok true

variable {nodes : List (Node α)} {n : Nat} {l : LinkEntry α}

/-- Where the check finds a node at an end, the search finds the same. -/
theorem Definite.located_of_mentioned (hl : l.Definite nodes n) {side : LinkEnd} {h : Handle}
    (hc : Check.mentioned nodes side l = .ok (some h)) (hin : InGraph n h.position) :
    ∃ v, l.located nodes side = .ok v ∧ v.position = .ok h.position := by
  obtain ⟨e, he, hnumeric, huncut⟩ := hl side
  obtain ⟨hmentioned, hlocated⟩ := readings_of_endpoint? nodes he
  rw [hmentioned] at hc
  exact ⟨_, hlocated, Mention.position_of_checked (e.sound_mention nodes) hnumeric huncut hc hin⟩

/-- Where the search finds a node at an end, the check finds one there too. -/
theorem Definite.mentioned_of_located (hcuts : Scalar.Cuts α) (hl : l.Definite nodes n)
    {side : LinkEnd} {v : Value α} (hv : l.located nodes side = .ok v)
    (hin : v.inside n = .ok true) :
    ∃ h, Check.mentioned nodes side l = .ok (some h) ∧ InGraph n h.position := by
  obtain ⟨e, he, hnumeric, huncut⟩ := hl side
  obtain ⟨hmentioned, hlocated⟩ := readings_of_endpoint? nodes he
  obtain rfl := Except.ok.inj (hlocated.symm.trans hv)
  rw [hmentioned]
  exact Mention.exists_checked_of_inside hcuts (e.sound_mention nodes) hnumeric huncut hin

end LinkEntry

namespace Check

variable {α : Type} [Scalar α] {nodes : List (Node α)} {n : Nat} {ls : List (LinkEntry α)}

/-- Definite links are accepted when the search for components finds both of their ends. -/
theorem links_eq_ok_iff_attached (hcuts : Scalar.Cuts α) (hends : ∀ l ∈ ls, l.Definite nodes n) :
    links nodes n ls = .ok () ↔ ∀ l ∈ ls, l.Attached nodes n := by
  rw [links_eq_ok_iff]
  constructor
  · intro h l hl side
    obtain ⟨s, hc, hin⟩ := h l hl side
    obtain ⟨v, hv, hposition⟩ := (hends l hl).located_of_mentioned hc hin
    exact ⟨v, hv, (Value.inside_iff hposition).mpr hin⟩
  · intro h l hl side
    obtain ⟨v, hv, hin⟩ := h l hl side
    exact (hends l hl).mentioned_of_located hcuts hv hin

/-- Accepted links lead from node to node, as the search for components reads them. -/
theorem located_of_links (hends : ∀ l ∈ ls, l.Definite nodes n)
    (hlinks : links nodes n ls = .ok ()) :
    ∀ l ∈ ls, ∀ side, ∃ h v, mentioned nodes side l = .ok (some h) ∧ InGraph n h.position ∧
      l.located nodes side = .ok v ∧ v.position = .ok h.position := by
  intro l hl side
  obtain ⟨h, hc, hin⟩ := links_eq_ok_iff.mp hlinks l hl side
  obtain ⟨v, hv, hposition⟩ := (hends l hl).located_of_mentioned hc hin
  exact ⟨h, v, hc, hin, hv, hposition⟩

theorem leads_of_links (hends : ∀ l ∈ ls, l.Definite nodes n) (hlinks : links nodes n ls = .ok ()) :
    ∀ e ∈ ls.map (LinkEntry.ends nodes), ∃ i j, e.Leads i j := by
  intro e he
  obtain ⟨l, hl, rfl⟩ := List.mem_map.mp he
  obtain ⟨s, v, _, _, hv, hs⟩ := located_of_links hends hlinks l hl .source
  obtain ⟨t, w, _, _, hw, ht⟩ := located_of_links hends hlinks l hl .target
  exact ⟨s.position, t.position, v, w, hv, hw, hs, ht⟩

end Check

namespace Drawing

variable {α : Type} [Scalar α] {d : Drawing α}

/-- All links of a drawing are definite. -/
def Definite (d : Drawing α) : Prop :=
  ∀ l ∈ d.links, (LinkEntry.ready l).Definite d.nodes d.nodes.length

/-- All links of a drawing are attached. -/
def Attached (d : Drawing α) : Prop :=
  ∀ l ∈ d.links, (LinkEntry.ready l).Attached d.nodes d.nodes.length

theorem validate_eq (d : Drawing α) :
    d.validate = Check.links d.nodes d.nodes.length (d.links.map .ready) := by
  rw [validate]
  cases d.links with
  | nil => rfl
  | cons l rest => rfl

/-- A drawing with definite links is valid when all of them are attached. -/
theorem validate_eq_ok_iff (hcuts : Scalar.Cuts α) (hends : d.Definite) :
    d.validate = .ok () ↔ d.Attached := by
  rw [validate_eq, Check.links_eq_ok_iff_attached hcuts (List.forall_mem_map.mpr hends)]
  exact List.forall_mem_map

/-- The definite links of a valid drawing lead from node to node. -/
theorem wholeEnds_of_validate (hends : d.Definite) (hvalid : d.validate = .ok ()) :
    d.WholeEnds := by
  rw [validate_eq] at hvalid
  have hleads := Check.leads_of_links (List.forall_mem_map.mpr hends) hvalid
  rwa [List.map_map] at hleads

end Drawing

namespace Grouping

variable {α : Type} [Scalar α]

/-- Where the ends of links are numbers, and none of them is a scalar that is cut to a node, the
check and the search for components agree: the accepted links are those whose ends the search finds
in the graph, both read the same positions, and the graph can be grouped and its components
copied. -/
theorem readings_agree (hcuts : Scalar.Cuts α) (nodes : List (Node α)) (n : Nat)
    (links : List (LinkEntry α)) (hends : ∀ l ∈ links, l.Definite nodes n) :
    (Check.links nodes n links = .ok () ↔ ∀ l ∈ links, l.Attached nodes n) ∧
    (Check.links nodes n links = .ok () →
      (∀ l ∈ links, ∀ side, ∃ h v, Check.mentioned nodes side l = .ok (some h) ∧
        l.located nodes side = .ok v ∧ v.position = .ok h.position) ∧
      ∃ g, Grouping.of n (links.map (LinkEntry.ends nodes)) = .ok g ∧
        ∀ ready : List (Link α), links = ready.map .ready → n = nodes.length →
          ∀ part ∈ g.nodes.zip g.links, ∀ flags, ∃ copy,
            Copy.of { nodes, links := ready } (Mosaic.nodeValues part.1) (Mosaic.linkValues part.2)
              flags = .ok copy) := by
  refine ⟨Check.links_eq_ok_iff_attached hcuts hends, fun hlinks => ⟨fun l hl side => ?_, ?_⟩⟩
  · obtain ⟨h, v, hc, _, hv, hposition⟩ := Check.located_of_links hends hlinks l hl side
    exact ⟨h, v, hc, hv, hposition⟩
  · obtain ⟨g, hg⟩ := exists_of (n := n) (Check.leads_of_links hends hlinks)
    refine ⟨g, hg, ?_⟩
    rintro ready rfl rfl part hpart flags
    let d : Drawing α := { nodes, links := ready }
    have hvalid : d.validate = .ok () := d.validate_eq.trans hlinks
    have hwhole := Drawing.wholeEnds_of_validate (List.forall_mem_map.mp hends) hvalid
    rw [List.map_map] at hg
    obtain ⟨copy, hcopy, _⟩ :=
      Copy.exists_of (Copy.closed_of_shares hvalid hwhole (shares_of hg) hpart) flags
    exact ⟨copy, hcopy⟩

/-- A link to a member, and a table with a thing that carries an index and a truth value. -/
def mixedEntries : List (LinkEntry Float) :=
  (Drawing.mixedEnds.links.take 1).map .ready ++
    [.table { source := some (.value (.thing (some (.int 1))))
              target := some (.value (.bool true)) }]

theorem readings_agree_mixedEntries :
    Scalar.Cuts Float ∧ (∀ l ∈ mixedEntries, l.Definite Drawing.mixedEnds.nodes 3) ∧
      Check.links Drawing.mixedEnds.nodes 3 mixedEntries = .ok () ∧
      (∀ l ∈ mixedEntries, l.Attached Drawing.mixedEnds.nodes 3) ∧
      ∃ g, Grouping.of 3 (mixedEntries.map (LinkEntry.ends Drawing.mixedEnds.nodes)) = .ok g := by
  have hends : ∀ l ∈ mixedEntries, l.Definite Drawing.mixedEnds.nodes 3 := by
    intro l hl side
    simp only [mixedEntries, Drawing.mixedEnds, List.map_cons, List.map_nil, List.take_succ_cons,
      List.take_zero, List.cons_append, List.nil_append, List.mem_cons, List.not_mem_nil,
      or_false] at hl
    rcases hl with rfl | rfl <;> cases side
    · exact ⟨_, rfl, trivial, trivial⟩
    · exact ⟨_, rfl, ⟨_, rfl⟩, trivial⟩
    · exact ⟨_, rfl, ⟨_, rfl⟩, trivial⟩
    · exact ⟨_, rfl, trivial, trivial⟩
  have hlinks : Check.links Drawing.mixedEnds.nodes 3 mixedEntries = .ok () := rfl
  obtain ⟨hiff, hagree⟩ :=
    readings_agree Double.cuts Drawing.mixedEnds.nodes 3 mixedEntries hends
  obtain ⟨_, g, hg, _⟩ := hagree hlinks
  exact ⟨Double.cuts, hends, hlinks, hiff.mp hlinks, g, hg⟩

/-- A link to a thing whose index is a scalar is accepted, and then it cannot be followed. -/
theorem accepted_and_not_followed :
    let nodes : List (Node Float) := Drawing.mixedEnds.nodes.take 2
    let link : Link Float :=
      { source := .value (.int 0), target := .value (.thing (some (.real 1.0))), length := .null
        weight := .null, bends := [], extras := [] }
    Check.links nodes 2 [.ready link] = .ok () ∧
      Grouping.of 2 [(LinkEntry.ready link).ends nodes] = .error .typeMismatch :=
  ⟨rfl, rfl⟩

end Grouping

end PackedDrawing
