import Mathlib.Data.List.Forall2
import PackedDrawing.Graph.Drawing

/-!
# Nodes that arrive at a drawing

When the nodes of a drawing are replaced, entries are taken in one after another up to the first
that cannot be. The links stay the links that they were: only what tells which node is meant
changes, and it does so for all ends of links alike.

## Main definitions

* `InTurn`, `Taken`: what is left of the entries of an assigned value, and how the assignment ends.
* `Endpoint.Follows`, `Link.Follows`: the same end and the same link, before and after.
* `Relocated`: the links of a drawing are those of another one.

## Main statements

* `takeIn_eq_iff`: taking in does what `Taken` says.
* `Drawing.relocated_among`: when nodes arrive, the links stay the same.
* `Drawing.among_ownNodes`: a drawing whose own nodes arrive in place is left as it is.
-/

namespace PackedDrawing

section Taking

variable {β γ : Type} {f : Nat → β → Except Fault γ}

/-- Entries, counted from a position on, can be taken in one after another. -/
inductive InTurn (f : Nat → β → Except Fault γ) : Nat → List β → List γ → Prop
  | nil (i : Nat) : InTurn f i [] []
  | cons {i : Nat} {x : β} {y : γ} {xs : List β} {ys : List γ} (h : f i x = .ok y)
      (rest : InTurn f (i + 1) xs ys) : InTurn f i (x :: xs) (y :: ys)

/-- What is left of the entries of a value, and how taking them in ends: all of them if each can be
taken in; those in front of the first one that cannot, and its fault; nothing if the value has no
entries. -/
inductive Taken (f : Nat → β → Except Fault γ) :
    Option (List β) → Except Fault Unit → List γ → Prop
  | all {entries : List β} {ys : List γ} (h : InTurn f 0 entries ys) :
      Taken f (some entries) (.ok ()) ys
  | front {before : List β} {x : β} {after : List β} {ys : List γ} {e : Fault}
      (h : InTurn f 0 before ys) (hx : f before.length x = .error e) :
      Taken f (some (before ++ x :: after)) (.error e) ys
  | none : Taken f none (.error .typeMismatch) []

theorem InTurn.takeIn_eq {i : Nat} {xs : List β} {ys : List γ} (h : InTurn f i xs ys) :
    takeIn f i xs = (ys, none) := by
  induction h with
  | nil i => rfl
  | cons h rest ih => rw [takeIn, h, ih]

theorem InTurn.takeIn_append {i : Nat} {before : List β} {x : β} {ys : List γ} {e : Fault}
    (h : InTurn f i before ys) (hx : f (i + before.length) x = .error e) (after : List β) :
    takeIn f i (before ++ x :: after) = (ys, some e) := by
  induction h with
  | nil i =>
      have hhere : f i x = .error e := hx
      rw [List.nil_append, takeIn, hhere]
  | @cons i z y xs ys h rest ih =>
      have hshift : i + 1 + xs.length = i + (z :: xs).length := by
        rw [List.length_cons]
        omega
      rw [← hshift] at hx
      rw [List.cons_append, takeIn, h, ih hx]

theorem InTurn.length_eq {i : Nat} {xs : List β} {ys : List γ} (h : InTurn f i xs ys) :
    ys.length = xs.length := by
  induction h with
  | nil i => rfl
  | cons _ _ ih => rw [List.length_cons, List.length_cons, ih]

/-- Each entry in turn is taken in at its place. -/
theorem InTurn.exists_getElem? {i : Nat} {xs : List β} {ys : List γ} (h : InTurn f i xs ys)
    {j : Nat} {x : β} (hx : xs[j]? = some x) : ∃ y, ys[j]? = some y ∧ f (i + j) x = .ok y := by
  induction h generalizing j with
  | nil i => cases hx
  | @cons i z y xs ys hz rest ih =>
      cases j with
      | zero =>
          obtain rfl := Option.some.inj hx
          exact ⟨y, rfl, hz⟩
      | succ j =>
          obtain ⟨y', hy', hfy⟩ := ih hx
          rw [Nat.succ_add_eq_add_succ] at hfy
          exact ⟨y', hy', hfy⟩

/-- What is left of the entries of a value has come of those in front. -/
theorem Taken.inTurn_take {entries : Option (List β)} {r : Except Fault Unit} {ys : List γ}
    (h : Taken f entries r ys) : InTurn f 0 ((entries.getD []).take ys.length) ys := by
  cases h with
  | all h =>
      rw [h.length_eq, Option.getD_some, List.take_length]
      exact h
  | front h _ =>
      rw [h.length_eq, Option.getD_some, List.take_left]
      exact h
  | none => exact .nil 0

/-- Either all entries can be taken in, or there is a first one that cannot. -/
theorem inTurn_or_exists_first (f : Nat → β → Except Fault γ) (i : Nat) (entries : List β) :
    (∃ ys, InTurn f i entries ys) ∨ ∃ before x after ys e, entries = before ++ x :: after ∧
      InTurn f i before ys ∧ f (i + before.length) x = .error e := by
  induction entries generalizing i with
  | nil => exact Or.inl ⟨[], .nil i⟩
  | cons x rest ih =>
      cases hx : f i x with
      | error e => exact Or.inr ⟨[], x, rest, [], e, rfl, .nil i, hx⟩
      | ok y =>
          rcases ih (i + 1) with ⟨ys, hys⟩ | ⟨before, z, after, ys, e, rfl, hys, hz⟩
          · exact Or.inl ⟨y :: ys, .cons hx hys⟩
          · have hshift : i + (x :: before).length = i + 1 + before.length := by
              rw [List.length_cons]
              omega
            exact Or.inr ⟨x :: before, z, after, y :: ys, e, rfl, .cons hx hys, hshift ▸ hz⟩

/-- How taking in ends, as the outcome of a step. -/
def outcome : Option Fault → Except Fault Unit
  | some e => .error e
  | none => .ok ()

theorem exists_outcome (r : Except Fault Unit) : ∃ e?, outcome e? = r := by
  cases r with
  | error e => exact ⟨some e, rfl⟩
  | ok _ => exact ⟨none, rfl⟩

/-- Taking in does what `Taken` says, and nothing else. -/
theorem takeIn_eq_iff {entries : List β} {ys : List γ} {e? : Option Fault} :
    takeIn f 0 entries = (ys, e?) ↔ Taken f (some entries) (outcome e?) ys := by
  constructor
  · intro h
    rcases inTurn_or_exists_first f 0 entries with ⟨zs, hzs⟩ | ⟨before, x, after, zs, e, heq, hzs,
      hx⟩
    · obtain ⟨rfl, rfl⟩ := Prod.mk.inj (hzs.takeIn_eq.symm.trans h)
      exact .all hzs
    · rw [heq] at h ⊢
      obtain ⟨rfl, rfl⟩ := Prod.mk.inj ((hzs.takeIn_append hx after).symm.trans h)
      rw [Nat.zero_add] at hx
      exact .front hzs hx
  · intro h
    generalize hr : outcome e? = r at h
    cases h with
    | all h =>
        cases e? with
        | none => exact h.takeIn_eq
        | some e => cases hr
    | front h hx =>
        cases e? with
        | none => cases hr
        | some e =>
            obtain rfl := Except.error.inj hr
            exact h.takeIn_append (by rwa [Nat.zero_add]) _

/-- What is left of the entries of a value is determined. -/
theorem Taken.unique {entries : Option (List β)} {r r' : Except Fault Unit} {ys zs : List γ}
    (h : Taken f entries r ys) (h' : Taken f entries r' zs) : ys = zs := by
  cases entries with
  | none =>
      cases h
      cases h'
      rfl
  | some entries =>
      obtain ⟨e?, rfl⟩ := exists_outcome r
      obtain ⟨e?', rfl⟩ := exists_outcome r'
      exact (Prod.mk.inj ((takeIn_eq_iff.mpr h).symm.trans (takeIn_eq_iff.mpr h'))).1

end Taking

section Ends

variable {α : Type} {e : Endpoint α} {n : Node α} {name : Nat}

namespace Endpoint

theorem guest?_eq_some_iff : e.guest? name = some n ↔ e = .guest name n := by
  cases e with
  | value v => simp [guest?]
  | member k => simp [guest?]
  | guest other m =>
      rw [guest?]
      split
      · rename_i h
        rw [h, Option.some.injEq, Endpoint.guest.injEq]
        exact ⟨fun h => ⟨rfl, h⟩, fun h => h.2⟩
      · rename_i h
        simp [h]

@[simp] theorem ref?_ofRef (n : Node α) (who : NodeRef) : (ofRef n who).ref? = some who := by
  cases who <;> rfl

theorem guest?_ofRef (n : Node α) (who : NodeRef) (name : Nat) :
    (ofRef n who).guest? name = if who = .guest name then some n else none := by
  cases who with
  | own k => simp [ofRef, guest?]
  | guest other => simp [ofRef, guest?]

end Endpoint

/-- An end of a link is the same in two drawings, where `f` tells which node of the first one is
which of the second. -/
inductive Endpoint.Follows (d d' : Drawing α) (f : NodeRef → NodeRef) :
    Endpoint α → Endpoint α → Prop
  /-- A value is the same value. -/
  | value (v : Value α) : Follows d d' f (.value v) (.value v)
  /-- A node is the same node, with all its attributes. -/
  | node {e e' : Endpoint α} {who : NodeRef} {n : Node α} (before : e.ref? = some who)
      (known : d.node? who = some n) (after : e'.ref? = some (f who))
      (kept : d'.node? (f who) = some n) : Follows d d' f e e'
  /-- What was no node is none. -/
  | lost {k : Nat} (h : d.nodes[k]? = none) : Follows d d' f (.member k) (.value (.thing none))

/-- A link is the same in two drawings. -/
structure Link.Follows (d d' : Drawing α) (f : NodeRef → NodeRef) (l l' : Link α) : Prop where
  source : Endpoint.Follows d d' f l.source l'.source
  target : Endpoint.Follows d d' f l.target l'.target
  length : l'.length = l.length
  weight : l'.weight = l.weight
  bends : l'.bends = l.bends
  extras : l'.extras = l.extras

/-- The links of a drawing are those of another one, where `f` tells which node of the first one is
which of the second: different nodes stay different, those that arrive are where they arrive, and
all others are guests. -/
structure Relocated (d d' : Drawing α) (arrivals : List (Arrival α)) (f : NodeRef → NodeRef) :
    Prop where
  links : List.Forall₂ (Link.Follows d d' f) d.links d'.links
  apart : ∀ who who' n n', d.node? who = some n → d.node? who' = some n' → f who = f who' →
    who = who'
  arrived : ∀ who, .known who ∈ arrivals → ∃ j, arrivals[j]? = some (.known who) ∧ f who = .own j
  guests : ∀ who, .known who ∉ arrivals → ∃ name, f who = .guest name

end Ends

namespace Arrival

variable {α : Type} {a : Arrival α} {who : NodeRef}

theorem is_iff : a.is who = true ↔ a = .known who := by
  cases a with
  | entry e => simp [is]
  | known other => simp [is]

end Arrival

namespace Drawing

variable {α : Type} {d : Drawing α} {arrivals : List (Arrival α)} {who who' : NodeRef}
  {n n' : Node α}

theorem nameBound_le_freshName {e : Endpoint α} (h : e ∈ d.endpoints) :
    e.nameBound ≤ d.freshName := by
  rw [freshName]
  generalize d.endpoints = es at h
  induction es with
  | nil => cases h
  | cons e' es ih =>
      rw [List.foldr_cons]
      rcases List.mem_cons.mp h with rfl | h
      · exact Nat.le_max_left _ _
      · exact Nat.le_trans (ih h) (Nat.le_max_right _ _)

/-- The names of known guests are in use. -/
theorem lt_freshName {name : Nat} (h : d.node? (.guest name) = some n) : name < d.freshName := by
  obtain ⟨e, he, hguest⟩ := List.exists_of_findSome?_eq_some h
  rw [Endpoint.guest?_eq_some_iff] at hguest
  subst hguest
  exact nameBound_le_freshName he

/-- A node at an end of a link is known. -/
theorem exists_node? {e : Endpoint α} (he : e ∈ d.endpoints) {name : Nat}
    (h : e = .guest name n) : ∃ m, d.node? (.guest name) = some m := by
  rw [← Option.isSome_iff_exists, node?, List.findSome?_isSome_iff]
  exact ⟨e, he, by rw [Endpoint.guest?_eq_some_iff.mpr h]; rfl⟩

section Whereabouts

theorem whereabouts_of_some {j : Nat} (h : arrivals.findIdx? (Arrival.is who) = some j) :
    d.whereabouts arrivals who = .own j := by
  rw [whereabouts, h]

theorem whereabouts_of_none (h : arrivals.findIdx? (Arrival.is who) = none) :
    d.whereabouts arrivals who = d.departed who := by
  rw [whereabouts, h]

theorem getElem?_of_findIdx? {j : Nat} (h : arrivals.findIdx? (Arrival.is who) = some j) :
    arrivals[j]? = some (.known who) := by
  obtain ⟨hj, his, _⟩ := List.findIdx?_eq_some_iff_getElem.mp h
  rw [List.getElem?_eq_getElem hj, Arrival.is_iff.mp his]

theorem findIdx?_eq_none_iff :
    arrivals.findIdx? (Arrival.is who) = none ↔ .known who ∉ arrivals := by
  rw [List.findIdx?_eq_none_iff]
  constructor
  · intro h hmem
    have hself := h _ hmem
    rw [Arrival.is_iff.mpr rfl] at hself
    cases hself
  · intro h a ha
    rw [Bool.eq_false_iff]
    exact fun his => h (Arrival.is_iff.mp his ▸ ha)

theorem exists_departed (d : Drawing α) (who : NodeRef) : ∃ name, d.departed who = .guest name := by
  cases who with
  | own k => exact ⟨_, rfl⟩
  | guest name => exact ⟨name, rfl⟩

/-- A node gets a name of its own when it leaves. -/
theorem departed_inj (h : d.node? who = some n) (h' : d.node? who' = some n')
    (heq : d.departed who = d.departed who') : who = who' := by
  cases who with
  | own k =>
      cases who' with
      | own k' =>
          have hk := NodeRef.guest.inj heq
          rw [Nat.add_left_cancel hk]
      | guest name' =>
          have hname := NodeRef.guest.inj heq
          have hlt := lt_freshName h'
          omega
  | guest name =>
      cases who' with
      | own k' =>
          have hname := NodeRef.guest.inj heq
          have hlt := lt_freshName h
          omega
      | guest name' => exact heq

/-- Different nodes stay different. -/
theorem whereabouts_inj (h : d.node? who = some n) (h' : d.node? who' = some n')
    (heq : d.whereabouts arrivals who = d.whereabouts arrivals who') : who = who' := by
  cases hfind : arrivals.findIdx? (Arrival.is who) with
  | some j =>
      rw [whereabouts_of_some hfind] at heq
      cases hfind' : arrivals.findIdx? (Arrival.is who') with
      | some j' =>
          rw [whereabouts_of_some hfind', NodeRef.own.injEq] at heq
          subst heq
          have hsame := (getElem?_of_findIdx? hfind).symm.trans (getElem?_of_findIdx? hfind')
          exact Arrival.known.inj (Option.some.inj hsame)
      | none =>
          obtain ⟨name, hname⟩ := d.exists_departed who'
          rw [whereabouts_of_none hfind', hname] at heq
          cases heq
  | none =>
      rw [whereabouts_of_none hfind] at heq
      cases hfind' : arrivals.findIdx? (Arrival.is who') with
      | some j' =>
          obtain ⟨name, hname⟩ := d.exists_departed who
          rw [whereabouts_of_some hfind', hname] at heq
          cases heq
      | none =>
          rw [whereabouts_of_none hfind'] at heq
          exact departed_inj h h' heq

end Whereabouts

section Among

variable {nodes : List (Node α)}

theorem endpoints_among : (d.among nodes arrivals).endpoints =
    d.endpoints.map (Endpoint.follow d.nodes (d.whereabouts arrivals)) := by
  rw [endpoints, endpoints, among, List.flatMap_map, List.map_flatMap]
  rfl

/-- The guest that a node has become is at those ends where the node was. -/
theorem guest?_follow {e : Endpoint α} (he : e ∈ d.endpoints) (hn : d.node? who = some n)
    {name : Nat} (hname : d.whereabouts arrivals who = .guest name) :
    (e.follow d.nodes (d.whereabouts arrivals)).guest? name =
      if e.ref? = some who then e.held? d.nodes else none := by
  have hiff : ∀ {w m}, d.node? w = some m → (d.whereabouts arrivals w = .guest name ↔ w = who) := by
    intro w m hw
    constructor
    · exact fun h => whereabouts_inj hw hn (h.trans hname.symm)
    · rintro rfl
      exact hname
  cases e with
  | value v => rfl
  | member k =>
      cases hk : d.nodes[k]? with
      | none => simp [Endpoint.follow, Endpoint.ref?, Endpoint.held?, Endpoint.guest?, hk]
      | some m =>
          have hknown : d.node? (.own k) = some m := hk
          simp [Endpoint.follow, Endpoint.ref?, Endpoint.held?, Endpoint.guest?_ofRef, hk,
            hiff hknown]
  | guest other m =>
      obtain ⟨m', hknown⟩ := exists_node? he rfl
      simp [Endpoint.follow, Endpoint.ref?, Endpoint.held?, Endpoint.guest?_ofRef, hiff hknown]

/-- The node at an end of a link is found at the ends. -/
theorem findSome?_held? {e : Endpoint α} (he : e ∈ d.endpoints) (hwho : e.ref? = some who)
    (hn : d.node? who = some n) :
    d.endpoints.findSome? (fun e => if e.ref? = some who then e.held? d.nodes else none) =
      some n := by
  cases who with
  | guest name =>
      rw [← hn, node?]
      congr 1
      funext e'
      cases e' <;> simp [Endpoint.ref?, Endpoint.held?, Endpoint.guest?]
  | own k =>
      have hmember : ∀ {e' : Endpoint α}, e'.ref? = some (.own k) → e'.held? d.nodes = some n := by
        intro e' href
        cases e' with
        | member k' =>
            obtain rfl := NodeRef.own.inj (Option.some.inj href)
            exact hn
        | value v => cases href
        | guest name m => cases Option.some.inj href
      obtain ⟨m, hm⟩ := Option.isSome_iff_exists.mp
        (List.findSome?_isSome_iff (f := fun e' : Endpoint α =>
          if e'.ref? = some (.own k) then e'.held? d.nodes else none).mpr
          ⟨e, he, by rw [if_pos hwho, hmember hwho]; rfl⟩)
      obtain ⟨e', _, he'⟩ := List.exists_of_findSome?_eq_some hm
      by_cases href : e'.ref? = some (.own k)
      · rw [if_pos href, hmember href] at he'
        rw [hm, he']
      · rw [if_neg href] at he'
        cases he'

/-- A node at an end of a link that has become a guest is the same node. -/
theorem node?_of_guest {e : Endpoint α} (he : e ∈ d.endpoints) (hwho : e.ref? = some who)
    (hn : d.node? who = some n) {name : Nat} (hname : d.whereabouts arrivals who = .guest name) :
    (d.among nodes arrivals).node? (.guest name) = some n := by
  rw [node?, endpoints_among, List.findSome?_map, ← findSome?_held? he hwho hn,
    ← List.head?_filterMap, ← List.head?_filterMap]
  exact congrArg List.head? (List.filterMap_congr fun e' he' => guest?_follow he' hn hname)

variable [Scalar α]

/-- A known node that arrives is the same node. -/
theorem getElem?_of_arrival (h : InTurn (Arrival.toNode d) 0 arrivals nodes) {j : Nat}
    (hj : arrivals[j]? = some (.known who)) (hn : d.node? who = some n) : nodes[j]? = some n := by
  obtain ⟨m, hm, htaken⟩ := h.exists_getElem? hj
  rw [Arrival.toNode, hn] at htaken
  rw [hm, Except.ok.inj htaken]

/-- Wherever a node at an end of a link has come to be, it is the same node. -/
theorem node?_whereabouts (h : InTurn (Arrival.toNode d) 0 arrivals nodes) {e : Endpoint α}
    (he : e ∈ d.endpoints) (hwho : e.ref? = some who) (hn : d.node? who = some n) :
    (d.among nodes arrivals).node? (d.whereabouts arrivals who) = some n := by
  cases hfind : arrivals.findIdx? (Arrival.is who) with
  | some j =>
      rw [whereabouts_of_some hfind]
      exact getElem?_of_arrival h (getElem?_of_findIdx? hfind) hn
  | none =>
      obtain ⟨name, hname⟩ := d.exists_departed who
      rw [whereabouts_of_none hfind, hname]
      exact node?_of_guest he hwho hn ((whereabouts_of_none hfind).trans hname)

theorem follows_follow (h : InTurn (Arrival.toNode d) 0 arrivals nodes) {e : Endpoint α}
    (he : e ∈ d.endpoints) :
    Endpoint.Follows d (d.among nodes arrivals) (d.whereabouts arrivals) e
      (e.follow d.nodes (d.whereabouts arrivals)) := by
  cases e with
  | value v => exact .value v
  | member k =>
      cases hk : d.nodes[k]? with
      | none =>
          simp only [Endpoint.follow, Endpoint.ref?, Endpoint.held?, hk]
          exact .lost hk
      | some n =>
          simp only [Endpoint.follow, Endpoint.ref?, Endpoint.held?, hk]
          exact .node rfl hk (Endpoint.ref?_ofRef n _) (node?_whereabouts h he rfl hk)
  | guest name m =>
      obtain ⟨n, hn⟩ := exists_node? he rfl
      exact .node rfl hn (Endpoint.ref?_ofRef m _) (node?_whereabouts h he rfl hn)

/-- When nodes arrive, the links stay the same. -/
theorem relocated_among (h : InTurn (Arrival.toNode d) 0 arrivals nodes) :
    Relocated d (d.among nodes arrivals) arrivals (d.whereabouts arrivals) where
  links := by
    change List.Forall₂ _ _ (d.links.map (Link.follow d.nodes (d.whereabouts arrivals)))
    rw [List.forall₂_map_right_iff, List.forall₂_same]
    intro l hl
    have hsource : l.source ∈ d.endpoints := List.mem_flatMap.mpr ⟨l, hl, List.mem_cons_self⟩
    have htarget : l.target ∈ d.endpoints :=
      List.mem_flatMap.mpr ⟨l, hl, List.mem_cons_of_mem _ List.mem_cons_self⟩
    exact ⟨follows_follow h hsource, follows_follow h htarget, rfl, rfl, rfl, rfl⟩
  apart := fun _ _ _ _ => whereabouts_inj
  arrived := by
    intro who hwho
    cases hfind : arrivals.findIdx? (Arrival.is who) with
    | none => exact absurd hwho (findIdx?_eq_none_iff.mp hfind)
    | some j => exact ⟨j, getElem?_of_findIdx? hfind, whereabouts_of_some hfind⟩
  guests := by
    intro who hwho
    rw [whereabouts_of_none (findIdx?_eq_none_iff.mpr hwho)]
    exact d.exists_departed who

/-- Guests at the ends of a link become its members when they arrive. -/
example (a b : Node α) (l : Link α) :
    (receive [.known (.guest 4), .known (.guest 2)]
      ⟨[], [{ l with source := .guest 2 a, target := .guest 4 b }]⟩).1 =
        ⟨[b, a], [{ l with source := .member 1, target := .member 0 }]⟩ := rfl

end Among

section Own

/-- The nodes of a drawing as arrivals. -/
def ownNodes (d : Drawing α) : List (Arrival α) :=
  (List.range d.nodes.length).map fun k => .known (.own k)

/-- Members at which links end are there. -/
def Rooted (d : Drawing α) : Prop :=
  ∀ l ∈ d.links, ∀ k, l.source = .member k ∨ l.target = .member k → k < d.nodes.length

theorem getElem?_ownNodes {k : Nat} (hk : k < d.nodes.length) :
    d.ownNodes[k]? = some (.known (.own k)) := by
  rw [ownNodes, List.getElem?_map, List.getElem?_range hk]
  rfl

theorem whereabouts_ownNodes (hwho : ∀ k, who = .own k → k < d.nodes.length) :
    d.whereabouts d.ownNodes who = who := by
  cases hfind : d.ownNodes.findIdx? (Arrival.is who) with
  | some j =>
      have hj := getElem?_of_findIdx? hfind
      obtain ⟨hlt, _⟩ := List.getElem?_eq_some_iff.mp hj
      rw [ownNodes, List.length_map, List.length_range] at hlt
      rw [getElem?_ownNodes hlt] at hj
      rw [whereabouts_of_some hfind, Arrival.known.inj (Option.some.inj hj)]
  | none =>
      rw [whereabouts_of_none hfind]
      cases who with
      | guest name => rfl
      | own k =>
          have hmem := List.mem_of_getElem? (getElem?_ownNodes (hwho k rfl))
          exact absurd hmem (findIdx?_eq_none_iff.mp hfind)

/-- A drawing whose own nodes arrive in place is left as it is. -/
theorem among_ownNodes [Scalar α] (hrooted : d.Rooted) {nodes : List (Node α)}
    (h : InTurn (Arrival.toNode d) 0 d.ownNodes nodes) : d.among nodes d.ownNodes = d := by
  have hnodes : nodes = d.nodes := by
    apply List.ext_getElem?
    intro k
    by_cases hk : k < d.nodes.length
    · rw [List.getElem?_eq_getElem hk]
      exact getElem?_of_arrival h (getElem?_ownNodes hk) (List.getElem?_eq_getElem hk)
    · have hlength : nodes.length = d.nodes.length := by
        rw [h.length_eq, ownNodes, List.length_map, List.length_range]
      rw [List.getElem?_eq_none (by omega), List.getElem?_eq_none (by omega)]
  have hend : ∀ e : Endpoint α, (∀ k, e = .member k → k < d.nodes.length) →
      e.follow d.nodes (d.whereabouts d.ownNodes) = e := by
    intro e he
    cases e with
    | value v => rfl
    | member k =>
        have hk := he k rfl
        simp only [Endpoint.follow, Endpoint.ref?, Endpoint.held?, List.getElem?_eq_getElem hk]
        rw [whereabouts_ownNodes fun k' h => NodeRef.own.inj h ▸ hk]
        rfl
    | guest name n =>
        simp only [Endpoint.follow, Endpoint.ref?, Endpoint.held?]
        rw [whereabouts_ownNodes fun k' h => by cases h]
        rfl
  have hlinks : d.links.map (Link.follow d.nodes (d.whereabouts d.ownNodes)) = d.links := by
    refine (List.map_congr_left ?_).trans (List.map_id d.links)
    intro l hl
    rw [Link.follow, hend l.source fun k h => hrooted l hl k (Or.inl h),
      hend l.target fun k h => hrooted l hl k (Or.inr h)]
    rfl
  rw [among, hnodes, hlinks]

end Own

end Drawing

end PackedDrawing
