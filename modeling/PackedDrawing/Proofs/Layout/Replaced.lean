import PackedDrawing.Proofs.Graph.Arrival
import PackedDrawing.Proofs.Layout.Current

/-!
# Replacing nodes and links

A list of a drawing is replaced entry by entry, after the old one was thrown away. If an entry
cannot be taken in, those in front of it are left; the old list is left only if they are the same.
The other list stays, and so does all else, as everything does when any other change of a layout is
refused.

## Main statements

* `Layout.assign_taken`: what an assignment of nodes or links does to a layout.
* `Layout.assign_clears`: a refused assignment that does not leave the old nodes.
* `Layout.eq_of_adjustRing`, `Change.unchanged_of_refused`: all other changes are made as a whole or
  not at all.
-/

namespace PackedDrawing

namespace Layout

variable {α : Type}

/-- The same layout with another drawing. -/
def withDrawing (d : Drawing α) (l : Layout α) : Layout α :=
  { l with board := { l.board with drawing := d } }

theorem replace_apply (f : Drawing α → Drawing α × Option Fault) (l : Layout α) :
    replace f l = (outcome (f l.drawing).2, l.withDrawing (f l.drawing).1) := by
  have hdrawing : f l.board.drawing = f l.drawing := rfl
  simp only [replace, onBoard, Board.onDrawing, Act.within, hdrawing]
  cases f l.drawing with
  | mk d e? => cases e? <;> rfl

/-- An assignment that puts what can be taken in into a drawing leaves what is left of the entries
there, however it ends. -/
theorem exists_assign {β γ : Type} {f : Nat → β → Except Fault γ}
    {set : List β → Act (Layout α) Unit} (put : List β → List γ → Drawing α) {l : Layout α}
    (hset : ∀ entries, set entries l =
      (outcome (takeIn f 0 entries).2, l.withDrawing (put entries (takeIn f 0 entries).1)))
    (entries : Option (List β)) :
    ∃ r ys, assign set entries l = (r, l.withDrawing (put (entries.getD []) ys)) ∧
      Taken f entries r ys := by
  cases entries with
  | none =>
      have hempty : set [] l = (.ok (), l.withDrawing (put [] [])) := hset []
      refine ⟨_, _, ?_, .none⟩
      rw [assign, Act.bind_of_ok hempty]
      rfl
  | some entries => exact ⟨_, _, hset entries, takeIn_eq_iff.mp rfl⟩

/-- An assignment of nodes leaves the nodes that can be taken in, with the links among them. -/
theorem exists_assign_receive [Scalar α] (l : Layout α) (arrivals : Option (List (Arrival α))) :
    ∃ r nodes, assign receive arrivals l =
        (r, l.withDrawing (l.drawing.among nodes ((arrivals.getD []).take nodes.length))) ∧
      Taken (Arrival.toNode l.drawing) arrivals r nodes :=
  exists_assign (fun arrivals nodes => l.drawing.among nodes (arrivals.take nodes.length))
    (fun arrivals => replace_apply (Drawing.receive arrivals) l) arrivals

/-- Assigning nodes or links leaves what can be taken in of the entries in front of the first one
that cannot. Links and nodes, as the case may be, stay the same, and so does all else: a link goes
on having the nodes as its ends that it had, wherever these are now. So where an assignment is
refused, the old list is left just if it is what the entries in front of the fault give; and if they
are the old nodes themselves, in place, nothing has changed at all. -/
theorem assign_taken [Scalar α] (l : Layout α) :
    (∀ arrivals, ∃ r d f, assign receive arrivals l = (r, l.withDrawing d) ∧
      Taken (Arrival.toNode l.drawing) arrivals r d.nodes ∧
      Relocated l.drawing d ((arrivals.getD []).take d.nodes.length) f) ∧
    (∀ entries, ∃ r links, assign setLinks entries l =
        (r, l.withDrawing ⟨l.drawing.nodes, links⟩) ∧
      Taken (fun _ => LinkEntry.toLink) entries r links) ∧
    (∀ arrivals r l', assign receive arrivals l = (r, l') → l.drawing.Rooted →
      (arrivals.getD []).take l'.drawing.nodes.length = l.drawing.ownNodes → l' = l) ∧
    (∀ arrivals e l', assign receive arrivals l = (.error e, l') →
      (l'.drawing.nodes = l.drawing.nodes ↔
        Taken (Arrival.toNode l.drawing) arrivals (.error e) l.drawing.nodes)) ∧
    ∀ entries e l', assign setLinks entries l = (.error e, l') →
      (l'.drawing.links = l.drawing.links ↔
        Taken (fun _ => LinkEntry.toLink) entries (.error e) l.drawing.links) := by
  have hlinks : ∀ entries, ∃ r links, assign setLinks entries l =
      (r, l.withDrawing ⟨l.drawing.nodes, links⟩) ∧
        Taken (fun _ => LinkEntry.toLink) entries r links :=
    exists_assign (fun _ links => ⟨_, links⟩) fun entries =>
      replace_apply (Drawing.setLinks entries) l
  refine ⟨?_, hlinks, ?_, ?_, ?_⟩
  · intro arrivals
    obtain ⟨r, nodes, hassign, htaken⟩ := exists_assign_receive l arrivals
    exact ⟨r, _, _, hassign, htaken, Drawing.relocated_among htaken.inTurn_take⟩
  · intro arrivals r l' h hrooted hown
    obtain ⟨r, nodes, hassign, htaken⟩ := exists_assign_receive l arrivals
    obtain ⟨rfl, rfl⟩ := Prod.mk.inj (hassign.symm.trans h)
    have hturn := htaken.inTurn_take
    change (arrivals.getD []).take nodes.length = l.drawing.ownNodes at hown
    rw [hown] at hturn ⊢
    rw [Drawing.among_ownNodes hrooted hturn]
    rfl
  · intro arrivals e l' h
    obtain ⟨r, nodes, hassign, htaken⟩ := exists_assign_receive l arrivals
    obtain ⟨rfl, rfl⟩ := Prod.mk.inj (hassign.symm.trans h)
    constructor
    · intro heq
      exact heq ▸ htaken
    · exact htaken.unique
  · intro entries e l' h
    obtain ⟨r, links, hassign, htaken⟩ := hlinks entries
    obtain ⟨rfl, rfl⟩ := Prod.mk.inj (hassign.symm.trans h)
    constructor
    · intro heq
      exact heq ▸ htaken
    · exact htaken.unique

/-- A ring layout with two nodes that are linked. -/
def linkedPair : Layout Float :=
  { method := .ring Ring.plain
    board := { drawing := {
      nodes := [{ Node.blank with x := .int 5, y := .int 6 }, { Node.blank with x := .int 7 }]
      links := [{ source := .member 0, target := .member 1, length := .null, weight := .null,
                  bends := [], extras := [] }] } } }

/-- The second node, a new one, and nothing at all. -/
def gappedArrivals : List (Arrival Float) :=
  [.known (.own 1), .entry (.table [("x", .int 1)]), .entry .nothing]

/-- A refused assignment of nodes leaves the second node and a new one in place of the two nodes,
and their link. If it had the two nodes in front, it leaves the layout as it was. One of links to a
layout without links leaves none, as before. -/
theorem assign_taken_linkedPair :
    (∃ d f, assign receive (some gappedArrivals) linkedPair =
        (.error (.missingNode 2), linkedPair.withDrawing d) ∧ d.nodes.length = 2 ∧
      Relocated linkedPair.drawing d (gappedArrivals.take 2) f) ∧
    linkedPair.drawing.Rooted ∧
    assign receive (some [.known (.own 0), .known (.own 1), .entry .nothing]) linkedPair =
      (.error (.missingNode 2), linkedPair) ∧
    ∃ l', assign setLinks (some [.table { source := some (.value .null) }])
        { linkedPair with board := {} } = (.error .typeMismatch, l') ∧ l'.drawing.links = [] := by
  have hrooted : linkedPair.drawing.Rooted := by
    intro link hl k hk
    obtain rfl := List.mem_singleton.mp hl
    rcases hk with hk | hk <;> obtain rfl := Endpoint.member.inj hk <;> decide
  refine ⟨?_, hrooted, ?_, ?_⟩
  · obtain ⟨r, d, f, hassign, _, hlinks⟩ := (assign_taken linkedPair).1 (some gappedArrivals)
    have hfault : (assign receive (some gappedArrivals) linkedPair).1 = .error (.missingNode 2) :=
      rfl
    have hlength : (assign receive (some gappedArrivals) linkedPair).2.drawing.nodes.length = 2 :=
      rfl
    rw [hassign] at hfault hlength
    change d.nodes.length = 2 at hlength
    rw [hlength] at hlinks
    exact ⟨d, f, hfault ▸ hassign, hlength, hlinks⟩
  · have hkept := (assign_taken linkedPair).2.2.1
      (some [.known (.own 0), .known (.own 1), .entry .nothing]) _ _ rfl hrooted rfl
    exact Prod.ext rfl hkept
  · have hkept := (assign_taken { linkedPair with board := {} }).2.2.2.2
      (some [.table { source := some (.value .null) }]) .typeMismatch _ rfl
    exact ⟨_, rfl, hkept.mpr (.front (.nil 0) rfl)⟩

/-- Nodes and links that are refused at the first entry are gone. -/
theorem assign_clears :
    (∃ l', assign receive (some [.entry .nothing]) linkedPair = (.error (.missingNode 0), l') ∧
      l'.drawing.nodes = []) ∧
    (∃ l', assign setLinks (some [.thing { target := some (.value .null) }]) linkedPair =
        (.error .targetMissing, l') ∧ l'.drawing.links = []) ∧
    linkedPair.drawing.nodes ≠ [] ∧ linkedPair.drawing.links ≠ [] :=
  ⟨⟨_, rfl, rfl⟩, ⟨_, rfl, rfl⟩, List.cons_ne_nil _ _, List.cons_ne_nil _ _⟩

end Layout

section Refused

variable {α : Type} {l l' : Layout α} {e : Fault}

/-- A change of the state that depends on a computation is not made if the computation fails. -/
theorem Act.eq_of_refused {σ β : Type} {r : Except Fault β} {f : β → σ → σ} {s t : σ}
    (h : (attempt r >>= fun b => change (f b)) s = (.error e, t)) : t = s := by
  rcases Act.bind_eq_error.mp h with hfailed | ⟨b, u, _, hchange⟩
  · exact (Prod.mk.inj hfailed).2.symm
  · cases (Prod.mk.inj hchange).1

/-- A setting of a ring that is refused leaves the layout as it is. -/
theorem Layout.eq_of_adjustRing {f : Ring α → Except Fault (Ring α)}
    (h : adjustRing f l = (.error e, l')) : l' = l := by
  rw [adjustRing, Act.bind_apply, Act.state_apply] at h
  cases hmethod : l.method with
  | ring r =>
      simp only [hmethod] at h
      exact Act.eq_of_refused h
  | mosaic s secondary =>
      simp only [hmethod] at h
      cases (Prod.mk.inj h).1

/-- A setting of the packing that is refused leaves the layout as it is. -/
theorem Layout.eq_of_adjustMosaic {f : Mosaic α → Except Fault (Mosaic α)}
    (h : adjustMosaic f l = (.error e, l')) : l' = l := by
  rw [adjustMosaic, Act.bind_apply, Act.state_apply] at h
  cases hmethod : l.method with
  | ring r =>
      simp only [hmethod] at h
      cases (Prod.mk.inj h).1
  | mosaic s secondary =>
      simp only [hmethod] at h
      exact Act.eq_of_refused h

/-- A refused change leaves the layout as it is, unless it replaces nodes or links. -/
theorem Change.unchanged_of_refused [Scalar α] [Written α] {c : Change α}
    (h : c.act l = (.error e, l')) :
    (∃ arrivals, c = .nodes arrivals) ∨ (∃ entries, c = .links entries) ∨ l' = l := by
  cases c with
  | nodes arrivals => exact Or.inl ⟨arrivals, rfl⟩
  | links entries => exact Or.inr (Or.inl ⟨entries, rfl⟩)
  | ratio v | border v | flags f | packer p | envelope p =>
      exact Or.inr (Or.inr (Layout.eq_of_adjustMosaic h))
  | secondary s | extra name v => cases (Prod.mk.inj h).1
  | listener event tag => exact Or.inr (Or.inr (Act.eq_of_refused h))

end Refused

end PackedDrawing
