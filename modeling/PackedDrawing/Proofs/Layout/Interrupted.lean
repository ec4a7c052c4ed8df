import PackedDrawing.Proofs.Numeric.Whole
import PackedDrawing.Proofs.Component.BroughtHome
import PackedDrawing.Proofs.Layout.Separated
import PackedDrawing.Layout.Secondary

/-!
# Runs that are interrupted

A run lays out one component after another, brings each layout home and announces it, and packs only
when all of them are done. When the arrangement gives up on a component, the run gives up as well:
the layouts of the components before it were brought home, everything else is as it was.

## Main definitions

* `Scalar.Divides`: there is a scalar for what is left to do.
* `Mosaic.started`, `Mosaic.ticked`, `Mosaic.ended`: what a run announces.
* `Mosaic.Answers`: an arrangement answers for copies one after another.
* `Mosaic.Own`: the entries of a journal that a run writes itself.

## Main statements

* `Mosaic.exists_layOutFrom_eq`: what is done once an arrangement has answered for some components.
* `Mosaic.run_interrupted`: runs in which the arrangement fails, and in which it does not.
-/

namespace PackedDrawing

open Record

/-- A quotient of whole numbers that is at most one has a scalar. -/
def Scalar.Divides (α : Type) [Scalar α] : Prop :=
  ∀ a b : Nat, a ≤ b → 0 < b → ∃ q : α, Scalar.ofQuotient a b = .ok q

/-- Doubles do, however many components there are. -/
theorem Double.divides : Scalar.Divides Float := fun _ _ h _ => Double.exists_ofQuotient h

namespace Listeners

variable {α : Type}

/-- What is written down of an event. -/
def heard (l : Listeners α) (e : Event α) : List (JournalEntry α) :=
  match l.get? e.kind with
  | some tag => [.event e tag]
  | none => []

theorem entries_announce (l : Listeners α) (e : Event α) (j : Journal α) :
    (j.announce l e).entries = j.entries ++ l.heard e := by
  rw [Journal.announce, heard]
  cases l.get? e.kind with
  | none => exact (List.append_nil _).symm
  | some tag => rfl

end Listeners

namespace Mosaic

section Events

variable {α : Type} [Scalar α]

/-- The start of a run. -/
def started : Event α := { kind := .start, alpha := some (.real 1.0) }

/-- The end of a run. -/
def ended : Event α := { kind := .finish, alpha := some (.real 0.0) }

/-- What is announced when the component with number `i` is done. -/
def ticked (count i : Nat) : Event α :=
  { kind := .tick, alpha := (remaining (i + 1) count).toOption.map .real
    component := some (.int i) }

variable {l : Listeners α} {arrange : Arrangement α} {count : Nat}

/-- An arrangement answers for copies one after another, the first of which has number `i`, and each
of them is announced when it is done. -/
inductive Answers (l : Listeners α) (arrange : Arrangement α) (count : Nat) :
    Nat → List (Copy α) → Journal α → List (Drawing α) → Journal α → Prop
  | nil (i : Nat) (j : Journal α) : Answers l arrange count i [] j [] j
  | cons {i : Nat} {c : Copy α} {rest : List (Copy α)} {j j₁ j' : Journal α} {laid : Drawing α}
      {laids : List (Drawing α)} (answer : arrange c.drawing j = (.ok laid, j₁))
      (index : ∀ n ∈ laid.nodes, n.index = .null ∨ ∃ i, n.index.position = .ok i)
      (later : Answers l arrange count (i + 1) rest (j₁.announce l (ticked count i)) laids j') :
      Answers l arrange count i (c :: rest) j (laid :: laids) j'

/-- Entries that are a run's own: what is written down of its events is among them, and the
arrangement leaves them alone. -/
structure Own (l : Listeners α) (arrange : Arrangement α) (own : JournalEntry α → Bool) : Prop where
  heard : ∀ e, ∀ x ∈ l.heard e, own x = true
  kept : ∀ d j, (arrange d j).2.entries.filter own = j.entries.filter own

/-- What a run has announced when `done` of `count` components are done. -/
def announced (count done : Nat) : List (Event α) := started :: (List.range done).map (ticked count)

variable {own : JournalEntry α → Bool}

omit [Scalar α] in
theorem Own.announce (h : Own l arrange own) (e : Event α) (j : Journal α) :
    (j.announce l e).entries.filter own = j.entries.filter own ++ l.heard e := by
  rw [Listeners.entries_announce, List.filter_append, List.filter_eq_self.mpr (h.heard e)]

/-- While an arrangement answers, a run writes down the announcements. -/
theorem Own.answers (hown : Own l arrange own) {i : Nat} {copies : List (Copy α)} {j j' : Journal α}
    {laids : List (Drawing α)} (h : Answers l arrange count i copies j laids j') :
    j'.entries.filter own = j.entries.filter own ++
      ((List.range' i copies.length).map (ticked count)).flatMap l.heard := by
  induction h with
  | nil i j => exact (List.append_nil _).symm
  | @cons i c rest j j₁ j' laid laids answer _ _ ih =>
      have hkept := hown.kept c.drawing j
      rw [answer] at hkept
      rw [ih, hown.announce, hkept, List.append_assoc]
      rfl

/-- When an arrangement has answered, what a run has written down is what it has announced. -/
theorem Own.announced (hown : Own l arrange own) {copies : List (Copy α)} {j j' : Journal α}
    {laids : List (Drawing α)}
    (h : Answers l arrange count 0 copies (j.announce l started) laids j') :
    j'.entries.filter own = j.entries.filter own ++
      (Mosaic.announced count copies.length).flatMap l.heard := by
  rw [hown.answers h, hown.announce, List.append_assoc, ← List.range_eq_range']
  rfl

/-- In exact arithmetic what is left falls with each component, and nothing is left after the
last. -/
theorem alpha_ticked {count i : Nat} (h : i < count) :
    (ticked count i : Event ℝ).alpha = some (.real (1 - (i + 1) / count)) ∧
      (∀ i' < i, (1 - (i + 1) / count : ℝ) < 1 - (i' + 1) / count) ∧
      (i + 1 = count → (1 - (i + 1) / count : ℝ) = 0) := by
  have hpos : (0 : ℝ) < count := by exact_mod_cast Nat.zero_lt_of_lt h
  refine ⟨?_, ?_, ?_⟩
  · have hleft : (remaining (i + 1) count : Except Fault ℝ) =
        .ok (1.0 - ((i + 1 : Nat) : Int) / ((count : Nat) : Int)) := rfl
    rw [ticked, hleft]
    norm_num [Except.toOption]
  · intro i' hi'
    have hcast : (i' : ℝ) < i := by exact_mod_cast hi'
    have hdiv : ((i' : ℝ) + 1) / count < (i + 1) / count := by gcongr
    linarith
  · rintro rfl
    push_cast
    rw [div_self (by positivity), sub_self]

end Events

section Steps

variable {α : Type} [Scalar α] {s : Mosaic α} {l : Listeners α} {arrange : Arrangement α}
  {d : Drawing α} {j j' : Journal α} {count i : Nat}
  {part : List Handle × List Nat} {c : Copy α}

/-- A part of a drawing has a copy. -/
def Copied (flags : Flags) (d : Drawing α) (part : List Handle × List Nat) (c : Copy α) : Prop :=
  Copy.of d (nodeValues part.1) (linkValues part.2) flags = .ok c

/-- An arrangement that gives up leaves the drawing as it is. -/
theorem layOutComponent_of_failed {results : Results α} (hc : Copied s.flags d part c) {e : Fault}
    (h : arrange c.drawing j = (.error e, j')) :
    s.layOutComponent arrange part.1 part.2 ⟨d, results, j⟩ = (.error e, ⟨d, results, j'⟩) := by
  have hdrawn : Board.drawn ⟨d, results, j⟩ = (.ok d, ⟨d, results, j⟩) := rfl
  have harrange : Board.onJournal (arrange c.drawing) ⟨d, results, j⟩ =
      (.error e, ⟨d, results, j'⟩) := by
    rw [Board.onJournal, Act.within, h]
  rw [layOutComponent, Act.bind_of_ok hdrawn, hc, Act.bind_of_ok (Act.attempt_apply _ _),
    Act.bind_of_error harrange]

/-- An arrangement that answers has its layout brought home. -/
theorem exists_layOutComponent_of_answer (results : Results α) (hc : Copied s.flags d part c)
    (hhomes : c.nodeHomes.Nodup ∧ c.linkHomes.Nodup) {laid : Drawing α}
    (h : arrange c.drawing j = (.ok laid, j'))
    (hindex : ∀ n ∈ laid.nodes, n.index = .null ∨ ∃ i, n.index.position = .ok i) :
    ∃ u, s.layOutComponent arrange part.1 part.2 ⟨d, results, j⟩ = (.ok (), ⟨u, results, j'⟩) ∧
      u.graph = d.graph ∧
      Rewritten c.nodeHomes (Copy.returnNode c.flags laid.nodes) d.nodes u.nodes ∧
      Rewritten c.linkHomes (Copy.returnLink c.flags laid.links) d.links u.links := by
  obtain ⟨u, hhome, hnodes, hlinks⟩ :=
    Copy.exists_rewritten_bringHome (d := d) hhomes.1 hhomes.2 hindex laid.links
  refine ⟨u, ?_, Copy.graph_bringHome hhome, hnodes, hlinks⟩
  refine Act.bind_eq_ok.mpr ⟨d, ⟨d, results, j⟩, rfl, ?_⟩
  refine Act.bind_eq_ok.mpr ⟨c, ⟨d, results, j⟩, Act.attempt_eq_ok.mpr ⟨hc, rfl⟩, ?_⟩
  refine Act.bind_eq_ok.mpr ⟨laid, ⟨d, results, j'⟩, ?_, ?_⟩
  · exact Act.within_eq_ok.mpr ⟨j', h, rfl⟩
  · exact Act.within_eq_ok.mpr ⟨u, hhome, rfl⟩

/-- A component that is done is announced, and then the others are laid out. -/
theorem layOutFrom_cons (hdivides : Scalar.Divides α) (hi : i < count) {b : Board α}
    {u : Drawing α} {results : Results α}
    (h : s.layOutComponent arrange part.1 part.2 b = (.ok (), ⟨u, results, j⟩))
    (rest : List (List Handle × List Nat)) :
    s.layOutFrom l arrange count i (part :: rest) b =
      s.layOutFrom l arrange count (i + 1) rest
        ⟨u, results, j.announce l (ticked count i)⟩ := by
  obtain ⟨q, hq⟩ := hdivides (i + 1) count hi (Nat.zero_lt_of_lt hi)
  have hremaining : remaining (i + 1) count = .ok (1.0 - q) := by
    rw [remaining, hq]
    rfl
  have hannounce : Board.announce l
      { kind := .tick, alpha := some (.real (1.0 - q)), component := some (.int i) }
      ⟨u, results, j⟩ = (.ok (), ⟨u, results, j.announce l (ticked count i)⟩) := by
    rw [ticked, hremaining]
    rfl
  rw [layOutFrom, Act.bind_of_ok h, hremaining, Act.bind_of_ok (Act.attempt_apply _ _),
    Act.bind_of_ok hannounce]

/-- Once an arrangement has answered for some components, their layouts are at home, and what is
left to lay out is what was left to lay out before. -/
theorem exists_layOutFrom_eq (hdivides : Scalar.Divides α) (results : Results α)
    {done rest : List (Copy α)} {laids : List (Drawing α)}
    (h : Answers l arrange count i done j laids j')
    (hcount : i + done.length ≤ count) {parts : List (List Handle × List Nat)}
    (hcopied : List.Forall₂ (Copied s.flags d) parts (done ++ rest))
    (hstrangers : (done ++ rest).Pairwise Copy.Strangers)
    (hhomes : ∀ c ∈ done, c.nodeHomes.Nodup ∧ c.linkHomes.Nodup) :
    ∃ d' later, s.layOutFrom l arrange count i parts ⟨d, results, j⟩ =
        s.layOutFrom l arrange count (i + done.length) later ⟨d', results, j'⟩ ∧
      List.Forall₂ (Copied s.flags d') later rest ∧ BroughtHome done laids d d' := by
  induction h generalizing d parts with
  | nil i j => exact ⟨d, parts, rfl, hcopied, BroughtHome.nil d⟩
  | @cons i c copies j j₁ j' laid laids answer index _ ih =>
      obtain ⟨part, others, hc, hothers, rfl⟩ := List.forall₂_cons_right_iff.mp hcopied
      rw [List.length_cons] at hcount
      rw [List.cons_append, List.pairwise_cons] at hstrangers
      rw [List.forall_mem_cons] at hhomes
      obtain ⟨u, hfirst, hgraph, hnodes, hlinks⟩ :=
        exists_layOutComponent_of_answer results hc hhomes.1 answer index
      -- the other components have the same copies as before
      have hcopied' : List.Forall₂ (Copied s.flags u) others (copies ++ rest) := by
        apply List.forall₂_iff_zip.mpr
        refine ⟨hothers.length_eq, ?_⟩
        intro part' c' hmem
        have hc' := (List.forall₂_iff_zip.mp hothers).2 hmem
        exact (hstrangers.1 c' (List.of_mem_zip hmem).2).of_rewritten hgraph hnodes hlinks hc'
      obtain ⟨d', later, hrest, hlater, hhome⟩ := ih (by omega) hcopied' hstrangers.2 hhomes.2
      refine ⟨d', later, ?_, hlater, ?_⟩
      · rw [layOutFrom_cons hdivides (by omega) hfirst, hrest, List.length_cons, Nat.add_right_comm,
          Nat.add_assoc]
      · apply BroughtHome.cons hgraph hnodes hlinks hhome
        exact fun c' hc' => hstrangers.1 c' (List.mem_append_left rest hc')

end Steps

section Runs

variable {α : Type} [Scalar α] {s : Mosaic α} {l : Listeners α} {arrange : Arrangement α}
  {b : Board α} {g : Grouping}

/-- Settling writes nothing down. -/
theorem journal_settle (s : Mosaic α) (given : Option Grouping) (b : Board α) :
    (s.settle given b).2.journal = b.journal := by
  apply Act.bind_keeps (fun _ => rfl)
  intro _
  apply Act.bind_keeps (fun _ => rfl)
  intro _
  apply Act.bind_keeps (fun _ => rfl)
  intro _
  apply Act.bind_keeps (fun _ => rfl)
  intro _
  apply Act.bind_keeps (fun _ => rfl)
  intro _
  apply Act.bind_keeps (fun _ => rfl)
  exact fun _ _ => rfl

/-- The copies of the components of a valid drawing. -/
structure Copies (flags : Flags) (d : Drawing α) (g : Grouping) (copies : List (Copy α)) :
    Prop where
  grouping : groupingOf d = .ok g
  length : copies.length = g.count
  copied : List.Forall₂ (Copied flags d) (g.nodes.zip g.links) copies
  strangers : copies.Pairwise Copy.Strangers
  homes : ∀ c ∈ copies, c.nodeHomes.Nodup ∧ c.linkHomes.Nodup

theorem exists_copies {d : Drawing α} (hvalid : d.validate = .ok ()) (hwhole : d.WholeEnds)
    (flags : Flags) : ∃ g copies, Copies flags d g copies := by
  obtain ⟨g, hgrouping⟩ := Grouping.exists_of (n := d.nodes.length) hwhole
  have hg := Grouping.shares_of hgrouping
  obtain ⟨copies, hcopies⟩ := exists_mapM_eq_ok fun part hpart => by
    obtain ⟨c, hc, _⟩ := Copy.exists_of (Copy.closed_of_shares hvalid hwhole hg hpart) flags
    exact ⟨c, hc⟩
  have hcopied := mapM_eq_ok_iff.mp hcopies
  refine ⟨g, copies, bind_eq_ok.mpr ⟨(), hvalid, hgrouping⟩, ?_, hcopied,
    Copy.pairwise_strangers hg hcopies, ?_⟩
  · rw [← hcopied.length_eq, List.length_zip, hg.length_eq, min_self]
    rfl
  · intro c hc
    obtain ⟨part, hpart, hof⟩ := (mem_iff_of_mapM hcopies).mp hc
    exact Copy.nodup_homes hg hpart hof

variable {copies done rest : List (Copy α)} {c : Copy α} {laids : List (Drawing α)}
  {j j' : Journal α}

/-- When the arrangement gives up on a component, so does the run. -/
theorem run_of_failed (hdivides : Scalar.Divides α) (hne : b.drawing.nodes ≠ [])
    (hcopies : Copies s.flags b.drawing.numberNodes g (done ++ c :: rest))
    (h : Answers l arrange g.count 0 done (b.journal.announce l started) laids j) {e : Fault}
    (hfailed : arrange c.drawing j = (.error e, j')) :
    ∃ d', s.run l (some arrange) b = (.error e, { b with drawing := d', journal := j' }) ∧
      BroughtHome done laids b.drawing.numberNodes d' := by
  have hcount : 0 + done.length ≤ g.count := by
    rw [← hcopies.length, List.length_append]
    omega
  obtain ⟨d', later, heq, hlater, hhome⟩ := exists_layOutFrom_eq (s := s) hdivides b.results h
    hcount hcopies.copied hcopies.strangers
    fun c' hc' => hcopies.homes c' (List.mem_append_left _ hc')
  obtain ⟨part, others, hc, _, rfl⟩ := List.forall₂_cons_right_iff.mp hlater
  have hlaid : s.layOutFrom l arrange g.count 0 (g.nodes.zip g.links) (begun l b) =
      (.error e, { b with drawing := d', journal := j' }) := by
    refine heq.trans ?_
    rw [layOutFrom, Act.bind_of_error (layOutComponent_of_failed hc hfailed)]
  refine ⟨d', ?_, hhome⟩
  rw [run_eq hne, hcopies.grouping, Act.bind_of_ok (Act.attempt_apply _ _),
    Act.bind_of_error hlaid]

/-- When the arrangement answers for all components, what is left is to settle them. -/
theorem run_of_answered (hdivides : Scalar.Divides α) (hne : b.drawing.nodes ≠ [])
    (hcopies : Copies s.flags b.drawing.numberNodes g copies)
    (h : Answers l arrange g.count 0 copies (b.journal.announce l started) laids j) :
    ∃ d', BroughtHome copies laids b.drawing.numberNodes d' ∧
      s.run l (some arrange) b = (s.settle (some g) >>= fun _ => Board.announce l ended)
        { b with drawing := d', journal := j } := by
  have hcount : 0 + copies.length ≤ g.count := by
    rw [hcopies.length, Nat.zero_add]
  have hcopied := hcopies.copied
  have hstrangers := hcopies.strangers
  rw [← List.append_nil copies] at hcopied hstrangers
  obtain ⟨d', later, heq, hlater, hhome⟩ := exists_layOutFrom_eq (s := s) hdivides b.results h
    hcount hcopied hstrangers hcopies.homes
  obtain rfl := List.forall₂_nil_right_iff.mp hlater
  have hlaid : s.layOutFrom l arrange g.count 0 (g.nodes.zip g.links) (begun l b) =
      (.ok (), { b with drawing := d', journal := j }) := heq
  refine ⟨d', hhome, ?_⟩
  rw [run_eq hne, hcopies.grouping, Act.bind_of_ok (Act.attempt_apply _ _), Act.bind_of_ok hlaid]
  rfl

/-- When the arrangement gives up on a component, the run fails in the same way. The layouts of the
components before were brought home, the others are as they were, nothing was packed, and what was
announced is the start and each component before. When it answers for all components and they can be
settled, all of them are announced, and the end. Of what is left to do, less is left each time, and
nothing at last.

A valid graph is one whose links have whole numbers as ends: the check alone also accepts a scalar
index that it cuts to a node, and the search for components does not follow such an end. -/
theorem run_interrupted (hdivides : Scalar.Divides α) (s : Mosaic α) (l : Listeners α)
    (arrange : Arrangement α) (b : Board α) (hne : b.drawing.nodes ≠ [])
    (hvalid : b.drawing.numberNodes.validate = .ok ()) (hwhole : b.drawing.numberNodes.WholeEnds) :
    (∃ g copies, Copies s.flags b.drawing.numberNodes g copies ∧
      (∀ done c rest, copies = done ++ c :: rest → ∀ laids j e j',
        Answers l arrange g.count 0 done (b.journal.announce l started) laids j →
        arrange c.drawing j = (.error e, j') →
        ∃ d', s.run l (some arrange) b = (.error e, { b with drawing := d', journal := j' }) ∧
          BroughtHome done laids b.drawing.numberNodes d' ∧
          (∀ c' ∈ c :: rest,
            (∀ k ∈ c'.nodeHomes, d'.nodes[k]? = b.drawing.numberNodes.nodes[k]?) ∧
              ∀ e ∈ c'.linkHomes, d'.links[e]? = b.drawing.links[e]?) ∧
          ∀ own, Own l arrange own → j'.entries.filter own =
            b.journal.entries.filter own ++ (announced g.count done.length).flatMap l.heard) ∧
      ∀ laids j, Answers l arrange g.count 0 copies (b.journal.announce l started) laids j →
        ∃ d', BroughtHome copies laids b.drawing.numberNodes d' ∧
          (∀ e b', s.settle (some g) { b with drawing := d', journal := j } = (.error e, b') →
            s.run l (some arrange) b = (.error e, b')) ∧
          ∀ poses b',
            s.settle (some g) { b with drawing := d', journal := j } = (.ok poses, b') →
            s.run l (some arrange) b = (.ok (), finished l b') ∧
              ∀ own, Own l arrange own → (finished l b').journal.entries.filter own =
                b.journal.entries.filter own ++
                  (announced g.count g.count ++ [ended]).flatMap l.heard) ∧
    ∀ count i : Nat, i < count →
      (ticked count i : Event ℝ).alpha = some (.real (1 - (i + 1) / count)) ∧
        (∀ i' < i, (1 - (i + 1) / count : ℝ) < 1 - (i' + 1) / count) ∧
        (i + 1 = count → (1 - (i + 1) / count : ℝ) = 0) := by
  obtain ⟨g, copies, hcopies⟩ := exists_copies hvalid hwhole s.flags
  refine ⟨⟨g, copies, hcopies, ?_, ?_⟩, fun _ _ => alpha_ticked⟩
  · rintro done c rest rfl laids j e j' hanswers hfailed
    obtain ⟨d', hrun, hhome⟩ := run_of_failed hdivides hne hcopies hanswers hfailed
    have hothers : ∀ c' ∈ c :: rest, ∀ c'' ∈ done, c''.Strangers c' := by
      intro c' hc' c'' hc''
      exact (List.pairwise_append.mp hcopies.strangers).2.2 c'' hc'' c' hc'
    refine ⟨d', hrun, hhome, ?_, ?_⟩
    · intro c' hc'
      constructor
      · intro k hk
        exact hhome.otherNode k fun c'' hc'' hk' => (hothers c' hc' c'' hc'').nodes hk' hk
      · intro e he
        exact hhome.otherLink e fun c'' hc'' he' => (hothers c' hc' c'' hc'').links he' he
    · intro own hown
      have hkept := hown.kept c.drawing j
      rw [hfailed] at hkept
      rw [hkept, hown.announced hanswers]
  · intro laids j hanswers
    obtain ⟨d', hhome, hrun⟩ := run_of_answered hdivides hne hcopies hanswers
    refine ⟨d', hhome, ?_, ?_⟩
    · intro e b' hsettle
      rw [hrun, Act.bind_of_error hsettle]
    · intro poses b' hsettle
      constructor
      · rw [hrun, Act.bind_of_ok hsettle]
        rfl
      · intro own hown
        have hjournal : b'.journal = j := by
          have hkept := journal_settle s (some g) { b with drawing := d', journal := j }
          rwa [hsettle] at hkept
        have hfinished : (finished l b').journal = j.announce l ended := by
          rw [← hjournal]
          rfl
        rw [hfinished, hown.announce, hown.announced hanswers, hcopies.length, List.append_assoc,
          List.flatMap_append, List.flatMap_singleton]

end Runs

/-- The two nodes of the first link are a component, and the third node with its loop is the
other. -/
def pairAndLoop : Grouping := ⟨[[⟨0, false⟩, ⟨2, false⟩], [⟨1, false⟩]], [[0], [1]]⟩

theorem groupingOf_mixedEnds : groupingOf Drawing.mixedEnds.numberNodes = .ok pairAndLoop := by
  have hedges : Grouping.edgesWithin 3 Drawing.mixedEnds.ends =
      .ok [(⟨2, false⟩, ⟨0, false⟩), (⟨1, false⟩, ⟨1, true⟩)] := rfl
  have hsearch : Search.components 3 [(⟨2, false⟩, ⟨0, false⟩), (⟨1, false⟩, ⟨1, true⟩)] =
      pairAndLoop.nodes := by cbv
  have hnodes : Grouping.components 3 Drawing.mixedEnds.ends = .ok pairAndLoop.nodes :=
    bind_eq_ok.mpr ⟨_, hedges, congrArg Except.ok hsearch⟩
  exact bind_eq_ok.mpr ⟨(), rfl, bind_eq_ok.mpr ⟨_, hnodes, rfl⟩⟩

/-- Whoever listens to all announcements. -/
def attentive : Listeners Float := ⟨[(.start, none), (.tick, none), (.finish, none)]⟩

/-- The first node of a component, somewhere else. -/
def movedNode : Node Float := { Node.blank with index := .int 0, x := .int 5, y := .int 6 }

/-- The first node of the first component is moved, and the second component is given up. -/
def hesitant : Arrangement Float :=
  Secondary.call (fun calls _ =>
    if calls = 1 then .error .interrupted else .ok { nodes := [movedNode] }) false

/-- Whether an entry of a journal is an announcement. -/
def isAnnouncement : JournalEntry Float → Bool
  | .event _ _ => true
  | .call _ _ => false

theorem own_hesitant : Own attentive hesitant isAnnouncement := by
  constructor
  · rintro ⟨kind, alpha, component⟩ x hx
    cases kind with
    | start => exact List.mem_singleton.mp hx ▸ rfl
    | tick => exact List.mem_singleton.mp hx ▸ rfl
    | finish => exact List.mem_singleton.mp hx ▸ rfl
  · intro d j
    rfl

theorem run_interrupted_mixedEnds :
    Scalar.Divides Float ∧ Drawing.mixedEnds.nodes ≠ [] ∧
    Drawing.mixedEnds.numberNodes.validate = .ok () ∧ Drawing.mixedEnds.numberNodes.WholeEnds ∧
    ∃ (d' : Drawing Float) (j' : Journal Float),
      Mosaic.plain.run attentive (some hesitant) { drawing := Drawing.mixedEnds } =
        (.error .interrupted, { drawing := d', journal := j' }) ∧
      d'.nodes[0]? = some movedNode ∧
      d'.nodes[1]? = Drawing.mixedEnds.nodes[1]? ∧
      j'.entries.filter isAnnouncement =
        [.event started none, .event (ticked 2 0) none] ∧
      (ticked 2 0 : Event ℝ).alpha = some (.real (1 - (0 + 1) / 2)) := by
  have hne : Drawing.mixedEnds.nodes ≠ [] := List.cons_ne_nil _ _
  obtain ⟨⟨g, copies, hcopies, hfails, _⟩, halpha⟩ := run_interrupted Double.divides Mosaic.plain
    attentive hesitant { drawing := Drawing.mixedEnds } hne rfl Drawing.wholeEnds_mixedEnds
  obtain rfl := Except.ok.inj (groupingOf_mixedEnds.symm.trans hcopies.grouping)
  obtain ⟨_, hshares⟩ := shares_of_groupingOf groupingOf_mixedEnds
  match copies, hcopies.copied, hfails with
  | [c, c'], .cons hc (.cons hc' .nil), hfails =>
      obtain ⟨hflags, hhomes, _⟩ := Copy.homes_of (part_of_shares hshares List.mem_cons_self) hc
      obtain ⟨_, hhomes', _⟩ := Copy.homes_of
        (part_of_shares hshares (List.mem_cons_of_mem _ List.mem_cons_self)) hc'
      have hanswers : Answers attentive hesitant 2 0 [c] (Journal.announce attentive started {})
          [{ nodes := [movedNode] }]
          { entries := [.event started none, .event (ticked 2 0) none], calls := 1 } := by
        refine Answers.cons rfl ?_ (Answers.nil 1 _)
        intro n hn
        obtain rfl := List.mem_singleton.mp hn
        exact Or.inr ⟨0, rfl⟩
      obtain ⟨d', hrun, hhome, hothers, hevents⟩ :=
        hfails [c] c' [] rfl _ _ .interrupted _ hanswers rfl
      have hleft := (halpha 2 0 Nat.zero_lt_two).1
      rw [Nat.cast_zero, Nat.cast_two] at hleft
      refine ⟨Double.divides, hne, rfl, Drawing.wholeEnds_mixedEnds, d', _, hrun, ?_, ?_,
        hevents _ own_hesitant, hleft⟩
      · have hfirst : c.nodeHomes[0]? = some 0 := by
          rw [hhomes]
          rfl
        rw [hhome.node (c, _) List.mem_cons_self 0 0 hfirst, hflags]
        rfl
      · apply (hothers c' List.mem_cons_self).1
        rw [hhomes']
        decide

end Mosaic

end PackedDrawing
