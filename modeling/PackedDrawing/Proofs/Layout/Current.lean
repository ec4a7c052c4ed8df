import PackedDrawing.Proofs.Layout.Area
import PackedDrawing.Proofs.Layout.Checked

/-!
# What the results of a layout describe

A layout can be used again: its nodes and links are replaced, its settings are changed, and it is
run or packed as often as one likes. Whenever it has been packed, its results describe the drawing
that it holds. A run without nodes packs nothing, and leaves the results of the packing before.

## Main definitions

* `Results.Describe`: the results are about a drawing.
* `Results.Matched`: there are as many offsets and boxes as poses.
* `Call`, `Layout.after`: what users do with a layout, one call after another.
* `Call.Packs`: a call packs the components of the drawing.

## Main statements

* `Mosaic.describe_of_settle`, `Mosaic.describe_of_run`: a packing describes its own drawing.
* `Call.results_act`: a call that does not pack leaves the results as they are.
* `Layout.matched_after`: poses, boxes and offsets match after any calls.
* `Layout.results_current`: what the results describe after any calls.
-/

namespace PackedDrawing

namespace Results

variable {α : Type} [Scalar α]

/-- The number of components; none is counted before the first packing. -/
def count (r : Results α) : Nat := (r.components.map Grouping.count).getD 0

/-- Results describe a drawing: they have its grouping, or it has no nodes and there is no grouping
yet, and there are one pose, one box and one offset for each component. -/
structure Describe (r : Results α) (d : Drawing α) : Prop where
  grouping : match r.components with
    | some g => Grouping.ofDrawing d = .ok g
    | none => d.nodes = []
  poses : r.poses.length = r.count
  boxes : ∃ sizes, Mosaic.boxesOf r.poses = .ok sizes ∧ sizes.length = r.count
  offsets : r.offsets.length = r.count

/-- There are one box and one offset for each pose. -/
structure Matched (r : Results α) : Prop where
  boxes : ∃ sizes, Mosaic.boxesOf r.poses = .ok sizes ∧ sizes.length = r.poses.length
  offsets : r.offsets.length = r.poses.length

theorem matched_empty : ({} : Results α).Matched := ⟨⟨[], rfl, rfl⟩, rfl⟩

/-- Before the first packing the results describe a drawing without nodes. -/
theorem describe_empty {d : Drawing α} (h : d.nodes = []) : ({} : Results α).Describe d :=
  ⟨h, rfl, ⟨[], rfl, rfl⟩, rfl⟩

end Results

section Frame

variable {α β γ : Type} {P : Results α → Prop} {b : Board α}

/-- What holds of the results stays true in two steps on a board if it does in each. -/
theorem Board.bind_preserves {a : Act (Board α) β} {f : β → Act (Board α) γ}
    (ha : ∀ b, P b.results → P (a b).2.results) (hf : ∀ x b, P b.results → P (f x b).2.results)
    (hb : P b.results) : P ((a >>= f) b).2.results :=
  Act.bind_preserves (P := fun b : Board α => P b.results) ha hf hb

/-- What holds of the results stays true in a run if it does in the work. -/
theorem Board.run_preserves [Scalar α] {work : Act (Board α) Unit}
    (hwork : ∀ b, P b.results → P (work b).2.results) (l : Listeners α) (hb : P b.results) :
    P (Board.run l work b).2.results := by
  refine Board.bind_preserves (fun _ h => h) (fun _ u hu => ?_) hb
  refine Board.bind_preserves (fun _ h => h) (fun _ u hu => ?_) hu
  exact Board.bind_preserves hwork (fun _ _ h => h) hu

end Frame

theorem Drawing.numberNodes_of_empty {α : Type} {d : Drawing α} (h : d.nodes = []) :
    d.numberNodes = d := by
  apply numberNodes_eq_self
  intro n hn
  exact absurd (h ▸ hn) List.not_mem_nil

namespace Mosaic

variable {α : Type} [Scalar α] {s : Mosaic α} {l : Listeners α} {b b' : Board α} {g : Grouping}
  {d d' : Drawing α}

section Describing

/-- A packing describes the drawing that it leaves, which has the components that were packed. -/
theorem describe_of_packComponents (hg : groupingOf d = .ok g) {poses : List (Pose α Int)}
    {offsets : List Offset} (hpack : s.packComponents g d = (.ok (poses, offsets), d')) :
    Results.Describe { components := some g, poses, offsets } d' := by
  obtain ⟨hframe, hposes, sizes, hsizes, hboxes, hoffsets⟩ := frame_packComponents hpack
  obtain ⟨_, hshares⟩ := shares_of_groupingOf hg
  have hcount : poses.length = g.count := by
    rw [hposes, List.length_zip, hshares.length_eq, min_self, Grouping.count]
  have hfound : groupingOf d' = .ok g :=
    (Drawing.groupingOf_of_graph (Drawing.graph_of_frame hframe)).trans hg
  obtain ⟨_, _, hgrouping⟩ := bind_eq_ok.mp hfound
  exact ⟨hgrouping, hcount, ⟨sizes, hsizes, hboxes.trans hcount⟩, hoffsets.trans hcount⟩

theorem describe_of_settle {poses : List (Pose α Int)} (h : s.settle none b = (.ok poses, b')) :
    b'.results.Describe b'.drawing := by
  obtain ⟨g, offsets, d', hg, hpack, rfl⟩ := settle_eq_ok_iff.mp h
  exact describe_of_packComponents hg hpack

/-- A run with nodes describes the drawing that it leaves. -/
theorem describe_of_run {arrange : Arrangement α} (hne : b.drawing.nodes ≠ [])
    (h : s.run l (some arrange) b = (.ok (), b')) : b'.results.Describe b'.drawing := by
  obtain ⟨g, b₁, poses, b₂, hg, hlaid, hsettle, rfl⟩ := (run_eq_ok_iff hne).mp h
  obtain ⟨g', offsets, d', hgiven, hpack, rfl⟩ := settle_eq_ok_iff.mp hsettle
  obtain rfl := Except.ok.inj hgiven
  -- the grouping was found before the components were laid out, but the graph is the same
  have hgraph : b₁.drawing.graph = b.drawing.numberNodes.graph := graph_layOutFrom hlaid
  rw [Drawing.numberNodes_of_graph hgraph] at hpack
  exact describe_of_packComponents ((Drawing.groupingOf_of_graph hgraph).trans hg) hpack

/-- A run without nodes is over as soon as it has begun. -/
theorem run_of_empty {arrange : Arrangement α} (h : b.drawing.nodes = []) :
    s.run l (some arrange) b = (.ok (), finished l (begun l b)) := by
  have hdrawn : Board.drawn (begun l b) = (.ok b.drawing.numberNodes, begun l b) := rfl
  have hwork : s.work l (some arrange) (begun l b) = (.ok (), begun l b) := by
    rw [work, Act.bind_of_ok hdrawn, Drawing.numberNodes_of_empty h, h, List.isEmpty_nil,
      if_pos rfl]
    rfl
  calc
    s.run l (some arrange) b
      = (s.work l (some arrange) >>= fun _ =>
          Board.announce l { kind := .finish, alpha := some (.real 0.0) }) (begun l b) := rfl
    _ = _ := by rw [Act.bind_of_ok hwork]; rfl

end Describing

section Matching

/-- Laying out the components leaves the results as they are. -/
theorem layOutFrom_preserves {P : Results α → Prop} (arrange : Arrangement α) (count i : Nat)
    (parts : List (List Handle × List Nat)) (hb : P b.results) :
    P (s.layOutFrom l arrange count i parts b).2.results := by
  induction parts generalizing i b with
  | nil => exact hb
  | cons x rest ih =>
      refine Board.bind_preserves ?_ (fun _ u hu => ?_) hb
      · intro u hu
        refine Board.bind_preserves (fun _ h => h) (fun _ u hu => ?_) hu
        refine Board.bind_preserves (fun _ h => h) (fun _ u hu => ?_) hu
        exact Board.bind_preserves (fun _ h => h) (fun _ _ h => h) hu
      · refine Board.bind_preserves (fun _ h => h) (fun _ u hu => ?_) hu
        exact Board.bind_preserves (fun _ h => h) (fun _ _ h => ih (i + 1) h) hu

/-- However a packing ends, poses, boxes and offsets match. -/
theorem matched_settle (s : Mosaic α) (given : Option Grouping) (h : b.results.Matched) :
    (s.settle given b).2.results.Matched := by
  cases hg : given.elim (groupingOf b.drawing.numberNodes) .ok with
  | error e =>
      rw [settle_of_unchecked given hg]
      exact h
  | ok g =>
      rcases hpack : s.packComponents g b.drawing.numberNodes with ⟨r, d'⟩
      rw [settle_of_checked given hg hpack]
      cases r with
      | error e => exact ⟨h.boxes, h.offsets⟩
      | ok answer =>
          obtain ⟨_, _, sizes, hsizes, hboxes, hoffsets⟩ := frame_packComponents hpack
          exact ⟨⟨sizes, hsizes, hboxes⟩, hoffsets⟩

/-- However a run ends, poses, boxes and offsets match. -/
theorem matched_run (s : Mosaic α) (l : Listeners α) (arrange : Option (Arrangement α))
    (h : b.results.Matched) : (s.run l arrange b).2.results.Matched := by
  refine Board.run_preserves (P := Results.Matched) ?_ l h
  intro b hb
  cases arrange with
  | none => exact hb
  | some arrange =>
      refine Board.bind_preserves (fun _ h => h) ?_ hb
      intro d u hu
      by_cases hempty : d.nodes.isEmpty = true
      · rw [if_pos hempty]
        exact hu
      · rw [if_neg hempty]
        refine Board.bind_preserves (fun _ h => h) (fun g u hu => ?_) hu
        refine Board.bind_preserves (fun _ h => layOutFrom_preserves arrange g.count 0 _ h)
          (fun _ u hu => ?_) hu
        exact Board.bind_preserves (fun _ h => matched_settle s (some g) h) (fun _ _ h => h) hu

end Matching

end Mosaic

/-- A change that users make to a layout between runs. Nodes and links are replaced by the entries
of a value, which may have none. -/
inductive Change (α : Type) where
  | nodes (arrivals : Option (List (Arrival α)))
  | links (entries : Option (List (LinkEntry α)))
  | ratio (v : Value α)
  | border (v : Value α)
  | flags (flags : Flags)
  | packer (packer : Packer α)
  | envelope (envelope : Envelope α)
  | secondary (secondary : Secondary α)
  | extra (name : String) (v : Value α)
  | listener (event : Value α) (tag : Option (Value α))

/-- What users do with a layout: they change it, run it, or have it packed as it is. -/
inductive Call (α : Type) where
  | change (c : Change α)
  | run
  | settle

namespace Layout

variable {α : Type} [Scalar α]

/-- There is something that lays out the components. -/
def Ready (l : Layout α) : Prop :=
  ∃ s secondary arrange, l.method = .mosaic s secondary ∧ secondary.arrangement = some arrange

theorem settle_of_ring {l : Layout α} {r : Ring α} (h : l.method = .ring r)
    (given : Option Grouping) : settle given l = (.error .missingAttribute, l) := by
  rw [settle, Act.bind_of_ok (Act.state_apply l), h]
  rfl

theorem settle_of_mosaic {l : Layout α} {s : Mosaic α} {secondary : Secondary α}
    (h : l.method = .mosaic s secondary) (given : Option Grouping) :
    settle given l = onBoard (s.settle given) l := by
  rw [settle, Act.bind_of_ok (Act.state_apply l), h]

omit [Scalar α] in
/-- What holds of the results stays true in two steps on a layout if it does in each. -/
theorem bind_preserves {β γ : Type} {P : Results α → Prop} {a : Act (Layout α) β}
    {f : β → Act (Layout α) γ} {l : Layout α} (ha : ∀ l, P l.results → P (a l).2.results)
    (hf : ∀ x l, P l.results → P (f x l).2.results) (hl : P l.results) :
    P ((a >>= f) l).2.results :=
  Act.bind_preserves (P := fun l : Layout α => P l.results) ha hf hl

omit [Scalar α] in
theorem results_adjustMosaic (f : Mosaic α → Except Fault (Mosaic α)) (l : Layout α) :
    (adjustMosaic f l).2.results = l.results := by
  refine bind_preserves (P := (· = l.results)) (fun _ h => h) (fun m u hu => ?_) rfl
  cases m.method with
  | ring r => exact hu
  | mosaic s secondary =>
      exact bind_preserves (P := (· = l.results)) (fun _ h => h) (fun _ _ h => h) hu

/-- A run that does not pack leaves the results as they are. -/
theorem results_run {l : Layout α} (h : ¬ (l.drawing.nodes ≠ [] ∧ l.Ready)) :
    (run l).2.results = l.results := by
  cases hmethod : l.method with
  | ring r =>
      rw [run_of_ring hmethod]
      exact Board.run_preserves (P := (· = l.results)) (fun _ h => h) l.listeners rfl
  | mosaic s secondary =>
      rw [run_of_mosaic hmethod]
      cases harrange : secondary.arrangement with
      | none =>
          have hwork : ∀ b, b.results = l.results →
              (s.work l.listeners none b).2.results = l.results := fun _ h => h
          exact Board.run_preserves (P := (· = l.results)) hwork l.listeners rfl
      | some arrange =>
          have hnodes : l.board.drawing.nodes = [] := by
            by_contra hne
            exact h ⟨hne, s, secondary, arrange, hmethod, harrange⟩
          rw [onBoard, Act.within, Mosaic.run_of_empty hnodes]
          rfl

end Layout

section Calls

variable {α : Type} [Scalar α] [Written α]

/-- Makes a change. One that is refused may have been made in part. -/
def Change.act : Change α → Act (Layout α) Unit
  | nodes arrivals => Layout.assign Layout.receive arrivals
  | links entries => Layout.assign Layout.setLinks entries
  | ratio v => Layout.setRatio v
  | border v => Layout.setBorder v
  | flags f => Layout.setFlags f
  | packer p => Layout.setPacker p
  | envelope e => Layout.setEnvelope e
  | secondary s => Layout.setSecondary s
  | extra name v => Layout.attach name v
  | listener event tag => Layout.listen event tag

namespace Call

/-- Makes a call. -/
def act : Call α → Act (Layout α) Unit
  | change c => c.act
  | run => Layout.run
  | settle => do let _ ← Layout.settle none

/-- A call packs the components: always, if it is asked to, and in a run, if there are nodes and
something to lay them out. -/
def Packs (l : Layout α) : Call α → Prop
  | change _ => False
  | run => l.drawing.nodes ≠ [] ∧ l.Ready
  | settle => True

end Call

namespace Layout

/-- The layout after some calls, each of which may have failed. -/
def after (l : Layout α) (calls : List (Call α)) : Layout α :=
  calls.foldl (fun l c => (c.act l).2) l

/-- No call of a series packs the components. -/
def Quiet (l : Layout α) : List (Call α) → Prop
  | [] => True
  | c :: rest => ¬ c.Packs l ∧ (c.act l).2.Quiet rest

theorem after_cons (l : Layout α) (c : Call α) (calls : List (Call α)) :
    l.after (c :: calls) = (c.act l).2.after calls := rfl

theorem after_append (l : Layout α) (calls later : List (Call α)) :
    l.after (calls ++ later) = (l.after calls).after later := List.foldl_append

end Layout

/-- A change leaves the results as they are. -/
theorem Change.results_act (c : Change α) (l : Layout α) : (c.act l).2.results = l.results := by
  cases c with
  | nodes entries | links entries => cases entries <;> rfl
  | ratio v | border v | flags f | packer p | envelope e =>
      exact Layout.results_adjustMosaic _ l
  | secondary secondary =>
      obtain ⟨method, _, _, _⟩ := l
      cases method <;> rfl
  | extra name v => rfl
  | listener event tag =>
      refine Layout.bind_preserves (P := (· = l.results)) (fun _ h => h) (fun _ u hu => ?_) rfl
      exact Layout.bind_preserves (P := (· = l.results)) (fun _ h => h) (fun _ _ h => h) hu

namespace Call

/-- A call that does not pack leaves the results as they are, however it ends. -/
theorem results_act {c : Call α} {l : Layout α} (h : ¬ c.Packs l) :
    (c.act l).2.results = l.results := by
  cases c with
  | change c => exact c.results_act l
  | run => exact Layout.results_run h
  | settle => exact absurd trivial h

/-- However a call ends, poses, boxes and offsets match. -/
theorem matched_act (c : Call α) {l : Layout α} (h : l.results.Matched) :
    (c.act l).2.results.Matched := by
  cases c with
  | change c =>
      rw [act, c.results_act l]
      exact h
  | run =>
      cases hmethod : l.method with
      | ring r =>
          rw [act, Layout.run_of_ring hmethod]
          exact Board.run_preserves (P := Results.Matched) (fun _ h => h) l.listeners h
      | mosaic s secondary =>
          rw [act, Layout.run_of_mosaic hmethod]
          exact Mosaic.matched_run s l.listeners secondary.arrangement h
  | settle =>
      refine Layout.bind_preserves (P := Results.Matched) ?_ (fun _ _ h => h) h
      intro l h
      cases hmethod : l.method with
      | ring r =>
          rw [Layout.settle_of_ring hmethod]
          exact h
      | mosaic s secondary =>
          rw [Layout.settle_of_mosaic hmethod]
          exact Mosaic.matched_settle s none h

end Call

namespace Layout

variable {l l' : Layout α}

/-- After any calls poses, boxes and offsets match. -/
theorem matched_after (h : l.results.Matched) (calls : List (Call α)) :
    (l.after calls).results.Matched := by
  induction calls generalizing l with
  | nil => exact h
  | cons c rest ih => exact ih (c.matched_act h)

/-- Calls that do not pack leave the results as they are. -/
theorem results_after_quiet {calls : List (Call α)} (h : l.Quiet calls) :
    (l.after calls).results = l.results := by
  induction calls generalizing l with
  | nil => rfl
  | cons c rest ih => exact (ih h.2).trans (Call.results_act h.1)

/-- Either no call packs, or one of them is the last that does. -/
theorem quiet_or_exists_last (l : Layout α) (calls : List (Call α)) :
    l.Quiet calls ∨ ∃ earlier c later, calls = earlier ++ c :: later ∧ c.Packs (l.after earlier) ∧
      (l.after (earlier ++ [c])).Quiet later := by
  induction calls generalizing l with
  | nil => exact Or.inl trivial
  | cons c rest ih =>
      rcases ih (c.act l).2 with hquiet | ⟨earlier, p, later, rfl, hpacks, hquiet⟩
      · by_cases hpacks : c.Packs l
        · exact Or.inr ⟨[], c, rest, rfl, hpacks, hquiet⟩
        · exact Or.inl ⟨hpacks, hquiet⟩
      · exact Or.inr ⟨c :: earlier, p, later, rfl, hpacks, hquiet⟩

/-- Packing a layout as it is describes its drawing. -/
theorem describe_of_settle (h : Call.settle.act l = (.ok (), l')) :
    l'.results.Describe l'.drawing := by
  obtain ⟨poses, l₁, hsettle, hdone⟩ := Act.bind_eq_ok.mp h
  obtain ⟨_, rfl⟩ := Act.pure_eq_ok.mp hdone
  cases hmethod : l.method with
  | ring r =>
      rw [settle_of_ring hmethod] at hsettle
      cases (Prod.mk.inj hsettle).1
  | mosaic s secondary =>
      rw [settle_of_mosaic hmethod] at hsettle
      obtain ⟨b', hb', rfl⟩ := Act.within_eq_ok.mp hsettle
      exact Mosaic.describe_of_settle hb'

/-- A run with nodes and something to lay them out describes the drawing. -/
theorem describe_of_run (hne : l.drawing.nodes ≠ []) (hready : l.Ready)
    (h : Call.run.act l = (.ok (), l')) : l'.results.Describe l'.drawing := by
  obtain ⟨s, secondary, arrange, hmethod, harrange⟩ := hready
  rw [Call.act, run_of_mosaic hmethod, harrange] at h
  obtain ⟨b', hb', rfl⟩ := Act.within_eq_ok.mp h
  exact Mosaic.describe_of_run hne hb'

/-- A run without nodes succeeds, and leaves the drawing and the results as they are. -/
theorem exists_run_of_empty (hnodes : l.drawing.nodes = []) (hready : l.Ready) :
    ∃ l', Call.run.act l = (.ok (), l') ∧ l'.drawing = l.drawing ∧ l'.results = l.results := by
  obtain ⟨s, secondary, arrange, hmethod, harrange⟩ := hready
  refine ⟨{ l with board := Mosaic.finished l.listeners (Mosaic.begun l.listeners l.board) },
    ?_, Drawing.numberNodes_of_empty hnodes, rfl⟩
  rw [Call.act, run_of_mosaic hmethod, harrange]
  exact Act.within_eq_ok.mpr ⟨_, Mosaic.run_of_empty hnodes, rfl⟩

/-- What the results describe when a layout has just been run or packed, whatever was done with it
before. It is the drawing that it holds, except after a run without nodes: the results are then
those of the last call that packed, whether that call succeeded or not. If there was none, they
describe the drawing. -/
theorem results_current (hnew : l.results = {}) (calls : List (Call α))
    (hready : (l.after calls).Ready) {c : Call α} (hc : c = .run ∨ c = .settle)
    (h : c.act (l.after calls) = (.ok (), l')) :
    l'.results.Matched ∧
    (c = .settle ∨ (l.after calls).drawing.nodes ≠ [] → l'.results.Describe l'.drawing) ∧
    (c = .run → (l.after calls).drawing.nodes = [] →
      l'.drawing.nodes = [] ∧
      ((l.Quiet calls ∧ l'.results.Describe l'.drawing) ∨
        ∃ earlier p later, calls = earlier ++ p :: later ∧ p.Packs (l.after earlier) ∧
          (l.after (earlier ++ [p])).Quiet later ∧
          l'.results = (l.after (earlier ++ [p])).results)) := by
  refine ⟨?_, ?_, ?_⟩
  · have hmatched := c.matched_act (matched_after (hnew ▸ Results.matched_empty) calls)
    rwa [h] at hmatched
  · intro hpacks
    rcases hc with rfl | rfl
    · have hne := hpacks.resolve_left (by rintro ⟨⟩)
      exact describe_of_run hne hready h
    · exact describe_of_settle h
  · rintro rfl hnodes
    obtain ⟨l₁, hrun, hdrawing, hkept⟩ := exists_run_of_empty hnodes hready
    obtain rfl := (Prod.mk.inj (hrun.symm.trans h)).2
    have hempty : l₁.drawing.nodes = [] := hdrawing ▸ hnodes
    refine ⟨hempty, ?_⟩
    rcases quiet_or_exists_last l calls with hquiet | ⟨earlier, p, later, rfl, hpacks, hquiet⟩
    · refine Or.inl ⟨hquiet, ?_⟩
      rw [hkept, results_after_quiet hquiet, hnew]
      exact Results.describe_empty hempty
    · refine Or.inr ⟨earlier, p, later, rfl, hpacks, hquiet, ?_⟩
      have hsplit : l.after (earlier ++ p :: later) = (l.after (earlier ++ [p])).after later := by
        rw [← after_append, List.append_assoc, List.singleton_append]
      rw [hkept, hsplit, results_after_quiet hquiet]

end Layout

end Calls

namespace Layout

section Reused

attribute [local instance] Mosaic.silent

/-- A layout that puts all nodes of a component in the same place, and all boxes as well. -/
noncomputable def reusable : Layout ℝ :=
  { method := .mosaic Mosaic.piled (.procedure (fun _ d => (Mosaic.heaped d {}).1) false)
    board := { drawing := Mosaic.bentLinkAndNode } }

theorem ready_reusable : reusable.Ready := ⟨_, _, _, rfl, rfl⟩

/-- The layout can be run, and finds the components of its drawing. -/
theorem exists_run_reusable :
    ∃ l, Call.run.act reusable = (.ok (), l) ∧ l.method = reusable.method ∧
      l.results.components = some Mosaic.linkAndNode := by
  have hreturns : Arrangement.Returns Flags.plain
      (Secondary.call (fun _ d => (Mosaic.heaped d {}).1) false) := by
    intro d nodes links c hread hc j
    obtain ⟨laid, _, hlaid, hreturn⟩ :=
      Mosaic.returns_heaped Flags.plain d nodes links c hread hc {}
    have hanswer : (Mosaic.heaped c.drawing {}).1 = .ok laid := congrArg Prod.fst hlaid
    refine ⟨laid, { j with calls := j.calls + 1 }, ?_, hreturn⟩
    exact congrArg (·, { j with calls := j.calls + 1 }) hanswer
  have hne : reusable.board.drawing.nodes ≠ [] := List.cons_ne_nil _ _
  obtain ⟨b', hrun⟩ := Mosaic.exists_run (s := Mosaic.piled) (b := reusable.board) {}
    hne rfl Mosaic.typed_bentLinkAndNode hreturns (fun ps _ => ⟨_, rfl⟩)
    fun sizes => ⟨_, rfl, List.length_map _⟩
  have hmethod : reusable.method =
    .mosaic Mosaic.piled (.procedure (fun _ d => (Mosaic.heaped d {}).1) false) := rfl
  refine ⟨{ reusable with board := b' }, ?_, rfl, ?_⟩
  · rw [Call.act, run_of_mosaic hmethod]
    exact Act.within_eq_ok.mpr ⟨b', hrun, rfl⟩
  obtain ⟨g, b₁, poses, b₂, hg, _, hsettle, rfl⟩ := (Mosaic.run_eq_ok_iff hne).mp hrun
  obtain ⟨g', offsets, d', hgiven, _, rfl⟩ := Mosaic.settle_eq_ok_iff.mp hsettle
  obtain rfl := Except.ok.inj hgiven
  exact congrArg some (Except.ok.inj (hg.symm.trans Mosaic.groupingOf_bentLinkAndNode))

/-- Running a layout, and taking all nodes and links away. -/
def runAndClear : List (Call ℝ) := [.run, .change (.nodes (some [])), .change (.links (some []))]

/-- A layout that was run and cleared keeps what the run found. -/
theorem after_runAndClear {l : Layout ℝ} (h : Call.run.act reusable = (.ok (), l))
    (hmethod : l.method = reusable.method) :
    (reusable.after runAndClear).Ready ∧ (reusable.after runAndClear).drawing = {} ∧
      (reusable.after runAndClear).results = l.results := by
  have hafter : reusable.after runAndClear =
      l.after [.change (.nodes (some [])), .change (.links (some []))] := by
    rw [runAndClear, after_cons, h]
  rw [hafter]
  exact ⟨⟨_, _, _, hmethod, rfl⟩, rfl, rfl⟩

theorem results_current_reusable :
    reusable.results = {} ∧ reusable.Ready ∧
      (∃ l, Call.run.act reusable = (.ok (), l) ∧ l.results.Describe l.drawing) ∧
      (reusable.after runAndClear).Ready ∧
      ∃ l, Call.run.act (reusable.after runAndClear) = (.ok (), l) ∧ l.results.Matched ∧
        l.drawing.nodes = [] := by
  obtain ⟨l, hrun, hmethod, _⟩ := exists_run_reusable
  obtain ⟨hready, hcleared, _⟩ := after_runAndClear hrun hmethod
  obtain ⟨l', hrun', _⟩ := exists_run_of_empty (congrArg Drawing.nodes hcleared) hready
  have hfirst := results_current rfl [] ready_reusable (Or.inl rfl) hrun
  have hsecond := results_current rfl runAndClear hready (Or.inl rfl) hrun'
  exact ⟨rfl, ready_reusable, ⟨l, hrun, hfirst.2.1 (Or.inr (List.cons_ne_nil _ _))⟩, hready, l',
    hrun', hsecond.1, (hsecond.2.2 rfl (congrArg Drawing.nodes hcleared)).1⟩

/-- A run without nodes keeps components of a drawing that is no longer there. -/
theorem results_outdated :
    ∃ l, Call.run.act (reusable.after runAndClear) = (.ok (), l) ∧
      (reusable.after runAndClear).Ready ∧ l.drawing.nodes = [] ∧ l.drawing.links = [] ∧
      Grouping.ofDrawing l.drawing = .ok ⟨[], []⟩ ∧
      l.results.components = some Mosaic.linkAndNode ∧ ¬ l.results.Describe l.drawing := by
  obtain ⟨l, hrun, hmethod, hcomponents⟩ := exists_run_reusable
  obtain ⟨hready, hcleared, hkept⟩ := after_runAndClear hrun hmethod
  obtain ⟨l', hrun', hdrawing, hresults⟩ :=
    exists_run_of_empty (congrArg Drawing.nodes hcleared) hready
  rw [hcleared] at hdrawing
  have hgrouping : Grouping.ofDrawing l'.drawing = .ok ⟨[], []⟩ := hdrawing ▸ rfl
  have hcomponents' : l'.results.components = some Mosaic.linkAndNode := by
    rw [hresults, hkept, hcomponents]
  refine ⟨l', hrun', hready, hdrawing ▸ rfl, hdrawing ▸ rfl, hgrouping, hcomponents', ?_⟩
  intro hdescribe
  have hfound := hdescribe.grouping
  rw [hcomponents'] at hfound
  cases Except.ok.inj (hfound.symm.trans hgrouping)

end Reused

end Layout

end PackedDrawing
