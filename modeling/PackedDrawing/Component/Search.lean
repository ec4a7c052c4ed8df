import PackedDrawing.Handle
/-!
# Search for connected components

Two nodes are connected when a chain of links leads from one to the other in either direction.
`Search.components` lists the connected components of a graph in the order of their smallest nodes,
each with its nodes in ascending order.

## Main definitions

* `Search.neighbours`: the far ends of the links at a node.
* `Search.reach`: all nodes met from a start, breadth first.
* `Search.components`: the components.

## Implementation notes

Nodes are met as handles: a node is listed by the mention that met it first, or by its position
where the search starts. A pass of `reach` either meets a mention not met before or shortens the
queue, which bounds it.
-/

namespace PackedDrawing.Search

/-- A link by its two ends. -/
abbrev Edge := Handle × Handle

/-- The far ends of the links at a position, in link order. -/
def neighbours (edges : List Edge) (position : Int) : List Handle :=
  edges.flatMap fun e =>
    (if e.1.position = position then [e.2] else [])
      ++ (if e.2.position = position then [e.1] else [])

/-- Whether a position is among those of the handles. -/
def met (found : List Handle) (h : Handle) : Bool := found.any (·.position == h.position)

/-- The handles whose position has not been met, each position once. -/
def fresh (found : List Handle) : List Handle → List Handle
  | [] => []
  | h :: rest => if met found h then fresh found rest else h :: fresh (h :: found) rest

theorem mem_of_mem_fresh {found hs : List Handle} {h : Handle} (hm : h ∈ fresh found hs) :
    h ∈ hs := by
  induction hs generalizing found with
  | nil => simp [fresh] at hm
  | cons a rest ih =>
    by_cases ha : met found a
    · simp only [fresh, ha, if_true] at hm
      exact List.mem_cons_of_mem a (ih hm)
    · simp only [fresh, ha, Bool.false_eq_true, if_false, List.mem_cons] at hm
      rcases hm with rfl | hm
      · exact List.mem_cons_self
      · exact List.mem_cons_of_mem a (ih hm)

theorem not_met_of_mem_fresh {found hs : List Handle} {h : Handle} (hm : h ∈ fresh found hs) :
    met found h = false := by
  induction hs generalizing found with
  | nil => simp [fresh] at hm
  | cons a rest ih =>
    by_cases ha : met found a
    · simp only [fresh, ha, if_true] at hm
      exact ih hm
    · simp only [fresh, ha, Bool.false_eq_true, if_false, List.mem_cons] at hm
      rcases hm with rfl | hm
      · simpa using ha
      · have := ih hm
        simp only [met, List.any_cons, Bool.or_eq_false_iff] at this
        exact this.2

/-- All ends of links. -/
def mentions (edges : List Edge) : List Handle := edges.flatMap fun e => [e.1, e.2]

theorem mem_mentions_of_mem_neighbours {edges : List Edge} {p : Int} {h : Handle}
    (hm : h ∈ neighbours edges p) : h ∈ mentions edges := by
  simp only [neighbours, List.mem_flatMap, List.mem_append] at hm
  obtain ⟨e, he, hm⟩ := hm
  refine List.mem_flatMap.2 ⟨e, he, ?_⟩
  rcases hm with hm | hm <;> split at hm <;> simp_all

/-- How many mentions have not been met. -/
def unmet (edges : List Edge) (found : List Handle) : Nat :=
  (mentions edges).countP fun h => !met found h

theorem met_append_of_met {found more : List Handle} {h : Handle} (hm : met found h = true) :
    met (found ++ more) h = true := by
  simp only [met, List.any_append, Bool.or_eq_true] at *
  exact Or.inl hm

theorem unmet_append_le (edges : List Edge) (found more : List Handle) :
    unmet edges (found ++ more) ≤ unmet edges found := by
  refine List.countP_mono_left fun h _ hm => ?_
  cases hc : met found h
  · rfl
  · simp [met_append_of_met hc] at hm

theorem countP_lt_countP {β : Type} {p q : β → Bool} {l : List β} {x : β}
    (hx : x ∈ l) (hp : p x = false) (hq : q x = true) (hpq : ∀ y ∈ l, p y = true → q y = true) :
    l.countP p < l.countP q := by
  induction l with
  | nil => simp at hx
  | cons a rest ih =>
    have hrest : rest.countP p ≤ rest.countP q :=
      List.countP_mono_left fun y hy => hpq y (List.mem_cons_of_mem a hy)
    rcases List.mem_cons.1 hx with rfl | hx
    · simp only [List.countP_cons, hp, hq]
      simp
      omega
    · have := ih hx fun y hy => hpq y (List.mem_cons_of_mem a hy)
      have ha := hpq a List.mem_cons_self
      simp only [List.countP_cons]
      cases hpa : p a
      · simp
        omega
      · simp [ha hpa]
        omega

theorem unmet_append_lt {edges : List Edge} {found more : List Handle} {h : Handle}
    (hm : h ∈ more) (hmention : h ∈ mentions edges) (hnew : met found h = false) :
    unmet edges (found ++ more) < unmet edges found := by
  have hnow : met (found ++ more) h = true := by
    simp only [met, List.any_eq_true]
    exact ⟨h, List.mem_append_right found hm, by simp⟩
  refine countP_lt_countP hmention (by simp [hnow]) (by simp [hnew]) fun y _ hy => ?_
  cases hc : met found y
  · rfl
  · simp [met_append_of_met hc] at hy

/-- The nodes met from those in the queue, breadth first, behind those met before. -/
def reach (edges : List Edge) (queue found : List Handle) : List Handle :=
  match queue with
  | [] => found
  | v :: rest =>
    let new := fresh found (neighbours edges v.position)
    reach edges (rest ++ new) (found ++ new)
termination_by (unmet edges found, queue.length)
decreasing_by
  cases hnew : fresh found (neighbours edges v.position) with
  | nil =>
    simp only [List.append_nil]
    exact Prod.Lex.right _ (by simp)
  | cons h more =>
    refine Prod.Lex.left _ _ (unmet_append_lt List.mem_cons_self ?_ ?_)
    · exact mem_mentions_of_mem_neighbours (mem_of_mem_fresh (hnew ▸ List.mem_cons_self))
    · exact @not_met_of_mem_fresh found (neighbours edges v.position) _
        (hnew ▸ List.mem_cons_self)

/-- The component of a node, in ascending order. -/
def component (edges : List Edge) (start : Nat) : List Handle :=
  (reach edges [Handle.ofNat start] [Handle.ofNat start]).mergeSort
    fun g h => g.position ≤ h.position

/-- The components found up to a node, and the component of that node if it is in none of them. -/
def addComponent (edges : List Edge) (done : List (List Handle)) (start : Nat) :
    List (List Handle) :=
  if done.any (met · (Handle.ofNat start)) then done else done ++ [component edges start]

/-- The connected components of a graph with the nodes `0, …, n - 1`. -/
def components (n : Nat) (edges : List Edge) : List (List Handle) :=
  (List.range n).foldl (addComponent edges) []

end PackedDrawing.Search
