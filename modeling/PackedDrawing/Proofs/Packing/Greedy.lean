import PackedDrawing.Proofs.Packing.Shelving

/-!
# Each box goes where the packing stays smallest

For each box the packing tries all rows and a new one, and works out from running totals how wide
and how high the packing would be. These are the width and the height of the packing with the box
put there, added up again from the boxes. The box goes to a place of least area. Among such places a
new row comes first, and then the rows from top to bottom.

## Main definitions

* `Packing.fullWidth`, `Packing.fullHeight`: the size of shelves, added up from their boxes.
* `Packing.area`: the area of the smallest rectangle of a ratio around a packing.
* `Packing.Chosen`: the place that comes first among those of least value.
* `Packing.Tried`: what is worked out for each place is the size of the packing with the box there.

## Main statements

* `Packing.Measured.tried`: running totals agree with the sizes of the packings that are tried.
* `Packing.exists_improve_passed`: what a pass over the rows finds.
* `Packing.exists_bestRow_chosen`: the place that comes first among those of least cost is chosen.
* `Packing.fill_greedy`: every step of a packing in exact arithmetic.
-/

namespace PackedDrawing

/-- The value of a number. -/
def Number.value : Number ℝ → ℝ
  | .int n => n
  | .real r => r

theorem Number.lt_iff_value (x y : Number ℝ) : x.lt y = true ↔ x.value < y.value := by
  cases x with
  | int a =>
      cases y with
      | int b => simp [lt, value]
      | real b => simp [lt, value, Scalar.compareInt, compare_gt_iff_gt]
  | real a =>
      cases y with
      | int b => simp [lt, value, Scalar.compareInt, compare_lt_iff_lt]
      | real b => simp [lt, value]

namespace Packing

/-- The greatest of some whole numbers; zero if there is none above zero. -/
def most (xs : List Int) : Int := xs.foldr max 0

/-- The height of the tallest of some boxes. -/
def peak (boxes : List Box) (is : List Nat) : Int := most (is.map fun i => (extents boxes i).y)

/-- The width of shelves: that of the boxes side by side on the widest shelf. -/
def fullWidth (boxes : List Box) (shelves : List (List Nat)) : Int :=
  most (shelves.map (breadth boxes))

/-- The height of shelves below one another, each as high as its tallest box. -/
def fullHeight (boxes : List Box) (shelves : List (List Nat)) : Int :=
  (shelves.map (peak boxes)).sum

/-- The area of the smallest rectangle of a ratio around a packing; for ratio zero only the width
counts. -/
noncomputable def area (ratio : ℝ) (width height : Int) : ℝ :=
  if ratio = 0 then width * width else max (width * width / ratio) (ratio * height * height)

section Most

@[simp] theorem most_nil : most [] = 0 := rfl

@[simp] theorem most_cons (x : Int) (xs : List Int) : most (x :: xs) = max x (most xs) := rfl

theorem most_nonneg (xs : List Int) : 0 ≤ most xs := by
  induction xs with
  | nil => exact le_rfl
  | cons x xs ih => exact le_max_of_le_right ih

theorem most_append (xs ys : List Int) : most (xs ++ ys) = max (most xs) (most ys) := by
  induction xs with
  | nil => simp [most_nonneg]
  | cons x xs ih => simp [ih, max_assoc]

theorem foldl_max_eq {β : Type} (f : β → Int) (w : Int) (l : List β) (hw : 0 ≤ w) :
    l.foldl (fun w x => max w (f x)) w = max w (most (l.map f)) := by
  induction l generalizing w with
  | nil => simp [hw]
  | cons x l ih => simp [ih (max w (f x)) (le_max_of_le_left hw), max_assoc]

end Most

section Measures

/-- Rows are as wide as their boxes side by side and as high as the tallest of them. -/
structure Measured (boxes : List Box) (rows : List Row) : Prop where
  width_eq : ∀ row ∈ rows, row.width = breadth boxes row.boxes
  height_eq : ∀ row ∈ rows, row.height = peak boxes row.boxes

variable {boxes : List Box} {rows : List Row}

theorem measured_push {row : Row} {i : Nat} {box : Box} (hbox : boxes[i]? = some box)
    (hwidth : row.width = breadth boxes row.boxes) (hheight : row.height = peak boxes row.boxes) :
    (row.push i box).width = breadth boxes (row.push i box).boxes ∧
      (row.push i box).height = peak boxes (row.push i box).boxes := by
  constructor
  · change row.width + box.x = breadth boxes (row.boxes ++ [i])
    rw [breadth_append, breadth_cons, breadth_nil, extents_of_some hbox, hwidth, add_zero]
  · change max row.height box.y = peak boxes (row.boxes ++ [i])
    have hpeak := most_nonneg (row.boxes.map fun i => (extents boxes i).y)
    rw [peak] at hheight
    rw [peak, List.map_append, most_append, List.map_singleton, extents_of_some hbox, most_cons,
      most_nil, hheight]
    omega

/-- One step of filling rows keeps their measures. -/
theorem Measured.putInto (h : Measured boxes rows) (k : Nat) {i : Nat} {box : Box}
    (hbox : boxes[i]? = some box) : Measured boxes (putInto rows k i box) := by
  have hall : ∀ row ∈ Packing.putInto rows k i box,
      row.width = breadth boxes row.boxes ∧ row.height = peak boxes row.boxes := by
    intro row hrow
    rcases mem_putInto hrow with hmem | ⟨row', hmem | rfl, rfl⟩
    · exact ⟨h.width_eq row hmem, h.height_eq row hmem⟩
    · exact measured_push hbox (h.width_eq row' hmem) (h.height_eq row' hmem)
    · exact measured_push hbox rfl rfl
  exact ⟨fun row hrow => (hall row hrow).1, fun row hrow => (hall row hrow).2⟩

/-- Whatever rows are chosen, they keep their measures while they are filled. -/
theorem fill_measured {α : Type} [Scalar α] {ratio : α} {items : List (Nat × Box)}
    {rows' : List Row} (h : fill ratio items rows = .ok rows') (hrows : Measured boxes rows)
    (hitems : ∀ x ∈ items, boxes[x.1]? = some x.2) : Measured boxes rows' :=
  fill_preserves h (fun _ k x hx hrows => hrows.putInto k (hitems x hx)) hrows

theorem Measured.width_nonneg (h : Measured boxes rows) (hboxes : ∀ b ∈ boxes, 0 ≤ b.x) :
    ∀ row ∈ rows, 0 ≤ row.width := by
  intro row hrow
  rw [h.width_eq row hrow]
  exact breadth_nonneg hboxes row.boxes

/-- The running width is that of the widest row. -/
theorem totalWidth_eq_most (h : ∀ row ∈ rows, 0 ≤ row.width) :
    totalWidth rows = most (rows.map Row.width) := by
  cases rows with
  | nil => rfl
  | cons row rest => exact foldl_max_eq Row.width row.width rest (h row List.mem_cons_self)

theorem Measured.totalWidth_eq (h : Measured boxes rows) (hboxes : ∀ b ∈ boxes, 0 ≤ b.x) :
    totalWidth rows = fullWidth boxes (rows.map Row.boxes) := by
  rw [totalWidth_eq_most (h.width_nonneg hboxes), fullWidth, List.map_map]
  exact congrArg most (List.map_congr_left h.width_eq)

theorem Measured.totalHeight_eq (h : Measured boxes rows) :
    totalHeight rows = fullHeight boxes (rows.map Row.boxes) := by
  rw [totalHeight, fullHeight, List.map_map]
  exact congrArg List.sum (List.map_congr_left h.height_eq)

end Measures

section Trials

variable {boxes : List Box} {rows : List Row} {i : Nat} {box : Box}

/-- A place of a row has rows above and below it, which do not change when a box is put there. -/
theorem exists_putInto_eq {j : Nat} {row : Row} (h : rows[j]? = some row) (i : Nat) (box : Box) :
    ∃ above below, rows = above ++ row :: below ∧
      putInto rows j i box = above ++ row.push i box :: below := by
  obtain ⟨hj, rfl⟩ := List.getElem?_eq_some_iff.mp h
  refine ⟨rows.take j, rows.drop (j + 1), ?_, ?_⟩
  · rw [List.getElem_cons_drop, List.take_append_drop]
  · rw [putInto, if_pos hj, List.modify_eq_take_cons_drop hj]

theorem putInto_length (rows : List Row) (i : Nat) (box : Box) :
    putInto rows rows.length i box = rows ++ [({} : Row).push i box] := by
  rw [putInto, if_neg (lt_irrefl _)]

/-- What is worked out for a box in each row, and in a new one, is the width and the height of the
packing with the box put there. -/
structure Tried (boxes : List Box) (rows : List Row) (i : Nat) (box : Box) : Prop where
  row : ∀ (j : Nat) (row : Row), rows[j]? = some row →
    max (totalWidth rows) (row.width + box.x) =
        fullWidth boxes ((putInto rows j i box).map Row.boxes) ∧
      totalHeight rows - row.height + max row.height box.y =
        fullHeight boxes ((putInto rows j i box).map Row.boxes)
  fresh : max (totalWidth rows) box.x =
        fullWidth boxes ((putInto rows rows.length i box).map Row.boxes) ∧
      totalHeight rows + box.y =
        fullHeight boxes ((putInto rows rows.length i box).map Row.boxes)

/-- Running totals agree with the sizes of the packings that are tried. -/
theorem Measured.tried (h : Measured boxes rows) (hboxes : ∀ b ∈ boxes, 0 ≤ b.x ∧ 0 ≤ b.y)
    (hbox : boxes[i]? = some box) : Tried boxes rows i box := by
  obtain ⟨hx, hy⟩ := hboxes box (List.mem_of_getElem? hbox)
  have hwide : ∀ b ∈ boxes, 0 ≤ b.x := fun b hb => (hboxes b hb).1
  have hwidth : ∀ j, fullWidth boxes ((Packing.putInto rows j i box).map Row.boxes) =
      most ((Packing.putInto rows j i box).map Row.width) := by
    intro j
    have hput := h.putInto j hbox
    rw [← hput.totalWidth_eq hwide, totalWidth_eq_most (hput.width_nonneg hwide)]
  have hheight : ∀ j, fullHeight boxes ((Packing.putInto rows j i box).map Row.boxes) =
      totalHeight (Packing.putInto rows j i box) :=
    fun j => (h.putInto j hbox).totalHeight_eq.symm
  constructor
  case row =>
    intro j row hrow
    rw [hwidth, hheight, totalWidth_eq_most (h.width_nonneg hwide)]
    obtain ⟨above, below, rfl, hput⟩ := exists_putInto_eq hrow i box
    rw [hput]
    constructor
    · -- the row was no wider before, so its old width does not count
      simp only [List.map_append, List.map_cons, most_append, most_cons, Row.push]
      omega
    · simp only [totalHeight, List.map_append, List.map_cons, List.sum_append, List.sum_cons,
        Row.push]
      omega
  case fresh =>
    rw [hwidth, hheight, totalWidth_eq_most (h.width_nonneg hwide), putInto_length]
    constructor
    · simp only [List.map_append, List.map_cons, List.map_nil, most_append, most_cons, most_nil,
        Row.push]
      omega
    · simp only [totalHeight, List.map_append, List.map_cons, List.map_nil, List.sum_append,
        List.sum_cons, List.sum_nil, Row.push]
      omega

end Trials

section Choice

/-- Among places with values, the last of which is a new row, this one is of least value. It is the
new row whenever that one is of least value, and otherwise the first of those that are. -/
structure Chosen (value : Nat → ℝ) (fresh k : Nat) : Prop where
  le_fresh : k ≤ fresh
  least : ∀ j ≤ fresh, value k ≤ value j
  lt_fresh : k < fresh → value k < value fresh
  first : k < fresh → ∀ j < k, value k < value j

variable {ratio : ℝ} {rows : List Row} {box : Box}

theorem cost_eq_area (ratio : ℝ) (width height : Int) :
    ∃ c, cost ratio width height = .ok c ∧ c.value = area ratio width height := by
  rw [cost, area]
  by_cases hzero : ratio = 0
  · refine ⟨.int (width * width), ?_, ?_⟩
    · simp [hzero]
    · simp [hzero, Number.value]
  · refine ⟨.real (max (width * width / ratio) (ratio * height * height)), ?_, ?_⟩
    · simp [hzero, Scalar.larger_eq_max]
    · simp [hzero, Number.value]

/-- What a pass over the places from `i` to `stop` has found, starting from the best place so far:
it is that one unless some of these places are better, and then the first of the best of them. -/
structure Passed (value : Nat → ℝ) (i stop : Nat) (best found : Nat × Number ℝ) : Prop where
  least : ∀ j, i ≤ j → j < stop → found.2.value ≤ value j
  source : found = best ∨
    i ≤ found.1 ∧ found.1 < stop ∧ found.2.value = value found.1 ∧
      found.2.value < best.2.value ∧ ∀ j, i ≤ j → j < found.1 → found.2.value < value j

section Passing

variable {value : Nat → ℝ} {i stop : Nat} {best found : Nat × Number ℝ}

theorem Passed.refl (value : Nat → ℝ) (i : Nat) (best : Nat × Number ℝ) :
    Passed value i i best best :=
  ⟨fun _ hij hj => absurd hj (not_lt.mpr hij), Or.inl rfl⟩

theorem Passed.value_le (h : Passed value i stop best found) :
    found.2.value ≤ best.2.value := by
  rcases h.source with rfl | ⟨_, _, _, hlt, _⟩
  · exact le_rfl
  · exact hlt.le

/-- A place that is not better is passed over. -/
theorem Passed.keep (h : Passed value (i + 1) stop best found)
    (hworse : best.2.value ≤ value i) : Passed value i stop best found := by
  constructor
  · intro j hij hj
    rcases hij.eq_or_lt with rfl | hlt
    · exact h.value_le.trans hworse
    · exact h.least j hlt hj
  · rcases h.source with heq | ⟨hle, hstop, hvalue, hbest, hfirst⟩
    · exact Or.inl heq
    · refine Or.inr ⟨Nat.le_of_succ_le hle, hstop, hvalue, hbest, ?_⟩
      intro j hij hj
      rcases hij.eq_or_lt with rfl | hlt
      · exact hbest.trans_le hworse
      · exact hfirst j hlt hj

/-- A place that is better becomes the best place so far. -/
theorem Passed.take {c : Number ℝ} (h : Passed value (i + 1) stop (i, c) found)
    (hc : c.value = value i) (hbetter : c.value < best.2.value) (hi : i < stop) :
    Passed value i stop best found := by
  constructor
  · intro j hij hj
    rcases hij.eq_or_lt with rfl | hlt
    · exact hc ▸ h.value_le
    · exact h.least j hlt hj
  · rcases h.source with rfl | ⟨hle, hstop, hvalue, hbest, hfirst⟩
    · exact Or.inr ⟨le_rfl, hi, hc, hbetter, fun j hij hj => absurd hj (not_lt.mpr hij)⟩
    · refine Or.inr ⟨Nat.le_of_succ_le hle, hstop, hvalue, hbest.trans hbetter, ?_⟩
      intro j hij hj
      rcases hij.eq_or_lt with rfl | hlt
      · exact hc ▸ hbest
      · exact hfirst j hlt hj

end Passing

/-- A pass over the rows from number `i` on. -/
theorem exists_improve_passed {value : Nat → ℝ} (i : Nat) (rest : List Row)
    (best : Nat × Number ℝ)
    (hvalue : ∀ p row, rest[p]? = some row →
      ∃ c, costIn ratio rows box row = .ok c ∧ c.value = value (i + p)) :
    ∃ found, improve ratio rows box i rest best = .ok found ∧
      Passed value i (i + rest.length) best found := by
  induction rest generalizing i best with
  | nil => exact ⟨best, rfl, Passed.refl value i best⟩
  | cons row rest ih =>
      obtain ⟨c, hc, hcvalue⟩ := hvalue 0 row rfl
      obtain ⟨found, hfound, hpassed⟩ := ih (i + 1) (if c.lt best.2 then (i, c) else best) <| by
        intro p r hr
        rw [Nat.add_assoc, Nat.add_comm 1 p]
        exact hvalue (p + 1) r hr
      have hstop : i + 1 + rest.length = i + (row :: rest).length := by
        rw [List.length_cons, Nat.add_assoc, Nat.add_comm 1]
      rw [hstop] at hpassed
      refine ⟨found, by rw [improve, hc, ok_bind, hfound], ?_⟩
      by_cases hbetter : c.value < best.2.value
      · rw [if_pos ((Number.lt_iff_value c best.2).mpr hbetter)] at hpassed
        exact hpassed.take hcvalue hbetter (hstop ▸ by omega)
      · rw [if_neg fun hlt => hbetter ((Number.lt_iff_value c best.2).mp hlt)] at hpassed
        exact hpassed.keep ((not_lt.mp hbetter).trans hcvalue.le)

/-- The best place, when a new row is tried first and then the rows from top to bottom. -/
theorem exists_bestRow_chosen {value : Nat → ℝ}
    (hrows : ∀ j row, rows[j]? = some row →
      ∃ c, costIn ratio rows box row = .ok c ∧ c.value = value j)
    (hfresh : ∃ c, cost ratio (max (totalWidth rows) box.x) (totalHeight rows + box.y) = .ok c ∧
      c.value = value rows.length) :
    ∃ k, bestRow ratio rows box = .ok k ∧ Chosen value rows.length k := by
  obtain ⟨c, hc, hcvalue⟩ := hfresh
  obtain ⟨found, hfound, hpassed⟩ := exists_improve_passed 0 rows (rows.length, c) <| by
    intro p row hrow
    rw [Nat.zero_add]
    exact hrows p row hrow
  rw [Nat.zero_add] at hpassed
  refine ⟨found.1, by rw [bestRow, hc, ok_bind, hfound, ok_bind]; rfl, ?_⟩
  have hle : found.2.value ≤ value rows.length := hcvalue ▸ hpassed.value_le
  rcases hpassed.source with rfl | ⟨_, hlt, hvalue, hbest, hfirst⟩
  · refine ⟨le_rfl, ?_, fun h => absurd h (lt_irrefl _), fun h => absurd h (lt_irrefl _)⟩
    intro j hj
    rcases hj.eq_or_lt with rfl | hj
    · exact le_rfl
    · exact hcvalue ▸ hpassed.least j (Nat.zero_le j) hj
  · rw [hcvalue, hvalue] at hbest
    rw [hvalue] at hle hfirst
    refine ⟨hlt.le, ?_, fun _ => hbest, fun _ j hj => hfirst j (Nat.zero_le j) hj⟩
    intro j hj
    rcases hj.eq_or_lt with rfl | hj
    · exact hle
    · exact hvalue ▸ hpassed.least j (Nat.zero_le j) hj

end Choice

section Steps

variable {ratio : ℝ} {boxes : List Box} {rows : List Row}

/-- The area of the packing with a box put into a row. -/
noncomputable def areaWith (ratio : ℝ) (boxes : List Box) (rows : List Row) (i : Nat) (box : Box)
    (k : Nat) : ℝ :=
  let shelves := (putInto rows k i box).map Row.boxes
  area ratio (fullWidth boxes shelves) (fullHeight boxes shelves)

/-- A box goes to the first place where the packing with the box has the least area. -/
theorem Tried.exists_bestRow {i : Nat} {box : Box} (h : Tried boxes rows i box) (ratio : ℝ) :
    ∃ k, bestRow ratio rows box = .ok k ∧
      Chosen (areaWith ratio boxes rows i box) rows.length k := by
  apply exists_bestRow_chosen
  · intro j row hrow
    obtain ⟨hwidth, hheight⟩ := h.row j row hrow
    rw [costIn, hwidth, hheight]
    exact cost_eq_area ratio _ _
  · rw [h.fresh.1, h.fresh.2]
    exact cost_eq_area ratio _ _

/-- Every step of a packing in exact arithmetic. When the boxes before it have been put into rows,
what is worked out for a box in each row and in a new one is the width and the height of the packing
with the box put there, and the box goes to the first place of least area, a new row before all
others. -/
theorem fill_greedy (ratio : ℝ) (hboxes : ∀ b ∈ boxes, 0 ≤ b.x ∧ 0 ≤ b.y)
    {before after : List (Nat × Box)} {i : Nat} {box : Box}
    (hstep : ordered boxes = before ++ (i, box) :: after) :
    ∃ rows k, fill ratio before [] = .ok rows ∧ bestRow ratio rows box = .ok k ∧
      Packing.rows boxes ratio =
        (fill ratio after (putInto rows k i box)).map (offsets boxes) ∧
      Tried boxes rows i box ∧ Chosen (areaWith ratio boxes rows i box) rows.length k := by
  have hitems : ∀ x ∈ before ++ (i, box) :: after, boxes[x.1]? = some x.2 := by
    intro x hx
    exact mem_ordered_iff.mp (hstep ▸ hx)
  obtain ⟨rows, hrows⟩ := exists_fill ratio before []
  have hmeasured := fill_measured hrows
    ⟨fun _ h => absurd h List.not_mem_nil, fun _ h => absurd h List.not_mem_nil⟩
    fun x hx => hitems x (List.mem_append_left _ hx)
  have hbox : boxes[i]? = some box :=
    hitems (i, box) (List.mem_append_right _ List.mem_cons_self)
  have htried := hmeasured.tried hboxes hbox
  obtain ⟨k, hk, hchosen⟩ := htried.exists_bestRow ratio
  refine ⟨rows, k, hrows, hk, ?_, htried, hchosen⟩
  rw [Packing.rows, hstep, fill_append, hrows, ok_bind, fill, hk, ok_bind]
  cases fill ratio after (putInto rows k i box) <;> rfl

theorem fill_greedy_threeBoxes :
    (∀ b ∈ threeBoxes, 0 ≤ b.x ∧ 0 ≤ b.y) ∧
      ordered threeBoxes = [(2, ⟨2, 5⟩), (0, ⟨3, 2⟩)] ++ (1, ⟨1, 2⟩) :: [] ∧
      ∃ rows k, fill (1 : ℝ) [(2, ⟨2, 5⟩), (0, ⟨3, 2⟩)] [] = .ok rows ∧
        bestRow (1 : ℝ) rows ⟨1, 2⟩ = .ok k ∧ Tried threeBoxes rows 1 ⟨1, 2⟩ ∧
        Chosen (areaWith 1 threeBoxes rows 1 ⟨1, 2⟩) rows.length k := by
  have hboxes : ∀ b ∈ threeBoxes, 0 ≤ b.x ∧ 0 ≤ b.y := by decide
  have hstep : ordered threeBoxes = [(2, ⟨2, 5⟩), (0, ⟨3, 2⟩)] ++ (1, ⟨1, 2⟩) :: [] :=
    ordered_threeBoxes
  obtain ⟨rows, k, hrows, hk, _, htried, hchosen⟩ := fill_greedy 1 hboxes hstep
  exact ⟨hboxes, hstep, rows, k, hrows, hk, htried, hchosen⟩

end Steps

end Packing

end PackedDrawing
