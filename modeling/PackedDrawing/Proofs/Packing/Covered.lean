import Mathlib.Algebra.BigOperators.Intervals
import Mathlib.Algebra.Order.Field.Rat
import Mathlib.Data.Int.Interval
import PackedDrawing.Proofs.Packing.Shelves
import PackedDrawing.Proofs.Reals.Ranges

/-!
# Overlap and density as covered cells

A box at an offset covers cells of the unit grid. Two boxes overlap just if they share one, and the
overlaps that are counted are the pairs of boxes that do. While no cell is shared, the area of all
boxes is the number of cells that they cover, and the density of a packing is their share of the
least rectangle around them.

## Main definitions

* `Packing.cells`, `Packing.cellsAt`: the cells of a box at an offset, and of the box with a number.
* `Packing.sharing`: the pairs of boxes that share a cell.
* `Packing.covered`: the cells of all boxes.
* `Packing.Frames`, `Packing.Tiles`: the least rectangle around boxes, and one that they fill.

## Main statements

* `Packing.overlap_iff_exists_cell`: overlapping is sharing a cell.
* `Packing.countOverlaps_eq_card`: what is counted are the pairs that share a cell.
* `Packing.density_eq_ofQuotient`: the density as a quotient of numbers of cells.
* `Packing.overlap_count_density`: all three, and what a density can be.
-/

namespace PackedDrawing.Packing

open Finset (range)

section Definitions

-- the order of whole numbers by which cells can be listed, whatever else is in scope
attribute [local instance (high)] Int.instLinearOrder LinearOrder.toPartialOrder
  PartialOrder.toPreorder

/-- The unit cells of the grid that a box covers at an offset, each named by its least corner. -/
def cells (o : Offset) (b : Box) : Finset (Int × Int) :=
  Finset.Ico o.x (o.x + b.x) ×ˢ Finset.Ico o.y (o.y + b.y)

/-- The cells of the box with a number; none where there is no box with an offset. -/
def cellsAt (os : List Offset) (boxes : List Box) (i : Nat) : Finset (Int × Int) :=
  ((os.zip boxes)[i]?).elim ∅ fun p => cells p.1 p.2

/-- The pairs of boxes that share a cell, by their numbers, the smaller one first. -/
def sharing (os : List Offset) (boxes : List Box) : Finset (Nat × Nat) :=
  (range boxes.length ×ˢ range boxes.length).filter fun p =>
    p.1 < p.2 ∧ ¬ Disjoint (cellsAt os boxes p.1) (cellsAt os boxes p.2)

/-- The cells that some box covers. -/
def covered (os : List Offset) (boxes : List Box) : Finset (Int × Int) :=
  (range boxes.length).biUnion (cellsAt os boxes)

/-- A rectangle frames boxes: it has all their cells, and no rectangle that has them has fewer. -/
structure Frames (os : List Offset) (boxes : List Box) (corner : Offset) (extent : Box) : Prop where
  contains : covered os boxes ⊆ cells corner extent
  least : ∀ o b, covered os boxes ⊆ cells o b → cells corner extent ⊆ cells o b

/-- Each cell of a rectangle is in one box. -/
def Tiles (os : List Offset) (boxes : List Box) (corner : Offset) (extent : Box) : Prop :=
  ∀ cell ∈ cells corner extent, ∃! i, cell ∈ cellsAt os boxes i

end Definitions

section Cells

variable {o p : Offset} {b c : Box} {os : List Offset} {boxes : List Box} {x y : Int}

@[simp] theorem mem_cells_iff :
    (x, y) ∈ cells o b ↔ (o.x ≤ x ∧ x < o.x + b.x) ∧ o.y ≤ y ∧ y < o.y + b.y := by
  simp [cells]

/-- A box covers as many cells as its area says. -/
theorem card_cells (hx : 0 ≤ b.x) (hy : 0 ≤ b.y) : ((cells o b).card : Int) = b.x * b.y := by
  simp [cells, hx, hy]

/-- Boxes overlap just if they share a cell. -/
theorem overlap_iff_exists_cell (hb : 0 < b.x ∧ 0 < b.y) (hc : 0 < c.x ∧ 0 < c.y) :
    overlap o b p c = true ↔ ∃ cell, cell ∈ cells o b ∧ cell ∈ cells p c := by
  simp only [overlap, Bool.and_eq_true, decide_eq_true_eq]
  constructor
  · intro h
    -- the least corner of what the boxes have in common
    refine ⟨(max o.x p.x, max o.y p.y), ?_, ?_⟩
    · simp only [mem_cells_iff]
      omega
    · simp only [mem_cells_iff]
      omega
  · rintro ⟨⟨x, y⟩, hcell, hcell'⟩
    simp only [mem_cells_iff] at hcell hcell'
    omega

theorem overlap_iff_not_disjoint (hb : 0 < b.x ∧ 0 < b.y) (hc : 0 < c.x ∧ 0 < c.y) :
    overlap o b p c = true ↔ ¬ Disjoint (cells o b) (cells p c) := by
  rw [overlap_iff_exists_cell hb hc, Finset.not_disjoint_iff]

@[simp] theorem cellsAt_cons_zero : cellsAt (o :: os) (b :: boxes) 0 = cells o b := rfl

@[simp] theorem cellsAt_cons_succ (i : Nat) :
    cellsAt (o :: os) (b :: boxes) (i + 1) = cellsAt os boxes i := by
  simp [cellsAt]

theorem mem_cellsAt_iff {cell : Int × Int} {i : Nat} :
    cell ∈ cellsAt os boxes i ↔ ∃ q, (os.zip boxes)[i]? = some q ∧ cell ∈ cells q.1 q.2 := by
  rw [cellsAt]
  cases (os.zip boxes)[i]? <;> simp

theorem mem_covered_iff {cell : Int × Int} :
    cell ∈ covered os boxes ↔ ∃ q ∈ os.zip boxes, cell ∈ cells q.1 q.2 := by
  simp only [covered, Finset.mem_biUnion, Finset.mem_range, mem_cellsAt_iff]
  constructor
  · rintro ⟨i, _, q, hq, hcell⟩
    exact ⟨q, List.mem_of_getElem? hq, hcell⟩
  · rintro ⟨q, hq, hcell⟩
    obtain ⟨i, hi⟩ := List.mem_iff_getElem?.mp hq
    have hbox := (List.getElem?_zip_eq_some.mp hi).2
    exact ⟨i, (List.getElem?_eq_some_iff.mp hbox).1, q, hi, hcell⟩

end Cells

section Counting

variable {os : List Offset} {boxes : List Box}

/-- The pairs that share a cell are those of the first box and those of the others. -/
theorem card_sharing_cons (o : Offset) (b : Box) (os : List Offset) (boxes : List Box) :
    (sharing (o :: os) (b :: boxes)).card =
      ((range boxes.length).filter fun j => ¬ Disjoint (cells o b) (cellsAt os boxes j)).card +
        (sharing os boxes).card := by
  simp only [sharing, Finset.card_filter, Finset.sum_product, List.length_cons,
    Finset.sum_range_succ']
  simp [add_comm]

/-- A box overlaps as many of the boxes behind it as share a cell with it. -/
theorem overlapsWith_eq_card {o : Offset} {b : Box} (hb : 0 < b.x ∧ 0 < b.y)
    (hlength : os.length = boxes.length) (hboxes : ∀ c ∈ boxes, 0 < c.x ∧ 0 < c.y) :
    overlapsWith o b os boxes =
      .ok ((range boxes.length).filter fun j =>
        ¬ Disjoint (cells o b) (cellsAt os boxes j)).card := by
  induction os generalizing boxes with
  | nil =>
      obtain rfl := List.length_eq_zero_iff.mp hlength.symm
      rfl
  | cons p os ih =>
      obtain ⟨c, rest, rfl⟩ := List.exists_cons_of_length_eq_add_one hlength.symm
      have hrest := ih (Nat.succ.inj hlength) fun d hd => hboxes d (List.mem_cons_of_mem c hd)
      have hfirst := overlap_iff_not_disjoint (o := o) (p := p) hb (hboxes c List.mem_cons_self)
      rw [overlapsWith, hrest, ok_bind]
      simp only [Finset.card_filter, List.length_cons, Finset.sum_range_succ', cellsAt_cons_succ,
        cellsAt_cons_zero, hfirst]
      exact congrArg Except.ok (add_comm _ _)

/-- The overlaps that are counted are the pairs that share a cell. -/
theorem countOverlaps_eq_card (hlength : os.length = boxes.length)
    (hboxes : ∀ b ∈ boxes, 0 < b.x ∧ 0 < b.y) :
    countOverlaps os boxes = .ok (sharing os boxes).card := by
  induction os generalizing boxes with
  | nil =>
      obtain rfl := List.length_eq_zero_iff.mp hlength.symm
      rfl
  | cons o os ih =>
      obtain ⟨b, rest, rfl⟩ := List.exists_cons_of_length_eq_add_one hlength.symm
      have hrest := ih (Nat.succ.inj hlength) fun c hc => hboxes c (List.mem_cons_of_mem b hc)
      have hfirst := overlapsWith_eq_card (o := o) (hboxes b List.mem_cons_self)
        (Nat.succ.inj hlength) fun c hc => hboxes c (List.mem_cons_of_mem b hc)
      cases rest with
      | nil =>
          have hnone : sharing (o :: os) [b] = ∅ := by
            ext ⟨i, j⟩
            simp [sharing]
            omega
          rw [hnone]
          rfl
      | cons c rest =>
          rw [countOverlaps, hfirst, ok_bind, hrest, card_sharing_cons]
          · rfl
          · simp

/-- Where no overlaps are counted, different boxes have different cells. -/
theorem disjoint_of_countOverlaps (hlength : os.length = boxes.length)
    (hboxes : ∀ b ∈ boxes, 0 < b.x ∧ 0 < b.y) (hzero : countOverlaps os boxes = .ok 0)
    {i j : Nat} (hi : i < boxes.length) (hj : j < boxes.length) (hne : i ≠ j) :
    Disjoint (cellsAt os boxes i) (cellsAt os boxes j) := by
  have hnone : sharing os boxes = ∅ := by
    apply Finset.card_eq_zero.mp
    exact Except.ok.inj ((countOverlaps_eq_card hlength hboxes).symm.trans hzero)
  have hforward : ∀ m n, m < n → m < boxes.length → n < boxes.length →
      Disjoint (cellsAt os boxes m) (cellsAt os boxes n) := by
    intro m n hmn hm hn
    by_contra hshared
    have hmem : (m, n) ∈ sharing os boxes := by
      simp [sharing, hmn, hm, hn, hshared]
    simp [hnone] at hmem
  rcases Nat.lt_or_gt_of_ne hne with hlt | hgt
  · exact hforward i j hlt hi hj
  · exact (hforward j i hgt hj hi).symm

/-- The area of all boxes is the number of their cells, each counted for each box that has it. -/
theorem sum_card_cellsAt (hlength : os.length = boxes.length)
    (hboxes : ∀ b ∈ boxes, 0 ≤ b.x ∧ 0 ≤ b.y) :
    ∑ i ∈ range boxes.length, ((cellsAt os boxes i).card : Int) = boxArea boxes := by
  induction os generalizing boxes with
  | nil =>
      obtain rfl := List.length_eq_zero_iff.mp hlength.symm
      rfl
  | cons o os ih =>
      obtain ⟨b, rest, rfl⟩ := List.exists_cons_of_length_eq_add_one hlength.symm
      have hrest := ih (Nat.succ.inj hlength) fun c hc => hboxes c (List.mem_cons_of_mem b hc)
      obtain ⟨hx, hy⟩ := hboxes b List.mem_cons_self
      calc ∑ i ∈ range (rest.length + 1), ((cellsAt (o :: os) (b :: rest) i).card : Int)
          = boxArea rest + b.x * b.y := by
            simp only [Finset.sum_range_succ', cellsAt_cons_succ, cellsAt_cons_zero, hrest,
              card_cells hx hy]
        _ = boxArea (b :: rest) := by
            simp [boxArea, add_comm]

/-- Where no overlaps are counted, the area of all boxes is the number of cells that they cover. -/
theorem card_covered (hlength : os.length = boxes.length)
    (hboxes : ∀ b ∈ boxes, 0 < b.x ∧ 0 < b.y) (hzero : countOverlaps os boxes = .ok 0) :
    ((covered os boxes).card : Int) = boxArea boxes := by
  have hdisjoint : ∀ i ∈ range boxes.length, ∀ j ∈ range boxes.length, i ≠ j →
      Disjoint (cellsAt os boxes i) (cellsAt os boxes j) := fun i hi j hj =>
    disjoint_of_countOverlaps hlength hboxes hzero (Finset.mem_range.mp hi) (Finset.mem_range.mp hj)
  rw [covered, Finset.card_biUnion hdisjoint, Nat.cast_sum]
  exact sum_card_cellsAt hlength fun b hb => ⟨(hboxes b hb).1.le, (hboxes b hb).2.le⟩

end Counting

section Frame

variable {os : List Offset} {boxes : List Box} {start size : Point Int → Int} {near far : Int}

/-- In one direction boxes at their offsets reach from a place to another. -/
structure Reaches (start size : Point Int → Int) (os : List Offset) (boxes : List Box)
    (near far : Int) : Prop where
  near_le : ∀ p ∈ os.zip boxes, near ≤ start p.1
  le_far : ∀ p ∈ os.zip boxes, start p.1 + size p.2 ≤ far
  near_mem : ∃ p ∈ os.zip boxes, start p.1 = near
  far_mem : ∃ p ∈ os.zip boxes, start p.1 + size p.2 = far

/-- Boxes span what they reach over. -/
theorem exists_reaches (start size : Point Int → Int) (hlength : os.length = boxes.length)
    (hne : boxes ≠ []) :
    ∃ near far, span start size os boxes = .ok (far - near) ∧
      Reaches start size os boxes near far := by
  obtain ⟨b, bs, rfl⟩ := List.exists_cons_of_ne_nil hne
  obtain ⟨o, os, rfl⟩ := List.exists_cons_of_length_eq_add_one hlength
  obtain ⟨hnear, hnearmem⟩ := foldl_select (r := fun a b : Int => b ≤ a) le_refl
    (fun hab hbc => le_trans hbc hab) min_choice min_le_left min_le_right (start o) (os.map start)
  obtain ⟨hfar, hfarmem⟩ := foldl_select (r := fun a b : Int => a ≤ b) le_refl
    (fun hab hbc => le_trans hab hbc) max_choice le_max_left le_max_right (start o + size b)
    ((os.zip bs).map fun p => start p.1 + size p.2)
  have hstarts : ((o :: os).zip (b :: bs)).map (fun p => start p.1) = start o :: os.map start := by
    calc ((o :: os).zip (b :: bs)).map (fun p => start p.1)
        = (((o :: os).zip (b :: bs)).map Prod.fst).map start := by simp
      _ = start o :: os.map start := by rw [List.map_fst_zip hlength.le, List.map_cons]
  have hends : ((o :: os).zip (b :: bs)).map (fun p => start p.1 + size p.2) =
      (start o + size b) :: (os.zip bs).map fun p => start p.1 + size p.2 := rfl
  rw [← hstarts] at hnear hnearmem
  rw [← hends] at hfar hfarmem
  refine ⟨_, _, ?_, ?_, ?_, List.mem_map.mp hnearmem, List.mem_map.mp hfarmem⟩
  · rw [span, List.foldl_map, List.foldl_map]
  · exact fun p hp => hnear _ (List.mem_map_of_mem hp)
  · exact fun p hp => hfar _ (List.mem_map_of_mem hp)

/-- The least and the greatest cell of a box. -/
theorem corners_mem_covered (hboxes : ∀ b ∈ boxes, 0 < b.x ∧ 0 < b.y) {p : Offset × Box}
    (hp : p ∈ os.zip boxes) : (p.1.x, p.1.y) ∈ covered os boxes ∧
      (p.1.x + p.2.x - 1, p.1.y + p.2.y - 1) ∈ covered os boxes := by
  have hextent := hboxes p.2 (List.of_mem_zip hp).2
  simp only [mem_covered_iff]
  constructor
  · refine ⟨p, hp, ?_⟩
    simp [hextent]
  · refine ⟨p, hp, ?_⟩
    simp only [mem_cells_iff]
    omega

/-- The rectangle from where boxes begin to where they end frames them. -/
theorem frames_of_reaches (hboxes : ∀ b ∈ boxes, 0 < b.x ∧ 0 < b.y) {west east north south : Int}
    (hx : Reaches Point.x Point.x os boxes west east)
    (hy : Reaches Point.y Point.y os boxes north south) :
    Frames os boxes ⟨west, north⟩ ⟨east - west, south - north⟩ := by
  constructor
  · rintro ⟨x, y⟩ hcell
    obtain ⟨p, hp, hmem⟩ := mem_covered_iff.mp hcell
    have hwest := hx.near_le p hp
    have heast := hx.le_far p hp
    have hnorth := hy.near_le p hp
    have hsouth := hy.le_far p hp
    simp only [mem_cells_iff] at hmem ⊢
    omega
  · rintro o b hsub ⟨x, y⟩ hcell
    obtain ⟨p, hp, hwest⟩ := hx.near_mem
    obtain ⟨q, hq, heast⟩ := hx.far_mem
    obtain ⟨r, hr, hnorth⟩ := hy.near_mem
    obtain ⟨t, ht, hsouth⟩ := hy.far_mem
    -- the outermost cells are in the other rectangle
    have hpmem := hsub (corners_mem_covered hboxes hp).1
    have hqmem := hsub (corners_mem_covered hboxes hq).2
    have hrmem := hsub (corners_mem_covered hboxes hr).1
    have htmem := hsub (corners_mem_covered hboxes ht).2
    simp only [mem_cells_iff] at hcell hpmem hqmem hrmem htmem ⊢
    omega

/-- Boxes of some extent reach over some distance. -/
theorem Reaches.near_lt_far (h : Reaches start size os boxes near far)
    (hsize : ∀ b ∈ boxes, 0 < size b) : near < far := by
  obtain ⟨p, hp, rfl⟩ := h.near_mem
  calc start p.1 < start p.1 + size p.2 := lt_add_of_pos_right _ (hsize p.2 (List.of_mem_zip hp).2)
    _ ≤ far := h.le_far p hp

/-- Where no overlaps are counted, the density is the number of cells that are covered, divided by
that of the least rectangle around the boxes. -/
theorem density_eq_ofQuotient (hlength : os.length = boxes.length)
    (hboxes : ∀ b ∈ boxes, 0 < b.x ∧ 0 < b.y) (hne : boxes ≠ [])
    (hzero : countOverlaps os boxes = .ok 0) :
    ∃ corner extent, Frames os boxes corner extent ∧ 0 < (cells corner extent).card ∧
      ∀ {α : Type} [Scalar α], (density os boxes : Except Fault α) =
        Scalar.ofQuotient (covered os boxes).card (cells corner extent).card := by
  obtain ⟨west, east, hwidth, hx⟩ := exists_reaches Point.x Point.x hlength hne
  obtain ⟨north, south, hheight, hy⟩ := exists_reaches Point.y Point.y hlength hne
  have hwide := sub_pos.mpr (hx.near_lt_far fun b hb => (hboxes b hb).1)
  have htall := sub_pos.mpr (hy.near_lt_far fun b hb => (hboxes b hb).2)
  have hcard : ((cells ⟨west, north⟩ ⟨east - west, south - north⟩).card : Int) =
      (east - west) * (south - north) := card_cells hwide.le htall.le
  refine ⟨⟨west, north⟩, ⟨east - west, south - north⟩, frames_of_reaches hboxes hx hy, ?_, ?_⟩
  · have hpos := mul_pos hwide htall
    omega
  · intro α _
    have hempty : boxes.isEmpty = false := by
      simpa using hne
    have harea : ¬ (east - west ≤ 0 ∨ south - north ≤ 0) := by
      omega
    rw [density, hempty, hwidth, ok_bind, hheight, ok_bind, if_neg harea,
      card_covered hlength hboxes hzero, hcard]
    rfl

/-- Boxes that share no cells tile their frame just if they cover all of it. -/
theorem tiles_iff (hlength : os.length = boxes.length) (hboxes : ∀ b ∈ boxes, 0 < b.x ∧ 0 < b.y)
    (hzero : countOverlaps os boxes = .ok 0) {corner : Offset} {extent : Box}
    (hframe : Frames os boxes corner extent) :
    Tiles os boxes corner extent ↔ covered os boxes = cells corner extent := by
  have hnumber : ∀ {i cell}, cell ∈ cellsAt os boxes i → i < boxes.length := by
    intro i cell hcell
    obtain ⟨q, hq, _⟩ := mem_cellsAt_iff.mp hcell
    exact (List.getElem?_eq_some_iff.mp (List.getElem?_zip_eq_some.mp hq).2).1
  constructor
  · intro htiles
    apply Finset.Subset.antisymm hframe.contains
    intro cell hcell
    obtain ⟨i, hi, _⟩ := htiles cell hcell
    exact Finset.mem_biUnion.mpr ⟨i, Finset.mem_range.mpr (hnumber hi), hi⟩
  · intro heq cell hcell
    obtain ⟨i, hrange, hi⟩ := Finset.mem_biUnion.mp (heq ▸ hcell)
    refine ⟨i, hi, fun j hj => ?_⟩
    by_contra hne
    have hdisjoint := disjoint_of_countOverlaps hlength hboxes hzero (hnumber hj) (hnumber hi) hne
    exact Finset.disjoint_left.mp hdisjoint hj hi

end Frame

/-- Overlap and density measure covered cells. Two boxes overlap, in either order, just if they
share a cell; the overlaps that are counted are the pairs that share one; and while there are none,
the density is the number of cells that are covered divided by that of the least rectangle around
the boxes, which is above zero, and one just if the boxes tile the rectangle. -/
theorem overlap_count_density {os : List Offset} {boxes : List Box}
    (hlength : os.length = boxes.length) (hboxes : ∀ b ∈ boxes, 0 < b.x ∧ 0 < b.y) :
    (∀ p ∈ os.zip boxes, ∀ q ∈ os.zip boxes,
      overlap p.1 p.2 q.1 q.2 = overlap q.1 q.2 p.1 p.2 ∧
      (overlap p.1 p.2 q.1 q.2 = true ↔
        ∃ cell, cell ∈ cells p.1 p.2 ∧ cell ∈ cells q.1 q.2)) ∧
    countOverlaps os boxes = .ok (sharing os boxes).card ∧
    (countOverlaps os boxes = .ok 0 → boxes ≠ [] →
      ∃ (corner : Offset) (extent : Box) (share : ℚ), Frames os boxes corner extent ∧
        share = (covered os boxes).card / (cells corner extent).card ∧
        density os boxes = .ok (share : ℝ) ∧ 0 < share ∧ share ≤ 1 ∧
        (share = 1 ↔ Tiles os boxes corner extent)) := by
  refine ⟨?_, countOverlaps_eq_card hlength hboxes, ?_⟩
  · intro p hp q hq
    exact ⟨overlap_comm _ _ _ _, overlap_iff_exists_cell (hboxes p.2 (List.of_mem_zip hp).2)
      (hboxes q.2 (List.of_mem_zip hq).2)⟩
  · intro hzero hne
    obtain ⟨corner, extent, hframe, hcells, hdensity⟩ :=
      density_eq_ofQuotient hlength hboxes hne hzero
    have hle := Finset.card_le_card hframe.contains
    have hcovered : 0 < (covered os boxes).card := by
      obtain ⟨_, _, _, hx⟩ := exists_reaches Point.x Point.x hlength hne
      obtain ⟨p, hp, _⟩ := hx.near_mem
      exact Finset.card_pos.mpr ⟨_, (corners_mem_covered hboxes hp).1⟩
    have hcells' : (0 : ℚ) < (cells corner extent).card := by exact_mod_cast hcells
    refine ⟨corner, extent, _, hframe, rfl, ?_, ?_, ?_, ?_⟩
    · rw [hdensity]
      push_cast
      rfl
    · exact div_pos (by exact_mod_cast hcovered) hcells'
    · rw [div_le_one hcells']
      exact_mod_cast hle
    · rw [div_eq_one_iff_eq hcells'.ne', Nat.cast_inj, tiles_iff hlength hboxes hzero hframe]
      constructor
      · exact fun heq => Finset.eq_of_subset_of_card_le hframe.contains heq.ge
      · exact fun heq => congrArg Finset.card heq

/-- Three boxes that touch, one of them at offsets below zero, and leave a gap. -/
def touching : List Offset × List Box :=
  ([⟨-3, -1⟩, ⟨0, -1⟩, ⟨0, 1⟩], [⟨3, 2⟩, ⟨2, 2⟩, ⟨1, 1⟩])

theorem overlap_count_density_touching :
    touching.1.length = touching.2.length ∧ (∀ b ∈ touching.2, 0 < b.x ∧ 0 < b.y) ∧
    countOverlaps touching.1 touching.2 = .ok 0 ∧ (covered touching.1 touching.2).card = 11 ∧
    ∃ (corner : Offset) (extent : Box) (share : ℚ), Frames touching.1 touching.2 corner extent ∧
      share = (covered touching.1 touching.2).card / (cells corner extent).card ∧
      density touching.1 touching.2 = .ok (share : ℝ) ∧ 0 < share ∧ share ≤ 1 ∧
      (share = 1 ↔ Tiles touching.1 touching.2 corner extent) := by
  have hlength : touching.1.length = touching.2.length := rfl
  have hboxes : ∀ b ∈ touching.2, 0 < b.x ∧ 0 < b.y := by decide
  have hzero : countOverlaps touching.1 touching.2 = .ok 0 := rfl
  have hcovered : (covered touching.1 touching.2).card = 11 := by decide
  exact ⟨hlength, hboxes, hzero, hcovered,
    (overlap_count_density hlength hboxes).2.2 hzero (List.cons_ne_nil _ _)⟩

end PackedDrawing.Packing
