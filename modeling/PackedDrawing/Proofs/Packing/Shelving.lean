import PackedDrawing.Proofs.Packing.Order

/-!
# The packing is made of shelves

The rows that boxes are packed into are shelves: each is as wide as its boxes together and as high
as its first one, its boxes stand in the order in which they were packed, and the shelves fall in
height. A box lies behind the boxes in front of it and below the shelves above its own.

## Main definitions

* `Packing.Filled`, `Packing.Stacked`: the invariant of one row and of all of them.
* `Packing.Shelving`: offsets that put boxes on shelves.
* `Packing.Apart`: no two boxes at their offsets overlap.

## Main statements

* `Packing.fill_stacked`: the invariant holds however the rows are chosen.
* `Packing.shelving_of_rows`: whatever the packing answers puts the boxes on shelves.
* `Packing.countOverlaps_of_apart`: boxes that are apart have no overlaps to be counted.
-/

namespace PackedDrawing.Packing

/-- The width of boxes side by side. -/
def breadth (boxes : List Box) (is : List Nat) : Int := (is.map fun i => (extents boxes i).x).sum

/-- The height of the first of some boxes; zero for none. -/
def rise (boxes : List Box) (is : List Nat) : Int :=
  (is.head?.map fun i => (extents boxes i).y).getD 0

section Lengths

variable (boxes : List Box)

@[simp] theorem breadth_nil : breadth boxes [] = 0 := rfl

@[simp] theorem breadth_cons (i : Nat) (is : List Nat) :
    breadth boxes (i :: is) = (extents boxes i).x + breadth boxes is := by
  rw [breadth, List.map_cons, List.sum_cons, breadth]

theorem breadth_append (is js : List Nat) :
    breadth boxes (is ++ js) = breadth boxes is + breadth boxes js := by
  rw [breadth, List.map_append, List.sum_append, breadth, breadth]

@[simp] theorem rise_cons (i : Nat) (is : List Nat) : rise boxes (i :: is) = (extents boxes i).y :=
  rfl

variable {boxes}

theorem breadth_nonneg (h : ∀ b ∈ boxes, 0 ≤ b.x) (is : List Nat) : 0 ≤ breadth boxes is := by
  apply List.sum_nonneg
  intro x hx
  obtain ⟨i, _, rfl⟩ := List.mem_map.mp hx
  exact extents_nonneg h i

theorem rise_nonneg (h : ∀ b ∈ boxes, 0 ≤ b.y) (is : List Nat) : 0 ≤ rise boxes is := by
  cases is with
  | nil => exact le_rfl
  | cons i rest =>
      rw [rise_cons, extents]
      cases hi : boxes[i]? with
      | none => exact le_rfl
      | some box => exact h box (List.mem_of_getElem? hi)

end Lengths

/-- A row holds boxes in the order in which they were packed, and has their width and the height of
the first one. -/
structure Filled (boxes : List Box) (row : Row) : Prop where
  inhabited : row.boxes ≠ []
  ordered : row.boxes.Pairwise (Before boxes)
  width_eq : row.width = breadth boxes row.boxes
  height_eq : row.height = rise boxes row.boxes

/-- Rows are filled, and fall in height. -/
structure Stacked (boxes : List Box) (rows : List Row) : Prop where
  filled : ∀ row ∈ rows, Filled boxes row
  falling : (rows.map Row.height).Pairwise fun a b => b ≤ a

variable {boxes : List Box} {rows : List Row}

section Filling

theorem filled_single {i : Nat} {box : Box} (hbox : boxes[i]? = some box) (hheight : 0 ≤ box.y) :
    Filled boxes (({} : Row).push i box) := by
  refine ⟨List.cons_ne_nil i [], List.pairwise_singleton _ i, ?_, ?_⟩
  · change 0 + box.x = breadth boxes [i]
    rw [breadth_cons, breadth_nil, extents_of_some hbox, zero_add, add_zero]
  · change max 0 box.y = rise boxes [i]
    rw [rise_cons, extents_of_some hbox, max_eq_right hheight]

/-- A box that is packed after those in a row is no taller than the row. -/
theorem Filled.le_height {row : Row} (h : Filled boxes row) {i : Nat}
    (hbefore : ∀ j ∈ row.boxes, Before boxes j i) : (extents boxes i).y ≤ row.height := by
  rw [h.height_eq]
  obtain ⟨j, rest, heq⟩ := List.exists_cons_of_ne_nil h.inhabited
  rw [heq, rise_cons]
  exact (hbefore j (heq ▸ List.mem_cons_self)).height_le

theorem Filled.height_push {row : Row} (h : Filled boxes row) {i : Nat} {box : Box}
    (hbox : boxes[i]? = some box) (hbefore : ∀ j ∈ row.boxes, Before boxes j i) :
    (row.push i box).height = row.height := by
  have hle := h.le_height hbefore
  rw [extents_of_some hbox] at hle
  exact max_eq_left hle

theorem Filled.push {row : Row} (h : Filled boxes row) {i : Nat} {box : Box}
    (hbox : boxes[i]? = some box) (hbefore : ∀ j ∈ row.boxes, Before boxes j i) :
    Filled boxes (row.push i box) := by
  refine ⟨?_, ?_, ?_, ?_⟩
  · exact List.append_ne_nil_of_left_ne_nil h.inhabited [i]
  · refine List.pairwise_append.mpr ⟨h.ordered, List.pairwise_singleton _ i, ?_⟩
    intro j hj k hk
    rw [List.mem_singleton.mp hk]
    exact hbefore j hj
  · change row.width + box.x = breadth boxes (row.boxes ++ [i])
    rw [breadth_append, breadth_cons, breadth_nil, extents_of_some hbox, h.width_eq, add_zero]
  · rw [h.height_push hbox hbefore, h.height_eq]
    obtain ⟨j, rest, heq⟩ := List.exists_cons_of_ne_nil h.inhabited
    change rise boxes row.boxes = rise boxes (row.boxes ++ [i])
    rw [heq, List.cons_append, rise_cons, rise_cons]

/-- One step of filling rows: a box that is packed after all those in the rows joins them. -/
theorem Stacked.putInto (h : Stacked boxes rows) {k i : Nat} {box : Box}
    (hbox : boxes[i]? = some box) (hheight : 0 ≤ box.y)
    (hbefore : ∀ row ∈ rows, ∀ j ∈ row.boxes, Before boxes j i) :
    Stacked boxes (putInto rows k i box) := by
  rw [Packing.putInto]
  by_cases hk : k < rows.length
  · rw [if_pos hk]
    constructor
    · intro row hrow
      rcases mem_modify hrow with hmem | ⟨row', hmem, rfl⟩
      · exact h.filled row hmem
      · exact (h.filled row' hmem).push hbox (hbefore row' hmem)
    · have hheights : (rows.modify k (·.push i box)).map Row.height = rows.map Row.height := by
        apply List.ext_getElem?
        intro m
        rw [List.getElem?_map, List.getElem?_map, List.getElem?_modify, Option.map_eq_map,
          Option.map_map]
        apply Option.map_congr
        intro row hrow
        have hmem := List.mem_of_getElem? hrow
        rw [Function.comp_apply]
        by_cases hkm : k = m
        · rw [if_pos hkm]
          exact (h.filled row hmem).height_push hbox (hbefore row hmem)
        · rw [if_neg hkm]
      rw [hheights]
      exact h.falling
  · rw [if_neg hk]
    have hnew := filled_single hbox hheight
    constructor
    · intro row hrow
      rcases List.mem_append.mp hrow with hmem | hmem
      · exact h.filled row hmem
      · rw [List.mem_singleton.mp hmem]
        exact hnew
    · rw [List.map_append, List.pairwise_append]
      refine ⟨h.falling, List.pairwise_singleton _ _, ?_⟩
      intro a ha b hb
      obtain ⟨row, hrow, rfl⟩ := List.mem_map.mp ha
      obtain rfl := List.mem_singleton.mp hb
      rw [hnew.height_eq]
      exact (h.filled row hrow).le_height (hbefore row hrow)

variable {α : Type} [Scalar α] {ratio : α}

/-- However rows are chosen, boxes that are taken in order are stacked. -/
theorem fill_stacked {items : List (Nat × Box)} {rows' : List Row}
    (h : fill ratio items rows = .ok rows') (hrows : Stacked boxes rows)
    (hitems : ∀ x ∈ items, boxes[x.1]? = some x.2 ∧ 0 ≤ x.2.y)
    (hordered : (items.map Prod.fst).Pairwise (Before boxes))
    (hbefore : ∀ row ∈ rows, ∀ j ∈ row.boxes, ∀ x ∈ items, Before boxes j x.1) :
    Stacked boxes rows' := by
  induction items generalizing rows with
  | nil =>
      obtain rfl := Except.ok.inj h
      exact hrows
  | cons x rest ih =>
      obtain ⟨k, _, h⟩ := bind_eq_ok.mp h
      obtain ⟨hbox, hheight⟩ := hitems x List.mem_cons_self
      rw [List.map_cons, List.pairwise_cons] at hordered
      have hnext := hrows.putInto (k := k) hbox hheight fun row hrow j hj =>
        hbefore row hrow j hj x List.mem_cons_self
      apply ih h hnext (fun y hy => hitems y (List.mem_cons_of_mem x hy)) hordered.2
      -- the boxes in the rows are those from before, and the one that was put into them
      intro row hrow j hj y hy
      have hj' : j ∈ (Packing.putInto rows k x.1 x.2).flatMap Row.boxes :=
        List.mem_flatMap.mpr ⟨row, hrow, hj⟩
      rcases List.mem_cons.mp ((perm_putInto k x.1 x.2).mem_iff.mp hj') with rfl | hold
      · exact hordered.1 y.1 (List.mem_map_of_mem hy)
      · obtain ⟨row', hrow', hj''⟩ := List.mem_flatMap.mp hold
        exact hbefore row' hrow' j hj'' y (List.mem_cons_of_mem x hy)

end Filling

section Places

theorem mem_offsetsInRow (boxes : List Box) (y x : Int) {is : List Nat} {p i : Nat}
    (h : is[p]? = some i) :
    (i, ⟨x + breadth boxes (is.take p), y⟩) ∈ offsetsInRow boxes y x is := by
  induction is generalizing x p with
  | nil => cases h
  | cons j rest ih =>
      rw [offsetsInRow]
      cases p with
      | zero =>
          obtain rfl := Option.some.inj h
          rw [List.take_zero, breadth_nil, add_zero]
          exact List.mem_cons_self
      | succ p =>
          have hstep : ((boxes[j]?).map (·.x)).getD 0 = (extents boxes j).x := by
            rw [extents]
            cases boxes[j]? <;> rfl
          rw [List.take_succ_cons, breadth_cons, hstep, ← add_assoc]
          exact List.mem_cons_of_mem _ (ih _ h)

/-- A box lies behind those in front of it in its row, and below the rows above its own. -/
theorem mem_offsetsFrom_of_place (boxes : List Box) (y : Int) {k p i : Nat} {row : Row}
    (hk : rows[k]? = some row) (hp : row.boxes[p]? = some i) :
    (i, ⟨breadth boxes (row.boxes.take p), y + ((rows.take k).map Row.height).sum⟩) ∈
      offsetsFrom boxes y rows := by
  induction rows generalizing y k with
  | nil => cases hk
  | cons r rest ih =>
      rw [offsetsFrom]
      cases k with
      | zero =>
          obtain rfl := Option.some.inj hk
          have hmem := mem_offsetsInRow boxes y 0 hp
          rw [zero_add] at hmem
          rw [List.take_zero, List.map_nil, List.sum_nil, add_zero]
          exact List.mem_append_left _ hmem
      | succ k =>
          rw [List.take_succ_cons, List.map_cons, List.sum_cons, ← add_assoc]
          exact List.mem_append_right _ (ih _ hk)

end Places

/-- Offsets put boxes on shelves. Each box is on one shelf; a shelf lists its boxes in the order in
which they are packed; shelves fall in height; and a box lies behind those in front of it on its
shelf and below the shelves above its own, each of which is as high as its first box. -/
structure Shelving (boxes : List Box) (os : List Offset) (shelves : List (List Nat)) : Prop where
  length_eq : os.length = boxes.length
  once : shelves.flatten.Perm (List.range boxes.length)
  inhabited : ∀ shelf ∈ shelves, shelf ≠ []
  ordered : ∀ shelf ∈ shelves, shelf.Pairwise (Before boxes)
  falling : (shelves.map (rise boxes)).Pairwise fun a b => b ≤ a
  offset_eq : ∀ (k : Nat) (shelf : List Nat) (p i : Nat), shelves[k]? = some shelf →
    shelf[p]? = some i → os[i]? =
      some (⟨breadth boxes (shelf.take p), ((shelves.take k).map (rise boxes)).sum⟩ : Offset)

/-- No two boxes at their offsets overlap. -/
def Apart (os : List Offset) (boxes : List Box) : Prop :=
  ∀ (i j : Nat) (o p : Offset) (b c : Box), i ≠ j → os[i]? = some o → boxes[i]? = some b →
    os[j]? = some p → boxes[j]? = some c → overlap o b p c = false

section Answers

/-- Where rows hold each box once, each box has a place in one of them. -/
theorem exists_place {n i : Nat} (hperm : (rows.flatMap Row.boxes).Perm (List.range n))
    (hi : i < n) :
    ∃ (k : Nat) (row : Row) (q : Nat), rows[k]? = some row ∧ row.boxes[q]? = some i := by
  obtain ⟨row, hrow, hmem⟩ :=
    List.mem_flatMap.mp (hperm.mem_iff.mpr (List.mem_range.mpr hi))
  obtain ⟨k, hk⟩ := List.mem_iff_getElem?.mp hrow
  obtain ⟨q, hq⟩ := List.mem_iff_getElem?.mp hmem
  exact ⟨k, row, q, hk, hq⟩

/-- Where rows hold each box once, the offset of a box says where it stands in its row, and which
rows are above this one. -/
theorem getElem?_offsets (hperm : (rows.flatMap Row.boxes).Perm (List.range boxes.length))
    {k p i : Nat} {row : Row} (hk : rows[k]? = some row) (hp : row.boxes[p]? = some i) :
    (offsets boxes rows)[i]? =
      some ⟨breadth boxes (row.boxes.take p), ((rows.take k).map Row.height).sum⟩ := by
  have hmem := mem_offsetsFrom_of_place boxes 0 hk hp
  rw [zero_add] at hmem
  have hnodup : ((offsetsFrom boxes 0 rows).map Prod.fst).Nodup := by
    rw [map_fst_offsetsFrom]
    exact hperm.nodup_iff.mpr List.nodup_range
  have hi : i < boxes.length := by
    have hin : i ∈ rows.flatMap Row.boxes :=
      List.mem_flatMap.mpr ⟨row, List.mem_of_getElem? hk, List.mem_of_getElem? hp⟩
    exact List.mem_range.mp (hperm.mem_iff.mp hin)
  rw [offsets, List.getElem?_map, List.getElem?_range hi, Option.map_some,
    lookup_of_mem hnodup hmem, Option.getD_some]

/-- Rows that are stacked and hold each box once are shelves. -/
theorem Stacked.shelving (h : Stacked boxes rows)
    (hperm : (rows.flatMap Row.boxes).Perm (List.range boxes.length)) :
    Shelving boxes (offsets boxes rows) (rows.map Row.boxes) := by
  have hheights : rows.map Row.height = (rows.map Row.boxes).map (rise boxes) := by
    rw [List.map_map]
    exact List.map_congr_left fun row hrow => (h.filled row hrow).height_eq
  refine ⟨length_offsets boxes rows, ?_, ?_, ?_, ?_, ?_⟩
  · rw [← List.flatMap_def]
    exact hperm
  · intro shelf hshelf
    obtain ⟨row, hrow, rfl⟩ := List.mem_map.mp hshelf
    exact (h.filled row hrow).inhabited
  · intro shelf hshelf
    obtain ⟨row, hrow, rfl⟩ := List.mem_map.mp hshelf
    exact (h.filled row hrow).ordered
  · rw [← hheights]
    exact h.falling
  · intro k shelf p i hk hp
    rw [List.getElem?_map, Option.map_eq_some_iff] at hk
    obtain ⟨row, hrow, rfl⟩ := hk
    rw [getElem?_offsets hperm hrow hp, List.map_take, hheights, ← List.map_take]

theorem Shelving.nonneg {os : List Offset} {shelves : List (List Nat)}
    (h : Shelving boxes os shelves) (hboxes : ∀ b ∈ boxes, 0 ≤ b.x ∧ 0 ≤ b.y) :
    ∀ o ∈ os, 0 ≤ o.x ∧ 0 ≤ o.y := by
  intro o ho
  obtain ⟨i, hi, rfl⟩ := List.getElem_of_mem ho
  have hin : i ∈ shelves.flatten :=
    h.once.mem_iff.mpr (List.mem_range.mpr (h.length_eq ▸ hi))
  obtain ⟨shelf, hshelf, hmem⟩ := List.mem_flatten.mp hin
  obtain ⟨k, hk⟩ := List.mem_iff_getElem?.mp hshelf
  obtain ⟨p, hp⟩ := List.mem_iff_getElem?.mp hmem
  have heq := h.offset_eq k shelf p i hk hp
  rw [List.getElem?_eq_getElem hi, Option.some.injEq] at heq
  rw [heq]
  refine ⟨breadth_nonneg (fun b hb => (hboxes b hb).1) _, ?_⟩
  apply List.sum_nonneg
  intro y hy
  obtain ⟨is, _, rfl⟩ := List.mem_map.mp hy
  exact rise_nonneg (fun b hb => (hboxes b hb).2) is

/-- Whatever the packing answers puts the boxes on shelves. -/
theorem shelving_of_rows {α : Type} [Scalar α] {ratio : α} {os : List Offset}
    (h : Packing.rows boxes ratio = .ok os) (hboxes : ∀ b ∈ boxes, 0 ≤ b.y) :
    ∃ shelves, Shelving boxes os shelves := by
  obtain ⟨filled, hfill, h⟩ := bind_eq_ok.mp h
  obtain rfl := pure_eq_ok.mp h
  have hitems : ∀ x ∈ ordered boxes, boxes[x.1]? = some x.2 ∧ 0 ≤ x.2.y := by
    intro x hx
    have hbox := mem_ordered_iff.mp hx
    exact ⟨hbox, hboxes x.2 (List.mem_of_getElem? hbox)⟩
  have hstacked := fill_stacked hfill ⟨fun _ hrow => absurd hrow List.not_mem_nil,
    List.Pairwise.nil⟩ hitems (pairwise_before_ordered boxes) fun _ hrow =>
      absurd hrow List.not_mem_nil
  exact ⟨_, hstacked.shelving (fill_ordered hfill).2⟩

theorem apart_of_rows {α : Type} [Scalar α] {ratio : α} {os : List Offset}
    (h : Packing.rows boxes ratio = .ok os) (hboxes : ∀ b ∈ boxes, 0 ≤ b.x) : Apart os boxes := by
  have hseparate := List.pairwise_iff_getElem.mp (rows_separate h hboxes)
  have hforward : ∀ (i j : Nat) (o p : Offset) (b c : Box), i < j → os[i]? = some o →
      boxes[i]? = some b → os[j]? = some p → boxes[j]? = some c →
        overlap o b p c = false := by
    intro i j o p b c hij hio hib hjp hjc
    obtain ⟨hi, rfl⟩ := List.getElem?_eq_some_iff.mp hio
    obtain ⟨hi', rfl⟩ := List.getElem?_eq_some_iff.mp hib
    obtain ⟨hj, rfl⟩ := List.getElem?_eq_some_iff.mp hjp
    obtain ⟨hj', rfl⟩ := List.getElem?_eq_some_iff.mp hjc
    have hlength : (os.zip boxes).length = min os.length boxes.length := List.length_zip
    have hfalse := hseparate i j (by omega) (by omega) hij
    rwa [List.getElem_zip, List.getElem_zip] at hfalse
  intro i j o p b c hne hio hib hjp hjc
  rcases Nat.lt_or_gt_of_ne hne with hlt | hgt
  · exact hforward i j o p b c hlt hio hib hjp hjc
  · rw [overlap_comm]
    exact hforward j i p o c b hgt hjp hjc hio hib

end Answers

section Counting

theorem overlapsWith_eq_zero {o : Offset} {b : Box} {os : List Offset} {bs : List Box}
    (hlength : os.length = bs.length)
    (h : ∀ (j : Nat) p c, os[j]? = some p → bs[j]? = some c → overlap o b p c = false) :
    overlapsWith o b os bs = .ok 0 := by
  induction os generalizing bs with
  | nil =>
      obtain rfl := List.length_eq_zero_iff.mp hlength.symm
      rfl
  | cons p os ih =>
      cases bs with
      | nil => cases hlength
      | cons c bs =>
          have hrest := ih (Nat.succ.inj hlength) fun j p c hp hc => h (j + 1) p c hp hc
          have hfirst := h 0 p c rfl rfl
          rw [overlapsWith, hrest, ok_bind, hfirst]
          rfl

/-- Boxes that are apart have no overlaps to be counted. -/
theorem countOverlaps_of_apart {os : List Offset} (hlength : os.length = boxes.length)
    (h : Apart os boxes) : countOverlaps os boxes = .ok 0 := by
  induction os generalizing boxes with
  | nil =>
      obtain rfl := List.length_eq_zero_iff.mp hlength.symm
      rfl
  | cons o os ih =>
      match boxes, hlength with
      | [_], _ => rfl
      | b :: c :: bs, hlength =>
          have hrest : countOverlaps os (c :: bs) = .ok 0 := by
            apply ih (Nat.succ.inj hlength)
            intro i j o p b' c' hne hio hib hjp hjc
            exact h (i + 1) (j + 1) o p b' c' (by omega) hio hib hjp hjc
          have hfirst : overlapsWith o b os (c :: bs) = .ok 0 := by
            apply overlapsWith_eq_zero (Nat.succ.inj hlength)
            intro j p c' hp hc
            exact h 0 (j + 1) o p b c' (by omega) rfl rfl hp hc
          rw [countOverlaps, hfirst, ok_bind, hrest]
          · rfl
          · exact List.cons_ne_nil c bs

end Counting

end PackedDrawing.Packing
