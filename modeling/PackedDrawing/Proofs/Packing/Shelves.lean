import Mathlib.Data.List.Pairwise
import PackedDrawing.Proofs.Reals.Scalar
import PackedDrawing.Proofs.Outcome
import PackedDrawing.Packing.Overlap
import PackedDrawing.Packing.Packer

/-!
# Boxes in rows do not overlap

Rows are shelves: the boxes of a row stand side by side, none is taller than its row, and rows lie
below one another. Whatever row each box is put into, no two boxes overlap, and each box is put into
one row.

## Main definitions

* `Packing.extents`: the extents of the box with a number.
* `Packing.Shelved`: no box is taller than its row.

## Main statements

* `Packing.fill_preserves`: what one step of filling rows keeps, all of them keep.
* `Packing.fill_shelved`: the invariant of filling rows.
* `Packing.length_rows`, `Packing.rows_separate`: the packing has an offset for each box, and no two
  boxes overlap.
-/

namespace PackedDrawing.Packing

/-- The extents of the box with a number; zero where there is no box. -/
def extents (boxes : List Box) (i : Nat) : Box := (boxes[i]?).getD ⟨0, 0⟩

/-- No box is taller than the row it is in. -/
structure Shelved (boxes : List Box) (rows : List Row) : Prop where
  height_nonneg : ∀ row ∈ rows, 0 ≤ row.height
  le_height : ∀ row ∈ rows, ∀ i ∈ row.boxes, (extents boxes i).y ≤ row.height

variable {boxes : List Box} {rows : List Row}

theorem extents_of_some {i : Nat} {box : Box} (h : boxes[i]? = some box) :
    extents boxes i = box := by
  rw [extents, h]
  rfl

theorem overlap_eq_false_iff {o p : Offset} {b c : Box} :
    overlap o b p c = false ↔
      o.x + b.x ≤ p.x ∨ p.x + c.x ≤ o.x ∨ o.y + b.y ≤ p.y ∨ p.y + c.y ≤ o.y := by
  rw [← Bool.not_eq_true, overlap]
  simp only [Bool.and_eq_true, decide_eq_true_eq]
  omega

section Filling

theorem mem_putInto {k i : Nat} {box : Box} {row : Row} (h : row ∈ putInto rows k i box) :
    row ∈ rows ∨ ∃ row', (row' ∈ rows ∨ row' = {}) ∧ row = row'.push i box := by
  rw [putInto] at h
  by_cases hk : k < rows.length
  · rw [if_pos hk] at h
    rcases mem_modify h with hmem | ⟨row', hmem, heq⟩
    · exact Or.inl hmem
    · exact Or.inr ⟨row', Or.inl hmem, heq⟩
  · rw [if_neg hk, List.mem_append, List.mem_singleton] at h
    rcases h with h | h
    · exact Or.inl h
    · exact Or.inr ⟨{}, Or.inr rfl, h⟩

theorem Shelved.putInto {k i : Nat} {box : Box} (h : Shelved boxes rows)
    (hbox : boxes[i]? = some box) : Shelved boxes (putInto rows k i box) := by
  constructor
  · intro row hrow
    rcases mem_putInto hrow with hmem | ⟨row', hmem | rfl, rfl⟩
    · exact h.height_nonneg row hmem
    · exact le_max_of_le_left (h.height_nonneg row' hmem)
    · exact le_max_left _ _
  · intro row hrow j hj
    rcases mem_putInto hrow with hmem | ⟨row', hmem, rfl⟩
    · exact h.le_height row hmem j hj
    · rcases List.mem_append.mp hj with hj | hj
      · rcases hmem with hmem | rfl
        · exact le_max_of_le_left (h.le_height row' hmem j hj)
        · cases hj
      · rw [List.mem_singleton.mp hj, extents_of_some hbox]
        exact le_max_right _ _

/-- A box joins the boxes in rows. -/
theorem perm_putInto (k i : Nat) (box : Box) :
    ((putInto rows k i box).flatMap Row.boxes).Perm (i :: rows.flatMap Row.boxes) := by
  have hmodify : ∀ (rs : List Row) (k : Nat), k < rs.length →
      ((rs.modify k (·.push i box)).flatMap Row.boxes).Perm (i :: rs.flatMap Row.boxes) := by
    intro rs
    induction rs with
    | nil =>
        intro k hk
        exact absurd hk (Nat.not_lt_zero k)
    | cons row rest ih =>
        intro k hk
        cases k with
        | zero =>
            rw [List.modify_zero_cons, List.flatMap_cons, List.flatMap_cons, Row.push,
              List.append_assoc]
            exact List.perm_middle
        | succ k =>
            rw [List.modify_succ_cons, List.flatMap_cons, List.flatMap_cons]
            have hrest := ih k (Nat.lt_of_succ_lt_succ hk)
            exact (hrest.append_left row.boxes).trans List.perm_middle
  rw [putInto]
  by_cases hk : k < rows.length
  · rw [if_pos hk]
    exact hmodify rows k hk
  · rw [if_neg hk, List.flatMap_append]
    exact List.perm_append_singleton i _

variable {α : Type} [Scalar α] {ratio : α}

theorem fill_append (ratio : α) (items later : List (Nat × Box)) (rows : List Row) :
    fill ratio (items ++ later) rows = fill ratio items rows >>= fill ratio later := by
  induction items generalizing rows with
  | nil => rfl
  | cons x rest ih =>
      rw [List.cons_append, fill, fill]
      cases bestRow ratio rows x.2 with
      | error e => rfl
      | ok k => exact ih _

/-- What every step of filling rows keeps holds of the filled rows. -/
theorem fill_preserves {P : List Row → Prop} {items : List (Nat × Box)} {rows' : List Row}
    (h : fill ratio items rows = .ok rows')
    (hstep : ∀ rows k x, x ∈ items → P rows → P (putInto rows k x.1 x.2)) (hrows : P rows) :
    P rows' := by
  induction items generalizing rows with
  | nil =>
      obtain rfl := Except.ok.inj h
      exact hrows
  | cons x rest ih =>
      obtain ⟨k, _, h⟩ := bind_eq_ok.mp h
      exact ih h (fun rows k y hy => hstep rows k y (List.mem_cons_of_mem x hy))
        (hstep rows k x List.mem_cons_self hrows)

/-- Each box is put into one row. -/
theorem perm_fill {items : List (Nat × Box)} {rows' : List Row}
    (h : fill ratio items rows = .ok rows') :
    (rows'.flatMap Row.boxes).Perm (items.map Prod.fst ++ rows.flatMap Row.boxes) := by
  induction items generalizing rows with
  | nil =>
      obtain rfl := Except.ok.inj h
      exact List.Perm.refl _
  | cons x rest ih =>
      obtain ⟨k, _, h⟩ := bind_eq_ok.mp h
      rw [List.map_cons, List.cons_append]
      exact (ih h).trans (((perm_putInto k x.1 x.2).append_left _).trans List.perm_middle)

/-- While rows are filled, no box is taller than its row. -/
theorem fill_shelved {items : List (Nat × Box)} {rows' : List Row}
    (h : fill ratio items rows = .ok rows') (hrows : Shelved boxes rows)
    (hitems : ∀ x ∈ items, boxes[x.1]? = some x.2) : Shelved boxes rows' :=
  fill_preserves h (fun _ _ x hx hrows => hrows.putInto (hitems x hx)) hrows

theorem mem_ordered_iff {x : Nat × Box} : x ∈ ordered boxes ↔ boxes[x.1]? = some x.2 := by
  rw [ordered, (List.mergeSort_perm _ _).mem_iff, List.mem_mapIdx]
  constructor
  · rintro ⟨i, hi, rfl⟩
    exact List.getElem?_eq_getElem hi
  · intro h
    obtain ⟨hi, heq⟩ := List.getElem?_eq_some_iff.mp h
    exact ⟨x.1, hi, by rw [heq]⟩

theorem map_fst_mapIdx (boxes : List Box) :
    (boxes.mapIdx fun i b => (i, b)).map Prod.fst = List.range boxes.length :=
  List.ext_getElem (by simp) (by simp)

theorem ordered_perm (boxes : List Box) :
    ((ordered boxes).map Prod.fst).Perm (List.range boxes.length) := by
  refine ((List.mergeSort_perm _ _).map Prod.fst).trans ?_
  rw [map_fst_mapIdx]

end Filling

section Offsets

/-- Where names are different, an entry is found under its name. -/
theorem lookup_of_mem {β : Type} {l : List (Nat × β)} (h : (l.map Prod.fst).Nodup) {i : Nat} {b : β}
    (hmem : (i, b) ∈ l) : l.lookup i = some b := by
  obtain ⟨before, after, rfl⟩ := List.append_of_mem hmem
  rw [List.map_append, List.map_cons, List.nodup_append'] at h
  refine List.lookup_eq_some_iff.mpr ⟨before, after, rfl, ?_⟩
  intro e he
  rw [bne_iff_ne]
  rintro rfl
  exact h.2.2 (List.mem_map_of_mem he) List.mem_cons_self

/-- The boxes of a row lie at the height of the row and behind one another. -/
theorem offsetsInRow_bounds (hwide : ∀ i, 0 ≤ (extents boxes i).x) (y x : Int) (is : List Nat) :
    (∀ p ∈ offsetsInRow boxes y x is, p.1 ∈ is ∧ p.2.y = y ∧ x ≤ p.2.x) ∧
      (offsetsInRow boxes y x is).Pairwise fun p q => p.2.x + (extents boxes p.1).x ≤ q.2.x := by
  induction is generalizing x with
  | nil => exact ⟨fun p hp => absurd hp List.not_mem_nil, List.Pairwise.nil⟩
  | cons i rest ih =>
      have hstep : ((boxes[i]?).map (·.x)).getD 0 = (extents boxes i).x := by
        rw [extents]
        cases boxes[i]? <;> rfl
      rw [offsetsInRow, hstep]
      obtain ⟨hall, hpairwise⟩ := ih (x + (extents boxes i).x)
      have hi := hwide i
      constructor
      · intro p hp
        rcases List.mem_cons.mp hp with rfl | hp
        · exact ⟨List.mem_cons_self, rfl, le_rfl⟩
        · obtain ⟨hmem, hy, hx⟩ := hall p hp
          exact ⟨List.mem_cons_of_mem i hmem, hy, by omega⟩
      · rw [List.pairwise_cons]
        exact ⟨fun p hp => (hall p hp).2.2, hpairwise⟩

/-- Rows lie below one another, so no two boxes in them overlap. -/
theorem offsetsFrom_separate (hwide : ∀ i, 0 ≤ (extents boxes i).x) (hrows : Shelved boxes rows)
    (y : Int) :
    (∀ p ∈ offsetsFrom boxes y rows, y ≤ p.2.y) ∧
      (offsetsFrom boxes y rows).Pairwise fun p q =>
        overlap p.2 (extents boxes p.1) q.2 (extents boxes q.1) = false := by
  induction rows generalizing y with
  | nil => exact ⟨fun p hp => absurd hp List.not_mem_nil, List.Pairwise.nil⟩
  | cons row rest ih =>
      have hrest : Shelved boxes rest :=
        ⟨fun r hr => hrows.height_nonneg r (List.mem_cons_of_mem row hr),
          fun r hr => hrows.le_height r (List.mem_cons_of_mem row hr)⟩
      obtain ⟨hbelow, hpairwise⟩ := ih hrest (y + row.height)
      obtain ⟨hrow, hbehind⟩ := offsetsInRow_bounds hwide y 0 row.boxes
      have hheight := hrows.height_nonneg row List.mem_cons_self
      rw [offsetsFrom]
      constructor
      · intro p hp
        rcases List.mem_append.mp hp with hp | hp
        · exact (hrow p hp).2.1.ge
        · have hle := hbelow p hp
          omega
      · refine List.pairwise_append.mpr ⟨?_, hpairwise, ?_⟩
        · refine hbehind.imp ?_
          intro p q hle
          exact overlap_eq_false_iff.mpr (Or.inl hle)
        · intro p hp q hq
          obtain ⟨hmem, hy, _⟩ := hrow p hp
          have htall := hrows.le_height row List.mem_cons_self p.1 hmem
          have hle := hbelow q hq
          exact overlap_eq_false_iff.mpr (Or.inr (Or.inr (Or.inl (by omega))))

theorem map_fst_offsetsInRow (y x : Int) (is : List Nat) :
    (offsetsInRow boxes y x is).map Prod.fst = is := by
  induction is generalizing x with
  | nil => rfl
  | cons i rest ih => rw [offsetsInRow, List.map_cons, ih]

theorem map_fst_offsetsFrom (y : Int) :
    (offsetsFrom boxes y rows).map Prod.fst = rows.flatMap Row.boxes := by
  induction rows generalizing y with
  | nil => rfl
  | cons row rest ih =>
      rw [offsetsFrom, List.map_append, map_fst_offsetsInRow, ih, List.flatMap_cons]

theorem length_offsets (boxes : List Box) (rows : List Row) :
    (offsets boxes rows).length = boxes.length := by
  rw [offsets, List.length_map, List.length_range]

theorem extents_nonneg (hboxes : ∀ b ∈ boxes, 0 ≤ b.x) (i : Nat) : 0 ≤ (extents boxes i).x := by
  rw [extents]
  cases hi : boxes[i]? with
  | none => exact le_rfl
  | some box => exact hboxes box (List.mem_of_getElem? hi)

/-- The offset of a box is the one that its row gave to it. -/
theorem mem_offsetsFrom (hperm : (rows.flatMap Row.boxes).Perm (List.range boxes.length)) {i : Nat}
    (hi : i < (offsets boxes rows).length) :
    (i, (offsets boxes rows)[i]) ∈ offsetsFrom boxes 0 rows := by
  have hnodup : ((offsetsFrom boxes 0 rows).map Prod.fst).Nodup := by
    rw [map_fst_offsetsFrom]
    exact hperm.nodup_iff.mpr List.nodup_range
  have hmem : i ∈ (offsetsFrom boxes 0 rows).map Prod.fst := by
    rw [map_fst_offsetsFrom]
    exact hperm.mem_iff.mpr (List.mem_range.mpr (length_offsets boxes rows ▸ hi))
  obtain ⟨⟨j, o⟩, hio, rfl⟩ := List.mem_map.mp hmem
  have hlookup : (offsetsFrom boxes 0 rows).lookup j = some o := lookup_of_mem hnodup hio
  simpa [offsets, hlookup] using hio

/-- No two boxes overlap when they are put where their rows have them. -/
theorem offsets_separate (hboxes : ∀ b ∈ boxes, 0 ≤ b.x) (hrows : Shelved boxes rows)
    (hperm : (rows.flatMap Row.boxes).Perm (List.range boxes.length)) :
    ((offsets boxes rows).zip boxes).Pairwise fun a b => overlap a.1 a.2 b.1 b.2 = false := by
  obtain ⟨_, hseparate⟩ := offsetsFrom_separate (extents_nonneg hboxes) hrows 0
  have hlength := length_offsets boxes rows
  have hsymm : Std.Symm fun p q : Nat × Offset =>
      overlap p.2 (extents boxes p.1) q.2 (extents boxes q.1) = false := by
    constructor
    intro p q h
    rw [overlap_comm]
    exact h
  rw [List.pairwise_iff_getElem]
  intro i j hi hj hij
  rw [List.length_zip, hlength, Nat.min_self] at hi hj
  have hne : (i, (offsets boxes rows)[i]) ≠ (j, (offsets boxes rows)[j]) := fun heq =>
    Nat.ne_of_lt hij (Prod.mk.inj heq).1
  have hfalse := hseparate.forall (mem_offsetsFrom hperm (hlength.symm ▸ hi))
    (mem_offsetsFrom hperm (hlength.symm ▸ hj)) hne
  rw [List.getElem_zip, List.getElem_zip]
  simpa only [extents_of_some (List.getElem?_eq_getElem hi),
    extents_of_some (List.getElem?_eq_getElem hj)] using hfalse

end Offsets

theorem shelved_nil (boxes : List Box) : Shelved boxes [] :=
  ⟨fun _ hrow => absurd hrow List.not_mem_nil, fun _ hrow => absurd hrow List.not_mem_nil⟩

/-- When all boxes have been put into rows, the rows hold each of them once. -/
theorem fill_ordered {α : Type} [Scalar α] {ratio : α} {filled : List Row}
    (h : fill ratio (ordered boxes) [] = .ok filled) :
    Shelved boxes filled ∧ (filled.flatMap Row.boxes).Perm (List.range boxes.length) := by
  have hperm := perm_fill h
  rw [List.flatMap_nil, List.append_nil] at hperm
  exact ⟨fill_shelved h (shelved_nil boxes) fun x hx => mem_ordered_iff.mp hx,
    hperm.trans (ordered_perm boxes)⟩

theorem length_rows {α : Type} [Scalar α] {ratio : α} {os : List Offset}
    (h : Packing.rows boxes ratio = .ok os) : os.length = boxes.length := by
  obtain ⟨filled, _, h⟩ := bind_eq_ok.mp h
  obtain rfl := pure_eq_ok.mp h
  exact length_offsets boxes filled

/-- Whatever the packing answers, no two boxes overlap. -/
theorem rows_separate {α : Type} [Scalar α] {ratio : α} {os : List Offset}
    (h : Packing.rows boxes ratio = .ok os) (hboxes : ∀ b ∈ boxes, 0 ≤ b.x) :
    (os.zip boxes).Pairwise fun a b => overlap a.1 a.2 b.1 b.2 = false := by
  obtain ⟨filled, hfill, h⟩ := bind_eq_ok.mp h
  obtain rfl := pure_eq_ok.mp h
  obtain ⟨hshelved, hperm⟩ := fill_ordered hfill
  exact offsets_separate hboxes hshelved hperm

section Choosing

variable {α : Type} [Scalar α] {ratio : α}

theorem exists_improve {box : Box} (i : Nat) {rest : List Row} (best : Nat × Number α)
    (hcosts : ∀ row ∈ rest, ∃ c, costIn ratio rows box row = .ok c) :
    ∃ r, improve ratio rows box i rest best = .ok r := by
  induction rest generalizing i best with
  | nil => exact ⟨best, rfl⟩
  | cons row rest ih =>
      obtain ⟨c, hc⟩ := hcosts row List.mem_cons_self
      rw [improve, hc, ok_bind]
      exact ih _ _ fun r hr => hcosts r (List.mem_cons_of_mem row hr)

/-- A row can be chosen for a box as soon as each choice has a cost. -/
theorem exists_bestRow {box : Box}
    (hfresh : ∃ c, cost ratio (max (totalWidth rows) box.x) (totalHeight rows + box.y) = .ok c)
    (hcosts : ∀ row ∈ rows, ∃ c, costIn ratio rows box row = .ok c) :
    ∃ k, bestRow ratio rows box = .ok k := by
  obtain ⟨c, hc⟩ := hfresh
  obtain ⟨r, hr⟩ := exists_improve 0 (rows.length, c) hcosts
  rw [bestRow, hc, ok_bind, hr, ok_bind]
  exact ⟨r.1, rfl⟩

end Choosing

section Reals

variable (ratio : ℝ)

theorem exists_cost (width height : Int) : ∃ c, cost ratio width height = .ok c := by
  rw [cost]
  by_cases hzero : Scalar.eq ratio 0.0 = true
  · rw [if_pos hzero]
    exact ⟨_, rfl⟩
  · rw [if_neg hzero]
    exact ⟨_, rfl⟩

/-- In exact arithmetic every list of boxes can be packed. -/
theorem exists_fill (items : List (Nat × Box)) (rows : List Row) :
    ∃ rows', fill ratio items rows = .ok rows' := by
  induction items generalizing rows with
  | nil => exact ⟨rows, rfl⟩
  | cons x rest ih =>
      obtain ⟨k, hk⟩ := (exists_bestRow (exists_cost ratio _ _) fun _ _ => exists_cost ratio _ _ :
        ∃ k, bestRow ratio rows x.2 = .ok k)
      rw [fill, hk, ok_bind]
      exact ih _

theorem exists_rows (boxes : List Box) : ∃ os, Packing.rows boxes ratio = .ok os := by
  obtain ⟨filled, hfill⟩ := exists_fill ratio (ordered boxes) []
  rw [Packing.rows, hfill, ok_bind]
  exact ⟨_, rfl⟩

end Reals

end PackedDrawing.Packing
