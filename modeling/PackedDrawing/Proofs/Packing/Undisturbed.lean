import PackedDrawing.Proofs.Packing.Room

/-!
# Small boxes do not disturb larger ones

A box is never taller than a row that it is put into, so rows keep their height once they have been
opened, and a box is put behind those that are already there. Which row is chosen depends on the
sizes of the boxes and not on their numbers. So when the boxes that would be packed last are left
out, all others are put where they were.

## Main definitions

* `Packing.Extends`: rows have only grown at their ends, and there may be more of them.
* `Packing.Kept`: the numbers of the boxes that are kept when the last ones are left out.

## Main statements

* `Packing.fill_extends`: filling rows with lower boxes extends them.
* `Packing.fill_renumber`: the numbers of boxes do not matter.
* `Packing.Kept.ordered_eq`: the boxes that are kept are packed first, and in the same order.
* `Packer.rowsFor_kept`: the boxes that are kept have the same offsets.
-/

namespace PackedDrawing

namespace Packing

variable {α : Type} [Scalar α] {ratio : α} {rows rows' rows'' : List Row}

section Growing

/-- Rows have grown: each is as high as before and begins with the same boxes, and there may be more
rows below. -/
def Extends (rows rows' : List Row) : Prop :=
  ∀ (k : Nat) (row : Row), rows[k]? = some row →
    ∃ row', rows'[k]? = some row' ∧ row'.height = row.height ∧ row.boxes <+: row'.boxes

theorem Extends.refl (rows : List Row) : Extends rows rows :=
  fun _ row hrow => ⟨row, hrow, rfl, List.prefix_rfl⟩

theorem Extends.trans (h : Extends rows rows') (h' : Extends rows' rows'') :
    Extends rows rows'' := by
  intro k row hrow
  obtain ⟨row', hrow', hheight, hprefix⟩ := h k row hrow
  obtain ⟨row'', hrow'', hheight', hprefix'⟩ := h' k row' hrow'
  exact ⟨row'', hrow'', hheight'.trans hheight, hprefix.trans hprefix'⟩

/-- A box that is no taller than the rows makes them grow. -/
theorem extends_putInto (k i : Nat) {box : Box} (hlow : ∀ row ∈ rows, box.y ≤ row.height) :
    Extends rows (putInto rows k i box) := by
  intro m row hrow
  rw [putInto]
  by_cases hk : k < rows.length
  · rw [if_pos hk, List.getElem?_modify, hrow]
    by_cases hkm : k = m
    · refine ⟨row.push i box, by simp [hkm], ?_, List.prefix_append row.boxes [i]⟩
      exact max_eq_left (hlow row (List.mem_of_getElem? hrow))
    · exact ⟨row, by simp [hkm], rfl, List.prefix_rfl⟩
  · rw [if_neg hk, List.getElem?_append_left (List.getElem?_eq_some_iff.mp hrow).1]
    exact ⟨row, hrow, rfl, List.prefix_rfl⟩

/-- A box keeps its place while rows grow: it stands behind the same boxes, and the rows above its
own are as high as before. -/
theorem Extends.place (h : Extends rows rows') {k q i : Nat} {row : Row} (hk : rows[k]? = some row)
    (hq : row.boxes[q]? = some i) :
    ∃ row', rows'[k]? = some row' ∧ row'.boxes[q]? = some i ∧
      row'.boxes.take q = row.boxes.take q ∧
      (rows'.take k).map Row.height = (rows.take k).map Row.height := by
  obtain ⟨row', hk', _, later, hboxes⟩ := h k row hk
  have hklt := (List.getElem?_eq_some_iff.mp hk).1
  have hqlt := (List.getElem?_eq_some_iff.mp hq).1
  refine ⟨row', hk', ?_, ?_, ?_⟩
  · rw [← hboxes, List.getElem?_append_left hqlt, hq]
  · rw [← hboxes, List.take_append_of_le_length hqlt.le]
  · apply List.ext_getElem?
    intro m
    by_cases hm : m < k
    · have hmlt := List.getElem?_eq_getElem (hm.trans hklt)
      obtain ⟨_, hrow', hheight, _⟩ := h m _ hmlt
      simp [List.getElem?_take_of_lt hm, hrow', hheight, hmlt]
    · simp [hm]

/-- Rows extend while they are filled with boxes that are no taller than they are. -/
theorem fill_extends {items : List (Nat × Box)} (h : fill ratio items rows = .ok rows')
    (hlow : ∀ x ∈ items, ∀ row ∈ rows, x.2.y ≤ row.height)
    (hfalling : items.Pairwise fun a b => b.2.y ≤ a.2.y) : Extends rows rows' := by
  induction items generalizing rows with
  | nil =>
      obtain rfl := Except.ok.inj h
      exact Extends.refl rows
  | cons x rest ih =>
      obtain ⟨k, _, h⟩ := bind_eq_ok.mp h
      rw [List.pairwise_cons] at hfalling
      refine (extends_putInto k x.1 (hlow x List.mem_cons_self)).trans (ih h ?_ hfalling.2)
      -- the row that the box was put into is at least as high as the box
      intro y hy row hrow
      have hyx := hfalling.1 y hy
      rcases mem_putInto hrow with hmem | ⟨row', _, rfl⟩
      · exact hlow y (List.mem_cons_of_mem x hy) row hmem
      · exact hyx.trans (le_max_right _ _)

/-- Rows stay at least as high as all boxes that are put into them. -/
theorem fill_le_height {items : List (Nat × Box)} {bound : Int}
    (h : fill ratio items rows = .ok rows') (hrows : ∀ row ∈ rows, bound ≤ row.height)
    (hitems : ∀ x ∈ items, bound ≤ x.2.y) : ∀ row ∈ rows', bound ≤ row.height := by
  refine fill_preserves (P := fun rows => ∀ row ∈ rows, bound ≤ row.height) h ?_ hrows
  intro rows k x hx hrows row hrow
  rcases mem_putInto hrow with hmem | ⟨row', _, rfl⟩
  · exact hrows row hmem
  · exact (hitems x hx).trans (le_max_right _ _)

end Growing

section Renumbering

/-- A row with its boxes numbered in another way. -/
def Row.renumber (f : Nat → Nat) (row : Row) : Row := { row with boxes := row.boxes.map f }

variable (f : Nat → Nat)

theorem Row.renumber_push (row : Row) (i : Nat) (box : Box) :
    (row.push i box).renumber f = (row.renumber f).push (f i) box := by
  simp [renumber, push]

theorem totalWidth_renumber (rows : List Row) :
    totalWidth (rows.map (Row.renumber f)) = totalWidth rows := by
  cases rows with
  | nil => rfl
  | cons row rest =>
      rw [List.map_cons, totalWidth, totalWidth, List.foldl_map]
      rfl

theorem totalHeight_renumber (rows : List Row) :
    totalHeight (rows.map (Row.renumber f)) = totalHeight rows := by
  rw [totalHeight, totalHeight, List.map_map]
  rfl

theorem improve_renumber (rows : List Row) (box : Box) (i : Nat) (rest : List Row)
    (best : Nat × Number α) :
    improve ratio (rows.map (Row.renumber f)) box i (rest.map (Row.renumber f)) best =
      improve ratio rows box i rest best := by
  induction rest generalizing i best with
  | nil => rfl
  | cons row rest ih =>
      have hcost : costIn ratio (rows.map (Row.renumber f)) box (row.renumber f) =
          costIn ratio rows box row := by
        rw [costIn, costIn, totalWidth_renumber, totalHeight_renumber]
        rfl
      simp only [List.map_cons, improve, hcost, ih]

/-- Which row a box goes to does not depend on the numbers of boxes. -/
theorem bestRow_renumber (rows : List Row) (box : Box) :
    bestRow ratio (rows.map (Row.renumber f)) box = bestRow ratio rows box := by
  simp only [bestRow, totalWidth_renumber, totalHeight_renumber, improve_renumber, List.length_map]

theorem putInto_renumber (rows : List Row) (k i : Nat) (box : Box) :
    putInto (rows.map (Row.renumber f)) k (f i) box =
      (putInto rows k i box).map (Row.renumber f) := by
  rw [putInto, putInto, List.length_map]
  by_cases hk : k < rows.length
  · rw [if_pos hk, if_pos hk]
    apply List.ext_getElem?
    intro m
    simp only [List.getElem?_modify, List.getElem?_map, Option.map_eq_map, Option.map_map]
    apply Option.map_congr
    intro row _
    by_cases hkm : k = m
    · simp [hkm, Row.renumber_push]
    · simp [hkm]
  · rw [if_neg hk, if_neg hk, List.map_append, List.map_singleton, Row.renumber_push]
    rfl

/-- Boxes that are numbered in another way are put into the same rows. -/
theorem fill_renumber (items : List (Nat × Box)) (rows : List Row) :
    fill ratio (items.map fun x => (f x.1, x.2)) (rows.map (Row.renumber f)) =
      (fill ratio items rows).map (List.map (Row.renumber f)) := by
  induction items generalizing rows with
  | nil => rfl
  | cons x rest ih =>
      rw [List.map_cons, fill, fill, bestRow_renumber]
      cases bestRow ratio rows x.2 with
      | error e => rfl
      | ok k => rw [ok_bind, ok_bind, putInto_renumber, ih]

end Renumbering

/-- The numbers of the boxes that are kept, ascending. All others are packed after all of them. -/
structure Kept (boxes : List Box) (kept : List Nat) : Prop where
  ascending : kept.Pairwise (· < ·)
  inside : ∀ i ∈ kept, i < boxes.length
  before : ∀ i ∈ kept, ∀ j < boxes.length, j ∉ kept → Before boxes i j

namespace Kept

variable {boxes : List Box} {kept : List Nat}

/-- The boxes that are kept. -/
def select (boxes : List Box) (kept : List Nat) : List Box := kept.map (extents boxes)

/-- The number that a kept box had before. -/
def origin (kept : List Nat) (p : Nat) : Nat := kept.getD p 0

theorem origin_eq {p i : Nat} (h : kept[p]? = some i) : origin kept p = i := by
  rw [origin, List.getD_eq_getElem?_getD, h, Option.getD_some]

theorem extents_select {p i : Nat} (h : kept[p]? = some i) :
    extents (select boxes kept) p = extents boxes i := by
  rw [extents, select, List.getElem?_map, h]
  rfl

/-- Kept boxes are packed in the same order as before. -/
theorem before_origin (h : Kept boxes kept) {p q : Nat} (hp : p < kept.length)
    (hq : q < kept.length) (hpq : Before (select boxes kept) p q) :
    Before boxes (origin kept p) (origin kept q) := by
  have hp' := List.getElem?_eq_getElem hp
  have hq' := List.getElem?_eq_getElem hq
  rw [Before, extents_select hp', extents_select hq'] at hpq
  rw [origin_eq hp', origin_eq hq', Before]
  rcases hpq with hlower | ⟨hsame, hlt⟩
  · exact Or.inl hlower
  · exact Or.inr ⟨hsame, List.pairwise_iff_getElem.mp h.ascending p q hp hq hlt⟩

theorem mem_ordered_select_iff (h : Kept boxes kept) {x : Nat × Box} :
    (x ∈ (ordered (select boxes kept)).map fun y => (origin kept y.1, y.2)) ↔
      x.1 ∈ kept ∧ x ∈ ordered boxes := by
  simp only [List.mem_map, mem_ordered_iff, select, List.getElem?_map, Option.map_eq_some_iff]
  constructor
  · rintro ⟨⟨p, b⟩, ⟨i, hi, rfl⟩, rfl⟩
    have hmem := List.mem_of_getElem? hi
    have hbox := List.getElem?_eq_getElem (h.inside i hmem)
    simp only [origin_eq hi]
    exact ⟨hmem, by rw [extents_of_some hbox, hbox]⟩
  · rintro ⟨hmem, hbox⟩
    obtain ⟨p, hp⟩ := List.mem_iff_getElem?.mp hmem
    exact ⟨(p, x.2), ⟨x.1, hp, extents_of_some hbox⟩, by rw [origin_eq hp]⟩

/-- The boxes that are kept are packed first, in the same order. -/
theorem ordered_eq (h : Kept boxes kept) :
    ∃ rest, ordered boxes =
      (ordered (select boxes kept)).map (fun x => (origin kept x.1, x.2)) ++ rest := by
  have hall := List.pairwise_map.mp (pairwise_before_ordered boxes)
  have hkept : ((ordered (select boxes kept)).map fun x => (origin kept x.1, x.2)).Pairwise
      fun a b => Before boxes a.1 b.1 := by
    rw [List.pairwise_map]
    refine (List.pairwise_map.mp (pairwise_before_ordered (select boxes kept))).imp_of_mem ?_
    intro x y hx hy hxy
    have hlength : ∀ z ∈ ordered (select boxes kept), z.1 < kept.length := by
      intro z hz
      have hlt := (List.getElem?_eq_some_iff.mp (mem_ordered_iff.mp hz)).1
      rwa [select, List.length_map] at hlt
    exact h.before_origin (hlength x hx) (hlength y hy) hxy
  refine ⟨(ordered boxes).filter (·.1 ∉ kept), ?_⟩
  have hjoined := List.pairwise_append.mpr ⟨hkept, hall.filter (·.1 ∉ kept), by
    intro x hx y hy
    obtain ⟨hymem, hyout⟩ := List.mem_filter.mp hy
    refine h.before x.1 (h.mem_ordered_select_iff.mp hx).1 y.1 ?_ (of_decide_eq_true hyout)
    exact (List.getElem?_eq_some_iff.mp (mem_ordered_iff.mp hymem)).1⟩
  have hnodup : ∀ l : List (Nat × Box), l.Pairwise (fun a b => Before boxes a.1 b.1) → l.Nodup :=
    fun l hl => hl.imp fun hab heq => by
      subst heq
      exact hab.asymm hab
  -- both lists have the same members, and they are in the order in which boxes are packed
  refine List.Perm.eq_of_pairwise (fun a b _ _ hab hba => absurd hba hab.asymm) hall hjoined ?_
  rw [List.perm_ext_iff_of_nodup (hnodup _ hall) (hnodup _ hjoined)]
  intro x
  rw [List.mem_append, h.mem_ordered_select_iff, List.mem_filter, decide_eq_true_eq]
  tauto

theorem breadth_map_origin {is : List Nat} (his : ∀ p ∈ is, p < kept.length) :
    breadth boxes (is.map (origin kept)) = breadth (select boxes kept) is := by
  rw [breadth, breadth, List.map_map]
  apply congrArg List.sum
  apply List.map_congr_left
  intro p hp
  have hp' := List.getElem?_eq_getElem (his p hp)
  rw [Function.comp_apply, origin_eq hp', extents_select hp']

/-- When all boxes have been put into rows, the rows extend those that the kept boxes alone are put
into. -/
theorem exists_fill_extends (h : Kept boxes kept) {filled : List Row}
    (hfill : fill ratio (ordered boxes) [] = .ok filled) :
    ∃ first, fill ratio (ordered (select boxes kept)) [] = .ok first ∧
      Extends (first.map (Row.renumber (origin kept))) filled := by
  obtain ⟨rest, hordered⟩ := h.ordered_eq
  have hfalling := pairwise_height_ordered boxes
  rw [hordered, List.pairwise_append] at hfalling
  rw [hordered, fill_append] at hfill
  obtain ⟨grown, hgrown, hrest⟩ := bind_eq_ok.mp hfill
  have hextends : Extends grown filled := by
    refine fill_extends hrest ?_ hfalling.2.1
    intro x hx
    exact fill_le_height hgrown (fun _ hrow => absurd hrow List.not_mem_nil)
      fun y hy => hfalling.2.2 y hy x hx
  have hnumbers := @fill_renumber α _ ratio (origin kept) (ordered (select boxes kept)) []
  rw [List.map_nil, hgrown] at hnumbers
  cases hfirst : fill ratio (ordered (select boxes kept)) [] with
  | error e =>
      rw [hfirst] at hnumbers
      cases hnumbers
  | ok first =>
      rw [hfirst] at hnumbers
      obtain rfl := Except.ok.inj hnumbers
      exact ⟨first, rfl, hextends⟩

/-- Boxes that are kept have the same offsets as if all boxes were packed. -/
theorem rows_eq (h : Kept boxes kept) {os : List Offset}
    (hos : Packing.rows boxes ratio = .ok os) :
    ∃ os', Packing.rows (select boxes kept) ratio = .ok os' ∧ os'.length = kept.length ∧
      ∀ p i : Nat, kept[p]? = some i → os'[p]? = os[i]? := by
  obtain ⟨filled, hfill, hos⟩ := bind_eq_ok.mp hos
  obtain rfl := pure_eq_ok.mp hos
  obtain ⟨first, hfirst, hextends⟩ := h.exists_fill_extends hfill
  obtain ⟨_, hperm⟩ := fill_ordered hfill
  obtain ⟨_, hperm'⟩ := fill_ordered hfirst
  have hlength : (select boxes kept).length = kept.length := List.length_map _
  refine ⟨_, bind_eq_ok.mpr ⟨first, hfirst, rfl⟩, (length_offsets _ first).trans hlength, ?_⟩
  intro p i hpi
  obtain ⟨k, row, q, hk, hq⟩ := exists_place hperm' (hlength ▸ (List.getElem?_eq_some_iff.mp hpi).1)
  have hk' : (first.map (Row.renumber (origin kept)))[k]? =
      some (row.renumber (origin kept)) := by
    rw [List.getElem?_map, hk, Option.map_some]
  have hq' : (row.renumber (origin kept)).boxes[q]? = some i := by
    rw [Row.renumber, List.getElem?_map, hq, Option.map_some, origin_eq hpi]
  obtain ⟨row', hrow', hbox, hfront, hheights⟩ := hextends.place hk' hq'
  have hinside : ∀ m ∈ row.boxes.take q, m < kept.length := by
    intro m hm
    have hmem := hperm'.mem_iff.mp
      (List.mem_flatMap.mpr ⟨row, List.mem_of_getElem? hk, List.mem_of_mem_take hm⟩)
    rwa [List.mem_range, hlength] at hmem
  have hsame : ((first.map (Row.renumber (origin kept))).take k).map Row.height =
      (first.take k).map Row.height := by
    rw [← List.map_take, List.map_map]
    rfl
  rw [getElem?_offsets hperm' hk hq, getElem?_offsets hperm hrow' hbox, hfront, hheights, hsame,
    Row.renumber, ← List.map_take, breadth_map_origin hinside]

end Kept

end Packing

namespace Packer

open Packing

/-- When the boxes that come last are left out, all others are put where they were, unless the ratio
is not zero and all boxes side by side or on top of one another are too large for doubles. -/
theorem rowsFor_kept {boxes : List Box} (hboxes : ∀ b ∈ boxes, 0 ≤ b.x ∧ 0 ≤ b.y)
    {v : Value Float} {ratio : Float} (hvalue : v.toReal = .ok ratio)
    (hfinite : Scalar.isFinite ratio = true) (hratio : Scalar.lt ratio 0.0 = false)
    {kept : List Nat} (hkept : Kept boxes kept) :
    (∃ os os', rowsFor boxes v = .ok os ∧ rowsFor (Kept.select boxes kept) v = .ok os' ∧
      os'.length = kept.length ∧ ∀ p i : Nat, kept[p]? = some i → os'[p]? = os[i]?) ∨
    rowsFor boxes v = .error .overflow ∧ Scalar.eq ratio 0.0 = false ∧
      (Double.wholeLimit ≤ (boxes.map (·.x)).sum * (boxes.map (·.x)).sum ∨
        Double.wholeLimit ≤ (boxes.map (·.y)).sum) := by
  rw [rowsFor_eq hvalue hfinite hratio, rowsFor_eq hvalue hfinite hratio]
  cases hanswer : Packing.rows boxes ratio with
  | ok os =>
      obtain ⟨os', hos', hlength, hsame⟩ := hkept.rows_eq hanswer
      exact Or.inl ⟨os, os', rfl, hos', hlength, hsame⟩
  | error e =>
      obtain ⟨rfl, hlarge⟩ := overflow_of_rows hboxes hanswer
      exact Or.inr ⟨rfl, hlarge⟩

/-- The boxes of `threeBoxes` without the one that is packed last. -/
theorem kept_threeBoxes : Kept threeBoxes [0, 2] := by
  refine ⟨by decide, by decide, ?_⟩
  intro i hi j hj hout
  have hi' : i = 0 ∨ i = 2 := by simpa using hi
  have hj' : j = 1 := by
    change j < 3 at hj
    simp only [List.mem_cons, List.not_mem_nil, or_false, not_or] at hout
    omega
  rcases hi' with rfl | rfl
  · subst hj'
    decide
  · subst hj'
    decide

theorem rowsFor_kept_threeBoxes :
    (∀ b ∈ threeBoxes, 0 ≤ b.x ∧ 0 ≤ b.y) ∧
      (Value.real 1.0 : Value Float).toReal = .ok 1.0 ∧
      Scalar.isFinite (1.0 : Float) = true ∧ Scalar.lt (1.0 : Float) 0.0 = false ∧
      Kept threeBoxes [0, 2] ∧
      ∃ os os', rowsFor threeBoxes (.real (1.0 : Float)) = .ok os ∧
        rowsFor [⟨3, 2⟩, ⟨2, 5⟩] (.real (1.0 : Float)) = .ok os' ∧ os'[0]? = os[0]? ∧
        os'[1]? = os[2]? := by
  have hboxes : ∀ b ∈ threeBoxes, 0 ≤ b.x ∧ 0 ≤ b.y := by decide
  have hfinite : Scalar.isFinite (1.0 : Float) = true := by decide
  have hratio : Scalar.lt (1.0 : Float) 0.0 = false := by decide
  refine ⟨hboxes, rfl, hfinite, hratio, kept_threeBoxes, ?_⟩
  have hlimit : (81 : Int) < Double.wholeLimit := by
    rw [Double.wholeLimit]
    omega
  rcases rowsFor_kept hboxes (v := .real 1.0) rfl hfinite hratio kept_threeBoxes with
    ⟨os, os', hos, hos', _, hsame⟩ | ⟨_, _, hlarge⟩
  · exact ⟨os, os', hos, hos', hsame 0 0 rfl, hsame 1 2 rfl⟩
  · have hwide : (threeBoxes.map (·.x)).sum = 6 := rfl
    have hhigh : (threeBoxes.map (·.y)).sum = 9 := rfl
    rw [hwide, hhigh] at hlarge
    omega

/-- A box that comes last can be so wide that, with it, the other boxes are not packed at all. -/
theorem rowsFor_overflow_beside :
    (∀ b ∈ [(⟨1, 2⟩ : Box), ⟨10 ^ 200, 1⟩], 0 ≤ b.x ∧ 0 ≤ b.y) ∧
      (Value.real 1.0 : Value Float).toReal = .ok 1.0 ∧
      Scalar.isFinite (1.0 : Float) = true ∧ Scalar.lt (1.0 : Float) 0.0 = false ∧
      Kept [⟨1, 2⟩, ⟨10 ^ 200, 1⟩] [0] ∧
      rowsFor (Kept.select [⟨1, 2⟩, ⟨10 ^ 200, 1⟩] [0]) (.real (1.0 : Float)) = .ok [⟨0, 0⟩] ∧
      rowsFor [⟨1, 2⟩, ⟨10 ^ 200, 1⟩] (.real (1.0 : Float)) = .error .overflow := by
  have hvalid : Check.targetRatio (.real 1.0 : Value Float) = .ok 1.0 := rfl
  refine ⟨by decide, rfl, by decide, by decide, ⟨by decide, by decide, ?_⟩, ?_, ?_⟩
  · intro i hi j hj hout
    obtain rfl := List.mem_singleton.mp hi
    change j < 2 at hj
    have hj' : j = 1 := by
      rw [List.mem_singleton] at hout
      omega
    subst hj'
    exact Or.inl (by decide)
  · have hordered : ordered [⟨1, 2⟩] = [(0, ⟨1, 2⟩)] := by simp [ordered]
    change rowsFor [⟨1, 2⟩] _ = _
    have hfill : fill (1.0 : Float) [(0, ⟨1, 2⟩)] [] = .ok [({} : Row).push 0 ⟨1, 2⟩] := rfl
    rw [rowsFor, hvalid, ok_bind, Packing.rows, hordered, hfill]
    rfl
  · have hordered : ordered [⟨1, 2⟩, ⟨10 ^ 200, 1⟩] =
        [(0, ⟨1, 2⟩), (1, ⟨10 ^ 200, 1⟩)] := List.mergeSort_of_pairwise (by decide)
    have hfirst : bestRow (1.0 : Float) [] ⟨1, 2⟩ = .ok 0 := rfl
    have hput : putInto [] 0 0 ⟨1, 2⟩ = [({} : Row).push 0 ⟨1, 2⟩] := rfl
    have hwidth : max (totalWidth [({} : Row).push 0 ⟨1, 2⟩]) (10 ^ 200) = 10 ^ 200 :=
      max_eq_right (by decide)
    have hbest : bestRow (1.0 : Float) [({} : Row).push 0 ⟨1, 2⟩] ⟨10 ^ 200, 1⟩ =
        .error .overflow := by
      rw [bestRow, hwidth, cost_wide]
      rfl
    rw [rowsFor, hvalid, ok_bind, Packing.rows, hordered, fill, hfirst, ok_bind, hput, fill, hbest]
    rfl

end Packer

end PackedDrawing
