import PackedDrawing.Proofs.Packing.Greedy
import PackedDrawing.Proofs.Packing.Room
import PackedDrawing.Packing.Overlap

/-!
# For ratio zero the packing is as narrow as it can be

For ratio zero only the width counts. No row makes a packing narrower than a new one does, and a new
row comes first among places of equal cost. So each box has a row of its own, and lies below all
boxes that were packed before it.

## Main definitions

* `Packing.alone`: a row that holds one box.
* `Packing.heightBefore`: the height of the boxes that are packed before a box.
* `Packing.Piled`: each box lies at the left, below all boxes that are packed before it.

## Main statements

* `Packing.fill_of_zero`: for ratio zero each box opens a row.
* `Packing.span_eq_most`: what offsets span that begin at zero.
* `Packer.rowsFor_narrow`: the packing for ratio zero, its width and its height.
-/

namespace PackedDrawing

namespace Packing

variable {α : Type} [Scalar α] {ratio : α}

/-- A row that holds one box. -/
def alone (x : Nat × Box) : Row := ({} : Row).push x.1 x.2

/-- The height of the boxes that are packed before a box, on top of one another. -/
def heightBefore (boxes : List Box) (i : Nat) : Int :=
  (((List.range boxes.length).filter fun j => Before boxes j i).map
    fun j => (extents boxes j).y).sum

section Rows

variable {rows : List Row} {box : Box}

theorem alone_width (x : Nat × Box) : (alone x).width = x.2.x := Int.zero_add x.2.x

/-- While the best place costs no more than any packing of its width, no row is better. -/
theorem improve_of_zero (hzero : Scalar.eq ratio 0.0 = true) {width : Int} (hwidth : 0 ≤ width)
    (k i : Nat) {rest : List Row}
    (hrest : ∀ row ∈ rest, width ≤ max (totalWidth rows) (row.width + box.x)) :
    improve ratio rows box i rest (k, .int (width * width)) = .ok (k, .int (width * width)) := by
  induction rest generalizing i with
  | nil => rfl
  | cons row rest ih =>
      have hle := hrest row List.mem_cons_self
      have hsquare := mul_self_le_mul_self hwidth hle
      have hworse : (Number.int (max (totalWidth rows) (row.width + box.x) *
          max (totalWidth rows) (row.width + box.x)) : Number α).lt (.int (width * width)) =
          false :=
        decide_eq_false (not_lt.mpr hsquare)
      rw [improve, costIn, cost_eq_of_zero hzero, ok_bind, hworse, if_neg Bool.false_ne_true]
      exact ih (i + 1) fun r hr => hrest r (List.mem_cons_of_mem row hr)

/-- For ratio zero a new row is never worse than one that is there. -/
theorem bestRow_of_zero (hzero : Scalar.eq ratio 0.0 = true) (hrows : ∀ row ∈ rows, 0 ≤ row.width)
    (hbox : 0 ≤ box.x) : bestRow ratio rows box = .ok rows.length := by
  have hwidth : 0 ≤ max (totalWidth rows) box.x := hbox.trans (le_max_right _ _)
  rw [bestRow, cost_eq_of_zero hzero, ok_bind, improve_of_zero hzero hwidth, ok_bind]
  · rfl
  · intro row hrow
    have hrow' := hrows row hrow
    omega

/-- For ratio zero each box opens a row. -/
theorem fill_of_zero (hzero : Scalar.eq ratio 0.0 = true) {items : List (Nat × Box)}
    (hrows : ∀ row ∈ rows, 0 ≤ row.width) (hitems : ∀ x ∈ items, 0 ≤ x.2.x) :
    fill ratio items rows = .ok (rows ++ items.map alone) := by
  induction items generalizing rows with
  | nil => rw [fill, List.map_nil, List.append_nil]
  | cons x rest ih =>
      have hx := hitems x List.mem_cons_self
      have hgrown : ∀ row ∈ rows ++ [alone x], 0 ≤ row.width := by
        intro row hrow
        rcases List.mem_append.mp hrow with hmem | hmem
        · exact hrows row hmem
        · rwa [List.mem_singleton.mp hmem, alone_width]
      rw [fill, bestRow_of_zero hzero hrows hx, ok_bind, putInto_length]
      change fill ratio rest (rows ++ [alone x]) = _
      rw [ih hgrown fun y hy => hitems y (List.mem_cons_of_mem x hy), List.append_assoc,
        List.map_cons, List.singleton_append]

end Rows

section Heights

/-- In a list that stands in the order of an asymmetric relation, the items in front of one are
those that it comes after. -/
theorem filter_eq_front {β : Type} {r : β → β → Prop} [DecidableRel r]
    (hasymm : ∀ a b, r a b → ¬ r b a) {front back : List β} {b : β}
    (h : (front ++ b :: back).Pairwise r) :
    ((front ++ b :: back).filter fun a => r a b) = front := by
  obtain ⟨_, hlater, hbefore⟩ := List.pairwise_append.mp h
  have hafter := (List.pairwise_cons.mp hlater).1
  have hfront : (front.filter fun a => r a b) = front :=
    List.filter_eq_self.mpr fun a ha => decide_eq_true (hbefore a ha b List.mem_cons_self)
  have hback : ((b :: back).filter fun a => r a b) = [] := by
    refine List.filter_eq_nil_iff.mpr fun a ha hr => ?_
    have hab := of_decide_eq_true hr
    rcases List.mem_cons.mp ha with rfl | hmem
    · exact hasymm a a hab hab
    · exact hasymm a b hab (hafter a hmem)
  rw [List.filter_append, hfront, hback, List.append_nil]

variable {boxes : List Box}

/-- The boxes in front of one are those that are packed before it. -/
theorem heightBefore_eq {front back : List (Nat × Box)} {x : Nat × Box}
    (h : ordered boxes = front ++ x :: back) :
    heightBefore boxes x.1 = (front.map (·.2.y)).sum := by
  have hordered := pairwise_before_ordered boxes
  have hperm := ordered_perm boxes
  rw [h, List.map_append, List.map_cons] at hordered hperm
  have hfront := filter_eq_front (fun _ _ hab => Before.asymm hab) hordered
  have hheights : (front.map Prod.fst).map (fun j => (extents boxes j).y) = front.map (·.2.y) := by
    rw [List.map_map]
    apply List.map_congr_left
    intro y hy
    have hmem : y ∈ ordered boxes := h ▸ List.mem_append_left _ hy
    rw [Function.comp_apply, extents_of_some (mem_ordered_iff.mp hmem)]
  rw [heightBefore, ← hheights, ← hfront]
  exact ((hperm.symm.filter _).map _).sum_eq

/-- Each box is somewhere in the order in which boxes are packed. -/
theorem exists_ordered_eq {i : Nat} {box : Box} (hbox : boxes[i]? = some box) :
    ∃ front back, ordered boxes = front ++ (i, box) :: back :=
  List.append_of_mem (mem_ordered_iff.mpr hbox)

theorem sum_heights_ordered (boxes : List Box) :
    ((ordered boxes).map (·.2.y)).sum = (boxes.map Point.y).sum := by
  have hperm := (map_snd_ordered_perm boxes).map Point.y
  rw [List.map_map] at hperm
  exact hperm.sum_eq

theorem heightBefore_nonneg (hboxes : ∀ b ∈ boxes, 0 ≤ b.y) (i : Nat) :
    0 ≤ heightBefore boxes i := by
  refine sum_map_nonneg fun j _ => ?_
  rw [extents]
  cases hj : boxes[j]? with
  | none => exact le_rfl
  | some box => exact hboxes box (List.mem_of_getElem? hj)

/-- No box ends below all boxes on top of one another. -/
theorem heightBefore_add_le (hboxes : ∀ b ∈ boxes, 0 ≤ b.y) {i : Nat} {box : Box}
    (hbox : boxes[i]? = some box) : heightBefore boxes i + box.y ≤ (boxes.map Point.y).sum := by
  obtain ⟨front, back, hordered⟩ := exists_ordered_eq hbox
  have hback : 0 ≤ (back.map (·.2.y)).sum := by
    refine sum_map_nonneg fun x hx => ?_
    have hmem : x ∈ ordered boxes :=
      hordered ▸ List.mem_append_right _ (List.mem_cons_of_mem _ hx)
    exact hboxes x.2 (List.mem_of_getElem? (mem_ordered_iff.mp hmem))
  rw [← sum_heights_ordered, hordered, List.map_append, List.map_cons, List.sum_append,
    List.sum_cons, ← add_assoc, ← heightBefore_eq hordered]
  exact le_add_of_nonneg_right hback

theorem ordered_ne_nil (hne : boxes ≠ []) : ordered boxes ≠ [] := by
  intro hnil
  have hlength := (map_snd_ordered_perm boxes).length_eq
  rw [hnil] at hlength
  exact hne (List.length_eq_zero_iff.mp hlength.symm)

/-- The box that is packed first has none before it. -/
theorem exists_heightBefore_eq_zero (hne : boxes ≠ []) :
    ∃ i < boxes.length, heightBefore boxes i = 0 := by
  obtain ⟨x, back, hordered⟩ := List.exists_cons_of_ne_nil (ordered_ne_nil hne)
  have hmem : x ∈ ordered boxes := hordered ▸ List.mem_cons_self
  refine ⟨x.1, (List.getElem?_eq_some_iff.mp (mem_ordered_iff.mp hmem)).1, ?_⟩
  have hfirst : ordered boxes = [] ++ x :: back := hordered
  exact heightBefore_eq hfirst

/-- The box that is packed last ends below all boxes on top of one another. -/
theorem exists_heightBefore_add_eq (hne : boxes ≠ []) :
    ∃ i box, boxes[i]? = some box ∧
      heightBefore boxes i + box.y = (boxes.map Point.y).sum := by
  obtain ⟨front, x, hordered⟩ := (List.eq_nil_or_concat' (ordered boxes)).resolve_left
    (ordered_ne_nil hne)
  have hmem : x ∈ ordered boxes := by
    rw [hordered]
    exact List.mem_append_right _ List.mem_cons_self
  refine ⟨x.1, x.2, mem_ordered_iff.mp hmem, ?_⟩
  rw [heightBefore_eq hordered, ← sum_heights_ordered, hordered, List.map_append,
    List.sum_append, List.map_singleton, List.sum_singleton]

end Heights

section Spans

theorem le_most {x : Int} {xs : List Int} (h : x ∈ xs) : x ≤ most xs := by
  induction xs with
  | nil => cases h
  | cons y ys ih =>
      rcases List.mem_cons.mp h with rfl | hmem
      · exact le_max_left _ _
      · exact (ih hmem).trans (le_max_right _ _)

theorem most_le {bound : Int} {xs : List Int} (hbound : 0 ≤ bound) (h : ∀ x ∈ xs, x ≤ bound) :
    most xs ≤ bound := by
  induction xs with
  | nil => exact hbound
  | cons x xs ih =>
      exact max_le (h x List.mem_cons_self) (ih fun y hy => h y (List.mem_cons_of_mem x hy))

theorem foldl_min_eq_zero {β : Type} {f : β → Int} {w : Int} {l : List β} (hw : 0 ≤ w)
    (hl : ∀ x ∈ l, 0 ≤ f x) (hzero : w = 0 ∨ ∃ x ∈ l, f x = 0) :
    l.foldl (fun w x => min w (f x)) w = 0 := by
  induction l generalizing w with
  | nil => exact hzero.resolve_right fun ⟨_, hmem, _⟩ => absurd hmem List.not_mem_nil
  | cons x l ih =>
      have hx := hl x List.mem_cons_self
      refine ih (le_min hw hx) (fun y hy => hl y (List.mem_cons_of_mem x hy)) ?_
      rcases hzero with rfl | ⟨y, hmem, hy⟩
      · exact Or.inl (min_eq_left hx)
      · rcases List.mem_cons.mp hmem with rfl | hmem
        · exact Or.inl ((min_eq_right (hy.trans_le hw)).trans hy)
        · exact Or.inr ⟨y, hmem, hy⟩

/-- Offsets that begin at zero span as much as the box that reaches farthest. -/
theorem span_eq_most {start size : Point Int → Int} {os : List Offset} {boxes : List Box}
    (hlength : os.length = boxes.length) (hstart : ∀ o ∈ os, 0 ≤ start o)
    (hsize : ∀ b ∈ boxes, 0 ≤ size b) (hzero : ∃ o ∈ os, start o = 0) :
    span start size os boxes =
      .ok (most ((os.zip boxes).map fun p => start p.1 + size p.2)) := by
  cases os with
  | nil =>
      obtain ⟨o, hmem, _⟩ := hzero
      cases hmem
  | cons o os =>
      cases boxes with
      | nil => cases hlength
      | cons b bs =>
          have ho := hstart o List.mem_cons_self
          have hb := hsize b List.mem_cons_self
          have hnear : os.foldl (fun m p => min m (start p)) (start o) = 0 := by
            refine foldl_min_eq_zero ho (fun p hp => hstart p (List.mem_cons_of_mem o hp)) ?_
            obtain ⟨p, hmem, hp⟩ := hzero
            rcases List.mem_cons.mp hmem with rfl | hmem
            · exact Or.inl hp
            · exact Or.inr ⟨p, hmem, hp⟩
          rw [span, hnear, foldl_max_eq _ _ _ (add_nonneg ho hb), sub_zero]
          rfl

end Spans

section Piles

variable {boxes : List Box} {os : List Offset}

/-- Each box lies at the left, below all boxes that are packed before it. -/
structure Piled (boxes : List Box) (os : List Offset) : Prop where
  length_eq : os.length = boxes.length
  offset_eq : ∀ i < boxes.length, os[i]? = some ⟨0, heightBefore boxes i⟩

/-- Boxes each of which has a row of its own are piled. -/
theorem piled_offsets_alone (hboxes : ∀ b ∈ boxes, 0 ≤ b.y) :
    Piled boxes (offsets boxes ((ordered boxes).map alone)) := by
  refine ⟨length_offsets boxes _, fun i hi => ?_⟩
  obtain ⟨front, back, hordered⟩ := exists_ordered_eq (List.getElem?_eq_getElem hi)
  have hperm : (((ordered boxes).map alone).flatMap Row.boxes).Perm (List.range boxes.length) := by
    have hnumbers := ordered_perm boxes
    rw [List.map_eq_flatMap] at hnumbers
    rwa [List.flatMap_map]
  have hk : ((ordered boxes).map alone)[front.length]? = some (alone (i, boxes[i])) := by
    rw [hordered, List.getElem?_map, List.getElem?_append_right le_rfl, Nat.sub_self]
    rfl
  have hheights : (((ordered boxes).map alone).take front.length).map Row.height =
      front.map (·.2.y) := by
    rw [hordered, ← List.map_take, List.take_left, List.map_map]
    apply List.map_congr_left
    intro x hx
    have hmem : x ∈ ordered boxes := hordered ▸ List.mem_append_left _ hx
    exact max_eq_right (hboxes x.2 (List.mem_of_getElem? (mem_ordered_iff.mp hmem)))
  rw [getElem?_offsets hperm hk (p := 0) rfl, hheights, ← heightBefore_eq hordered]
  rfl

namespace Piled

theorem exists_of_mem (h : Piled boxes os) {o : Offset} (ho : o ∈ os) :
    ∃ i < boxes.length, o = ⟨0, heightBefore boxes i⟩ := by
  obtain ⟨i, hi⟩ := List.mem_iff_getElem?.mp ho
  have hlt : i < boxes.length := h.length_eq ▸ (List.getElem?_eq_some_iff.mp hi).1
  exact ⟨i, hlt, Option.some.inj (hi.symm.trans (h.offset_eq i hlt))⟩

theorem exists_of_mem_zip (h : Piled boxes os) {p : Offset × Box} (hp : p ∈ os.zip boxes) :
    ∃ i, boxes[i]? = some p.2 ∧ p.1 = ⟨0, heightBefore boxes i⟩ := by
  obtain ⟨i, hi⟩ := List.mem_iff_getElem?.mp hp
  obtain ⟨hoffset, hbox⟩ := List.getElem?_zip_eq_some.mp hi
  have hlt := (List.getElem?_eq_some_iff.mp hbox).1
  exact ⟨i, hbox, Option.some.inj (hoffset.symm.trans (h.offset_eq i hlt))⟩

theorem mem_zip (h : Piled boxes os) {i : Nat} {box : Box} (hbox : boxes[i]? = some box) :
    ((⟨0, heightBefore boxes i⟩, box) : Offset × Box) ∈ os.zip boxes :=
  List.mem_of_getElem? (List.getElem?_zip_eq_some.mpr
    ⟨h.offset_eq i (List.getElem?_eq_some_iff.mp hbox).1, hbox⟩)

/-- A pile is as wide as the widest box. -/
theorem width_eq (h : Piled boxes os) (hne : boxes ≠ []) (hboxes : ∀ b ∈ boxes, 0 ≤ b.x) :
    span Point.x Point.x os boxes = .ok (most (boxes.map Point.x)) := by
  have hstart : ∀ o ∈ os, o.x = 0 := by
    intro o ho
    obtain ⟨i, _, rfl⟩ := h.exists_of_mem ho
    rfl
  have hos : os ≠ [] := by
    intro hnil
    exact hne (List.length_eq_zero_iff.mp (h.length_eq.symm.trans (by rw [hnil, List.length_nil])))
  obtain ⟨o, ho⟩ := List.exists_mem_of_ne_nil os hos
  have hends : (os.zip boxes).map (fun p => p.1.x + p.2.x) = boxes.map Point.x := by
    calc (os.zip boxes).map (fun p => p.1.x + p.2.x)
        = (os.zip boxes).map fun p => p.2.x := by
          apply List.map_congr_left
          intro p hp
          rw [hstart p.1 (List.of_mem_zip hp).1, zero_add]
      _ = ((os.zip boxes).map Prod.snd).map Point.x := by rw [List.map_map]; rfl
      _ = boxes.map Point.x := by rw [List.map_snd_zip h.length_eq.ge]
  rw [span_eq_most h.length_eq (fun o ho => (hstart o ho).ge) hboxes ⟨o, ho, hstart o ho⟩, hends]

/-- A pile is as high as all boxes on top of one another. -/
theorem height_eq (h : Piled boxes os) (hne : boxes ≠ []) (hboxes : ∀ b ∈ boxes, 0 ≤ b.y) :
    span Point.y Point.y os boxes = .ok (boxes.map Point.y).sum := by
  have hstart : ∀ o ∈ os, 0 ≤ o.y := by
    intro o ho
    obtain ⟨i, _, rfl⟩ := h.exists_of_mem ho
    exact heightBefore_nonneg hboxes i
  obtain ⟨first, hfirst, htop⟩ := exists_heightBefore_eq_zero hne
  have hmem := List.mem_of_getElem? (h.offset_eq first hfirst)
  rw [span_eq_most h.length_eq hstart hboxes ⟨_, hmem, htop⟩]
  congr 1
  apply le_antisymm
  · refine most_le (sum_map_nonneg hboxes) fun e he => ?_
    obtain ⟨p, hp, rfl⟩ := List.mem_map.mp he
    obtain ⟨i, hbox, hoffset⟩ := h.exists_of_mem_zip hp
    rw [hoffset]
    exact heightBefore_add_le hboxes hbox
  · obtain ⟨i, box, hbox, hlast⟩ := exists_heightBefore_add_eq hne
    rw [← hlast]
    exact le_most (List.mem_map.mpr ⟨_, h.mem_zip hbox, rfl⟩)

end Piled

end Piles

end Packing

namespace Packer

open Packing

/-- For ratio zero each box has a row of its own and lies at the left, below all boxes that are
packed before it. The packing is as wide as the widest box and as high as all boxes on top of one
another. -/
theorem rowsFor_narrow {α : Type} [Scalar α] [Written α] {boxes : List Box} (hne : boxes ≠ [])
    (hboxes : ∀ b ∈ boxes, 0 ≤ b.x ∧ 0 ≤ b.y) {v : Value α} {ratio : α}
    (hvalue : v.toReal = .ok ratio) (hfinite : Scalar.isFinite ratio = true)
    (hratio : Scalar.lt ratio 0.0 = false) (hzero : Scalar.eq ratio 0.0 = true) :
    ∃ filled os, fill ratio (ordered boxes) [] = .ok filled ∧
      filled.map Row.boxes = (ordered boxes).map (fun x => [x.1]) ∧
      rowsFor boxes v = .ok os ∧ os = offsets boxes filled ∧ Piled boxes os ∧
      span Point.x Point.x os boxes = .ok (most (boxes.map Point.x)) ∧
      span Point.y Point.y os boxes = .ok (boxes.map Point.y).sum := by
  have hwide : ∀ b ∈ boxes, 0 ≤ b.x := fun b hb => (hboxes b hb).1
  have hhigh : ∀ b ∈ boxes, 0 ≤ b.y := fun b hb => (hboxes b hb).2
  have hfill : fill ratio (ordered boxes) [] = .ok ((ordered boxes).map alone) :=
    fill_of_zero hzero (fun _ hrow => absurd hrow List.not_mem_nil) fun x hx =>
      hwide x.2 (List.mem_of_getElem? (mem_ordered_iff.mp hx))
  have hpiled := piled_offsets_alone hhigh
  refine ⟨_, _, hfill, ?_, ?_, rfl, hpiled, hpiled.width_eq hne hwide,
    hpiled.height_eq hne hhigh⟩
  · rw [List.map_map]
    rfl
  · rw [rowsFor_eq hvalue hfinite hratio, Packing.rows, hfill]
    rfl

/-- The highest of three boxes lies on top, and the others below it as they were given. -/
theorem rowsFor_narrow_threeBoxes :
    threeBoxes ≠ [] ∧ (∀ b ∈ threeBoxes, 0 ≤ b.x ∧ 0 ≤ b.y) ∧
      (Value.int 0 : Value Float).toReal = .ok 0.0 ∧
      Scalar.isFinite (0.0 : Float) = true ∧ Scalar.lt (0.0 : Float) 0.0 = false ∧
      Scalar.eq (0.0 : Float) 0.0 = true ∧
      rowsFor threeBoxes (.int 0 : Value Float) = .ok [⟨0, 5⟩, ⟨0, 7⟩, ⟨0, 0⟩] := by
  have hne : threeBoxes ≠ [] := List.cons_ne_nil _ _
  have hboxes : ∀ b ∈ threeBoxes, 0 ≤ b.x ∧ 0 ≤ b.y := by decide
  have hvalue : (Value.int 0 : Value Float).toReal = .ok 0.0 := rfl
  have hfinite : Scalar.isFinite (0.0 : Float) = true := by decide
  have hratio : Scalar.lt (0.0 : Float) 0.0 = false := by decide
  have hzero : Scalar.eq (0.0 : Float) 0.0 = true := by decide
  refine ⟨hne, hboxes, hvalue, hfinite, hratio, hzero, ?_⟩
  obtain ⟨_, os, _, _, hos, _, hpiled, _, _⟩ :=
    rowsFor_narrow hne hboxes hvalue hfinite hratio hzero
  obtain ⟨a, b, c, rfl⟩ := List.length_eq_three.mp hpiled.length_eq
  have ha : a = ⟨0, 5⟩ := Option.some.inj (hpiled.offset_eq 0 (by decide))
  have hb : b = ⟨0, 7⟩ := Option.some.inj (hpiled.offset_eq 1 (by decide))
  have hc : c = ⟨0, 0⟩ := Option.some.inj (hpiled.offset_eq 2 (by decide))
  rw [hos, ha, hb, hc]

end Packer

end PackedDrawing
