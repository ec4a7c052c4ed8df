import PackedDrawing.Proofs.Numeric.Whole
import PackedDrawing.Proofs.Packing.Shelving

/-!
# When a packing succeeds

The rows never become wider than all boxes side by side nor higher than all boxes on top of one
another. So boxes can be packed whenever packings up to that size have a cost, and with doubles
nothing but a cost that is too large for a double can keep a list of boxes from being packed.

## Main definitions

* `Packing.Costed`: packings up to a size have a cost.
* `Packing.Room`: there is room for the boxes still to be packed.

## Main statements

* `Packing.exists_rows_of_costed`: where packings up to the size of all boxes have a cost, the boxes
  can be packed.
* `Packing.rows_fault`: a packing fails only as making a scalar of a size fails.
* `Packer.rowsFor_shelves`: a list of boxes is put on shelves, or it is too large for doubles.
-/

namespace PackedDrawing

namespace Packing

variable {α : Type} [Scalar α] {ratio : α} {rows : List Row} {items : List (Nat × Box)}

section Room

variable {W H : Int}

/-- Packings up to a width and a height have a cost. -/
def Costed (ratio : α) (W H : Int) : Prop :=
  ∀ w h, 0 ≤ w → w ≤ W → 0 ≤ h → h ≤ H → ∃ c, cost ratio w h = .ok c

/-- Within a width and a height there is room for rows and, behind and below them, for the boxes
that are still to be packed. -/
structure Room (W H : Int) (rows : List Row) (items : List (Nat × Box)) : Prop where
  row_nonneg : ∀ row ∈ rows, 0 ≤ row.width ∧ 0 ≤ row.height
  item_nonneg : ∀ x ∈ items, 0 ≤ x.2.x ∧ 0 ≤ x.2.y
  wide : (rows.map Row.width).sum + (items.map (·.2.x)).sum ≤ W
  high : totalHeight rows + (items.map (·.2.y)).sum ≤ H

/-- The widest row is no wider than a bound on the rows. -/
theorem totalWidth_le {bound : Int} (hbound : 0 ≤ bound) (h : ∀ row ∈ rows, row.width ≤ bound) :
    totalWidth rows ≤ bound := by
  cases rows with
  | nil => exact hbound
  | cons row rest =>
      have hfold : ∀ (rest : List Row) (w : Int), w ≤ bound → (∀ r ∈ rest, r.width ≤ bound) →
          rest.foldl (fun w s => max w s.width) w ≤ bound := by
        intro rest
        induction rest with
        | nil => exact fun w hw _ => hw
        | cons r rest ih =>
            intro w hw hrest
            exact ih _ (max_le hw (hrest r List.mem_cons_self)) fun s hs =>
              hrest s (List.mem_cons_of_mem r hs)
      exact hfold rest row.width (h row List.mem_cons_self) fun r hr =>
        h r (List.mem_cons_of_mem row hr)

theorem sum_map_nonneg {β : Type} {f : β → Int} {l : List β} (h : ∀ x ∈ l, 0 ≤ f x) :
    0 ≤ (l.map f).sum :=
  List.sum_nonneg (List.forall_mem_map.mpr h)

theorem le_sum_map {β : Type} {f : β → Int} {l : List β} (h : ∀ x ∈ l, 0 ≤ f x) {x : β}
    (hx : x ∈ l) : f x ≤ (l.map f).sum :=
  List.single_le_sum (List.forall_mem_map.mpr h) _ (List.mem_map_of_mem hx)

/-- A box that makes no row larger by more than an amount makes all rows together no larger. -/
theorem sum_putInto_le (measure : Row → Int) (k : Nat) {i : Nat} {box : Box} {amount : Int}
    (hpush : ∀ row ∈ rows, measure (row.push i box) ≤ measure row + amount)
    (hnew : measure (({} : Row).push i box) ≤ amount) (hamount : 0 ≤ amount) :
    ((putInto rows k i box).map measure).sum ≤ (rows.map measure).sum + amount := by
  rw [putInto]
  by_cases hk : k < rows.length
  · rw [if_pos hk]
    clear hk
    induction rows generalizing k with
    | nil =>
        rw [List.modify_nil, List.map_nil, List.sum_nil, zero_add]
        exact hamount
    | cons row rest ih =>
        have hrow := hpush row List.mem_cons_self
        cases k with
        | zero =>
            rw [List.modify_zero_cons, List.map_cons, List.map_cons, List.sum_cons, List.sum_cons]
            omega
        | succ k =>
            have hrest := ih k fun r hr => hpush r (List.mem_cons_of_mem row hr)
            rw [List.modify_succ_cons, List.map_cons, List.map_cons, List.sum_cons, List.sum_cons]
            omega
  · rw [if_neg hk, List.map_append, List.sum_append, List.map_cons, List.map_nil, List.sum_cons,
      List.sum_nil, add_zero]
    omega

/-- One step of filling rows: wherever the next box is put, there is room for the others. -/
theorem Room.putInto {x : Nat × Box} (h : Room W H rows (x :: items)) (k : Nat) :
    Room W H (putInto rows k x.1 x.2) items := by
  obtain ⟨hx, hy⟩ := h.item_nonneg x List.mem_cons_self
  have hwide := h.wide
  have hhigh := h.high
  rw [List.map_cons, List.sum_cons] at hwide hhigh
  refine ⟨?_, fun y hmem => h.item_nonneg y (List.mem_cons_of_mem x hmem), ?_, ?_⟩
  · intro row hrow
    rcases mem_putInto hrow with hmem | ⟨row', hmem | rfl, rfl⟩
    · exact h.row_nonneg row hmem
    · obtain ⟨hw, hh⟩ := h.row_nonneg row' hmem
      exact ⟨add_nonneg hw hx, le_max_of_le_left hh⟩
    · exact ⟨add_nonneg le_rfl hx, le_max_left _ _⟩
  · have hpush : ∀ row ∈ rows, (row.push x.1 x.2).width ≤ row.width + x.2.x :=
      fun _ _ => le_rfl
    have hsum := sum_putInto_le Row.width k hpush (zero_add x.2.x).le hx
    omega
  · have hpush : ∀ row ∈ rows, (row.push x.1 x.2).height ≤ row.height + x.2.y := by
      intro row hrow
      have hnonneg := (h.row_nonneg row hrow).2
      change max row.height x.2.y ≤ row.height + x.2.y
      omega
    have hsum := sum_putInto_le Row.height k hpush (max_le hy le_rfl) hy
    rw [totalHeight] at hhigh ⊢
    omega

theorem Room.exists_bestRow (hcosted : Costed ratio W H) {x : Nat × Box}
    (h : Room W H rows (x :: items)) : ∃ k, bestRow ratio rows x.2 = .ok k := by
  obtain ⟨hx, hy⟩ := h.item_nonneg x List.mem_cons_self
  have hwide := h.wide
  have hhigh := h.high
  rw [List.map_cons, List.sum_cons] at hwide hhigh
  have hitemWidths : 0 ≤ (items.map (·.2.x)).sum :=
    sum_map_nonneg fun y hmem => (h.item_nonneg y (List.mem_cons_of_mem x hmem)).1
  have hitemHeights : 0 ≤ (items.map (·.2.y)).sum :=
    sum_map_nonneg fun y hmem => (h.item_nonneg y (List.mem_cons_of_mem x hmem)).2
  have hrowWidths : 0 ≤ (rows.map Row.width).sum :=
    sum_map_nonneg fun row hrow => (h.row_nonneg row hrow).1
  have hrowHeights : 0 ≤ totalHeight rows :=
    sum_map_nonneg fun row hrow => (h.row_nonneg row hrow).2
  have hwidth : ∀ row ∈ rows, row.width ≤ (rows.map Row.width).sum := fun row hrow =>
    le_sum_map (fun r hr => (h.row_nonneg r hr).1) hrow
  have htotal := totalWidth_le hrowWidths hwidth
  apply Packing.exists_bestRow
  · exact hcosted _ _ (by omega) (by omega) (by omega) (by omega)
  · intro row hrow
    have hw := hwidth row hrow
    have hh : row.height ≤ totalHeight rows :=
      le_sum_map (fun r hr => (h.row_nonneg r hr).2) hrow
    obtain ⟨hw', hh'⟩ := h.row_nonneg row hrow
    exact hcosted _ _ (by omega) (by omega) (by omega) (by omega)

theorem Room.exists_fill (hcosted : Costed ratio W H) (h : Room W H rows items) :
    ∃ rows', fill ratio items rows = .ok rows' := by
  induction items generalizing rows with
  | nil => exact ⟨rows, rfl⟩
  | cons x rest ih =>
      obtain ⟨k, hk⟩ := h.exists_bestRow hcosted
      rw [fill, hk, ok_bind]
      exact ih (h.putInto k)

theorem map_snd_ordered_perm (boxes : List Box) : ((ordered boxes).map Prod.snd).Perm boxes := by
  refine ((List.mergeSort_perm _ _).map Prod.snd).trans (List.Perm.of_eq ?_)
  exact List.ext_getElem (by simp) (by simp)

/-- Boxes can be packed where packings up to the size of all of them have a cost. -/
theorem exists_rows_of_costed {boxes : List Box} (hboxes : ∀ b ∈ boxes, 0 ≤ b.x ∧ 0 ≤ b.y)
    (hcosted : Costed ratio (boxes.map (·.x)).sum (boxes.map (·.y)).sum) :
    ∃ os, Packing.rows boxes ratio = .ok os := by
  have hperm := map_snd_ordered_perm boxes
  have hroom : Room (boxes.map (·.x)).sum (boxes.map (·.y)).sum [] (ordered boxes) := by
    refine ⟨fun _ hrow => absurd hrow List.not_mem_nil, ?_, ?_, ?_⟩
    · intro x hx
      exact hboxes x.2 (hperm.mem_iff.mp (List.mem_map_of_mem hx))
    · rw [List.map_nil, List.sum_nil, zero_add, ← (hperm.map (·.x)).sum_eq, List.map_map]
      exact le_rfl
    · rw [totalHeight, List.map_nil, List.sum_nil, zero_add, ← (hperm.map (·.y)).sum_eq,
        List.map_map]
      exact le_rfl
  obtain ⟨filled, hfill⟩ := hroom.exists_fill hcosted
  exact ⟨offsets boxes filled, bind_eq_ok.mpr ⟨filled, hfill, rfl⟩⟩

end Room

section Faults

variable {P : Fault → Prop} {e : Fault}
  (hfault : ∀ n e, (Scalar.ofInt n : Except Fault α) = .error e → P e)

include hfault

theorem cost_fault {w h : Int} (herror : cost ratio w h = .error e) : P e := by
  rw [cost] at herror
  by_cases hzero : Scalar.eq ratio 0.0 = true
  · rw [if_pos hzero] at herror
    cases herror
  · rw [if_neg hzero] at herror
    rcases bind_eq_error.mp herror with herror | ⟨_, _, herror⟩
    · exact hfault _ e herror
    · rcases bind_eq_error.mp herror with herror | ⟨_, _, herror⟩
      · exact hfault _ e herror
      · cases herror

theorem improve_fault {box : Box} {i : Nat} {rest : List Row} {best : Nat × Number α}
    (herror : improve ratio rows box i rest best = .error e) : P e := by
  induction rest generalizing i best with
  | nil => cases herror
  | cons row rest ih =>
      rcases bind_eq_error.mp herror with herror | ⟨_, _, herror⟩
      · exact cost_fault hfault herror
      · exact ih herror

theorem bestRow_fault {box : Box} (herror : bestRow ratio rows box = .error e) : P e := by
  rcases bind_eq_error.mp herror with herror | ⟨_, _, herror⟩
  · exact cost_fault hfault herror
  · rcases bind_eq_error.mp herror with herror | ⟨_, _, herror⟩
    · exact improve_fault hfault herror
    · cases herror

theorem fill_fault (herror : fill ratio items rows = .error e) : P e := by
  induction items generalizing rows with
  | nil => cases herror
  | cons x rest ih =>
      rcases bind_eq_error.mp herror with herror | ⟨_, _, herror⟩
      · exact bestRow_fault hfault herror
      · exact ih herror

/-- A packing fails only as making a scalar of a size fails. -/
theorem rows_fault {boxes : List Box} (herror : Packing.rows boxes ratio = .error e) : P e := by
  rcases bind_eq_error.mp herror with herror | ⟨_, _, herror⟩
  · exact fill_fault hfault herror
  · cases herror

end Faults

section Doubles

/-- Only a whole number that is too large has no double. -/
theorem overflow_of_ofInt {n : Int} {e : Fault}
    (h : (Scalar.ofInt n : Except Fault Float) = .error e) : e = .overflow := by
  change (if _ then _ else _) = _ at h
  split at h
  · cases h
  · exact (Except.error.inj h).symm

theorem cost_eq_of_zero {ratio : α} (hzero : Scalar.eq ratio 0.0 = true) (w h : Int) :
    cost ratio w h = .ok (.int (w * w)) := by
  rw [cost, if_pos hzero]
  rfl

/-- With doubles a packing has a cost unless the square of its width or its height is too large. -/
theorem costed_double {ratio : Float} {W H : Int} (hwide : W * W < Double.wholeLimit)
    (hhigh : H < Double.wholeLimit) : Costed ratio W H := by
  intro w h hw hwW hh hhH
  by_cases hzero : Scalar.eq ratio 0.0 = true
  · exact ⟨_, cost_eq_of_zero hzero w h⟩
  · have hsquare : w * w ≤ W * W := mul_self_le_mul_self hw hwW
    obtain ⟨x, hx⟩ := Double.exists_ofInt (mul_self_nonneg w) (hsquare.trans_lt hwide)
    obtain ⟨y, hy⟩ := Double.exists_ofInt hh (hhH.trans_lt hhigh)
    have hx' : (Scalar.ofInt (w * w) : Except Fault Float) = .ok x := hx
    have hy' : (Scalar.ofInt h : Except Fault Float) = .ok y := hy
    rw [cost, if_neg hzero, hx', ok_bind, hy', ok_bind]
    exact ⟨_, rfl⟩

/-- Boxes that cannot be packed with doubles are too large together. -/
theorem overflow_of_rows {boxes : List Box} (hboxes : ∀ b ∈ boxes, 0 ≤ b.x ∧ 0 ≤ b.y)
    {ratio : Float} {e : Fault} (h : Packing.rows boxes ratio = .error e) :
    e = .overflow ∧ Scalar.eq ratio 0.0 = false ∧
      (Double.wholeLimit ≤ (boxes.map (·.x)).sum * (boxes.map (·.x)).sum ∨
        Double.wholeLimit ≤ (boxes.map (·.y)).sum) := by
  have huncosted : ¬ Costed ratio (boxes.map (·.x)).sum (boxes.map (·.y)).sum := by
    intro hcosted
    obtain ⟨os, hos⟩ := exists_rows_of_costed hboxes hcosted
    rw [h] at hos
    cases hos
  refine ⟨rows_fault (P := (· = .overflow)) (fun _ _ => overflow_of_ofInt) h, ?_, ?_⟩
  · rw [Bool.eq_false_iff]
    intro hzero
    exact huncosted fun w h _ _ _ _ => ⟨_, cost_eq_of_zero hzero w h⟩
  · by_contra hsmall
    rw [not_or, not_le, not_le] at hsmall
    exact huncosted (costed_double hsmall.1 hsmall.2)

theorem cost_wide (h : Int) : cost (1.0 : Float) (10 ^ 200) h = .error .overflow := by
  have hzero : ¬ Scalar.eq (1.0 : Float) 0.0 = true := by decide
  have hsquare : Double.ofInt (10 ^ 200 * 10 ^ 200) = .error .overflow := by
    rw [Double.ofInt]
    exact if_neg (by decide +kernel)
  rw [cost, if_neg hzero]
  exact bind_eq_error.mpr (Or.inl hsquare)

end Doubles

end Packing

namespace Packer

open Packing

/-- For a valid ratio the boxes are packed into rows. -/
theorem rowsFor_eq {α : Type} [Scalar α] [Written α] {boxes : List Box} {v : Value α} {ratio : α}
    (hvalue : v.toReal = .ok ratio) (hfinite : Scalar.isFinite ratio = true)
    (hratio : Scalar.lt ratio 0.0 = false) : rowsFor boxes v = Packing.rows boxes ratio := by
  have hvalid : Check.targetRatio v = .ok ratio := by
    rw [Check.targetRatio, hvalue, ok_bind, hfinite, hratio]
    rfl
  rw [rowsFor, hvalid, ok_bind]

/-- For a ratio that reads as a double, a list of boxes is put on shelves and no two boxes overlap,
unless the ratio is not zero and all boxes side by side or on top of one another are too large for
doubles. -/
theorem rowsFor_shelves {boxes : List Box} (hboxes : ∀ b ∈ boxes, 0 ≤ b.x ∧ 0 ≤ b.y)
    {v : Value Float} {ratio : Float} (hvalue : v.toReal = .ok ratio)
    (hfinite : Scalar.isFinite ratio = true) (hratio : Scalar.lt ratio 0.0 = false) :
    (∃ os shelves, rowsFor boxes v = .ok os ∧ Shelving boxes os shelves ∧
      (∀ o ∈ os, 0 ≤ o.x ∧ 0 ≤ o.y) ∧ Apart os boxes ∧ countOverlaps os boxes = .ok 0) ∨
    rowsFor boxes v = .error .overflow ∧ Scalar.eq ratio 0.0 = false ∧
      (Double.wholeLimit ≤ (boxes.map (·.x)).sum * (boxes.map (·.x)).sum ∨
        Double.wholeLimit ≤ (boxes.map (·.y)).sum) := by
  rw [rowsFor_eq hvalue hfinite hratio]
  cases hanswer : Packing.rows boxes ratio with
  | ok os =>
      obtain ⟨shelves, hshelves⟩ := shelving_of_rows hanswer fun b hb => (hboxes b hb).2
      have hapart := apart_of_rows hanswer fun b hb => (hboxes b hb).1
      exact Or.inl ⟨os, shelves, rfl, hshelves, hshelves.nonneg hboxes, hapart,
        countOverlaps_of_apart hshelves.length_eq hapart⟩
  | error e =>
      obtain ⟨rfl, hlarge⟩ := overflow_of_rows hboxes hanswer
      exact Or.inr ⟨rfl, hlarge⟩

theorem rowsFor_shelves_equalHeights :
    (∀ b ∈ [(⟨3, 2⟩ : Box), ⟨1, 2⟩], 0 ≤ b.x ∧ 0 ≤ b.y) ∧
      (Value.real 1.0 : Value Float).toReal = .ok 1.0 ∧
      Scalar.isFinite (1.0 : Float) = true ∧ Scalar.lt (1.0 : Float) 0.0 = false ∧
      ∃ os shelves, rowsFor [⟨3, 2⟩, ⟨1, 2⟩] (.real (1.0 : Float)) = .ok os ∧
        Shelving [⟨3, 2⟩, ⟨1, 2⟩] os shelves ∧ countOverlaps os [⟨3, 2⟩, ⟨1, 2⟩] = .ok 0 := by
  have hboxes : ∀ b ∈ [(⟨3, 2⟩ : Box), ⟨1, 2⟩], 0 ≤ b.x ∧ 0 ≤ b.y := by decide
  have hfinite : Scalar.isFinite (1.0 : Float) = true := by decide
  have hratio : Scalar.lt (1.0 : Float) 0.0 = false := by decide
  refine ⟨hboxes, rfl, hfinite, hratio, ?_⟩
  have hlimit : (25 : Int) < Double.wholeLimit := by
    rw [Double.wholeLimit]
    omega
  rcases rowsFor_shelves hboxes (v := .real 1.0) rfl hfinite hratio with
    ⟨os, shelves, hos, hshelves, _, _, hcount⟩ | ⟨_, _, hlarge⟩
  · exact ⟨os, shelves, hos, hshelves, hcount⟩
  · have hwide : ([(⟨3, 2⟩ : Box), ⟨1, 2⟩].map (·.x)).sum = 4 := rfl
    have hhigh : ([(⟨3, 2⟩ : Box), ⟨1, 2⟩].map (·.y)).sum = 4 := rfl
    rw [hwide, hhigh] at hlarge
    omega

/-- A box can be so wide that the square of its width has no double. -/
theorem rowsFor_overflow_wide :
    (∀ b ∈ [(⟨10 ^ 200, 1⟩ : Box)], 0 ≤ b.x ∧ 0 ≤ b.y) ∧
      (Value.real 1.0 : Value Float).toReal = .ok 1.0 ∧
      Scalar.isFinite (1.0 : Float) = true ∧ Scalar.lt (1.0 : Float) 0.0 = false ∧
      rowsFor [⟨10 ^ 200, 1⟩] (.real (1.0 : Float)) = .error .overflow := by
  refine ⟨by decide, rfl, by decide, by decide, ?_⟩
  have hvalid : Check.targetRatio (.real 1.0 : Value Float) = .ok 1.0 := rfl
  have hordered : ordered [⟨10 ^ 200, 1⟩] = [(0, ⟨10 ^ 200, 1⟩)] := by
    simp [ordered]
  have hwidth : max (totalWidth []) (10 ^ 200) = 10 ^ 200 := max_eq_right (by decide)
  have hheight : totalHeight [] + 1 = 1 := rfl
  have hbest : bestRow (1.0 : Float) [] ⟨10 ^ 200, 1⟩ = .error .overflow := by
    rw [bestRow, hwidth, hheight, cost_wide]
    rfl
  rw [rowsFor, hvalid, ok_bind, Packing.rows, hordered, fill, hbest]
  rfl

end Packer

end PackedDrawing
