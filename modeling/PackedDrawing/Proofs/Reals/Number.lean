import Mathlib
import PackedDrawing.Numeric.Number
import PackedDrawing.Proofs.Outcome
import PackedDrawing.Proofs.Reals.Ranges
import PackedDrawing.Value.Basic

/-!
# Numbers in exact arithmetic

A number is a whole number or a scalar. In exact arithmetic either is a real number, and what is
computed from numbers is the real number that is computed from these: no operation fails but the
division by zero, and comparison is that of real numbers.

## Main definitions

* `Number.exact`: the real number that a number is.

## Main statements

* `Number.exists_add`, `Number.exists_sub`, `Number.exists_mul`, `Number.exists_half`: arithmetic.
* `Number.exact_smaller`, `Number.exact_larger`: comparison.
* `Value.scalar_eq_ok_iff`: what a value reads as.
-/

namespace PackedDrawing

namespace Number

/-- The real number that a number is. -/
def exact : Number ℝ → ℝ
  | int n => n
  | real r => r

@[simp] theorem exact_int (n : Int) : (int n : Number ℝ).exact = n := rfl

@[simp] theorem exact_real (r : ℝ) : (real r).exact = r := rfl

@[simp] theorem toReal_eq_exact (x : Number ℝ) : x.toReal = .ok x.exact := by
  cases x <;> rfl

@[simp] theorem exact_neg (x : Number ℝ) : x.neg.exact = -x.exact := by
  cases x with
  | int n => exact Int.cast_neg n
  | real r => rfl

/-- Two numbers are combined as the real numbers they are, if whole numbers are. -/
theorem exists_combine {whole : Int → Int → Int} {scalar : ℝ → ℝ → ℝ}
    (h : ∀ a b : Int, ((whole a b : Int) : ℝ) = scalar a b) (x y : Number ℝ) :
    ∃ z, combine whole scalar x y = .ok z ∧ z.exact = scalar x.exact y.exact := by
  cases x with
  | int a =>
      cases y with
      | int b => exact ⟨int (whole a b), rfl, h a b⟩
      | real s => exact ⟨real (scalar a s), rfl, rfl⟩
  | real r => exact ⟨real (scalar r y.exact), by simp [combine], rfl⟩

section Arithmetic

variable (x y : Number ℝ)

theorem exists_add : ∃ z, x.add y = .ok z ∧ z.exact = x.exact + y.exact :=
  exists_combine Int.cast_add x y

theorem exists_sub : ∃ z, x.sub y = .ok z ∧ z.exact = x.exact - y.exact :=
  exists_combine Int.cast_sub x y

theorem exists_mul : ∃ z, x.mul y = .ok z ∧ z.exact = x.exact * y.exact :=
  exists_combine Int.cast_mul x y

theorem exists_half : ∃ z, x.div (.int 2) = .ok z ∧ z.exact = x.exact / 2 := by
  cases x with
  | int a => exact ⟨real (a / (2 : Int)), rfl, by simp [exact]⟩
  | real r => exact ⟨real (r / (2 : Int)), by simp [div, toReal], by simp [exact]⟩

theorem lt_iff_exact : x.lt y = true ↔ x.exact < y.exact := by
  cases x with
  | int a =>
      cases y with
      | int b => simp [lt, exact]
      | real b => simp [lt, exact, Scalar.compareInt, compare_gt_iff_gt]
  | real a =>
      cases y with
      | int b => simp [lt, exact, Scalar.compareInt, compare_lt_iff_lt]
      | real b => simp [lt, exact]

theorem exact_smaller : (x.smaller y).exact = min x.exact y.exact := by
  rw [smaller]
  by_cases h : y.lt x = true
  · rw [if_pos h, min_eq_right ((lt_iff_exact y x).mp h).le]
  · rw [if_neg h, min_eq_left (not_lt.mp (mt (lt_iff_exact y x).mpr h))]

theorem exact_larger : (x.larger y).exact = max x.exact y.exact := by
  rw [larger]
  by_cases h : x.lt y = true
  · rw [if_pos h, max_eq_right ((lt_iff_exact x y).mp h).le]
  · rw [if_neg h, max_eq_left (not_lt.mp (mt (lt_iff_exact x y).mpr h))]

end Arithmetic

/-- The least of some numbers is not above any of them. -/
theorem exact_least_le {first y : Number ℝ} {rest : List (Number ℝ)} (h : y ∈ first :: rest) :
    (least first rest).exact ≤ y.exact := by
  refine (foldl_select (r := fun a b : Number ℝ => b.exact ≤ a.exact) (fun _ => le_refl _)
    (fun hab hbc => le_trans hbc hab) (fun a b => ?_) (fun a b => ?_) (fun a b => ?_) first rest).1
    y h
  · rw [smaller]
    split
    · exact Or.inr rfl
    · exact Or.inl rfl
  · rw [exact_smaller]
    exact min_le_left _ _
  · rw [exact_smaller]
    exact min_le_right _ _

/-- The greatest of some numbers is not below any of them. -/
theorem le_exact_greatest {first y : Number ℝ} {rest : List (Number ℝ)} (h : y ∈ first :: rest) :
    y.exact ≤ (greatest first rest).exact := by
  refine (foldl_select (r := fun a b : Number ℝ => a.exact ≤ b.exact) (fun _ => le_refl _)
    le_trans (fun a b => ?_) (fun a b => ?_) (fun a b => ?_) first rest).1 y h
  · rw [larger]
    split
    · exact Or.inr rfl
    · exact Or.inl rfl
  · rw [exact_larger]
    exact le_max_left _ _
  · rw [exact_larger]
    exact le_max_right _ _

end Number

namespace Value

/-- A value reads as a real number if it is a number and that real number. -/
theorem scalar_eq_ok_iff {v : Value ℝ} {a : ℝ} :
    v.scalar = .ok a ↔ ∃ x, v.number = .ok x ∧ x.exact = a := by
  simp [scalar, bind_eq_ok]

@[simp] theorem scalar_ofNumber (x : Number ℝ) : (ofNumber x).scalar = .ok x.exact := by
  simp [scalar]

end Value

end PackedDrawing
