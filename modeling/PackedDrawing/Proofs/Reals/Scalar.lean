import Mathlib.Analysis.SpecialFunctions.Complex.Arg
import PackedDrawing.Numeric.Scalar

/-!
# Exact arithmetic

The real numbers as scalars: arithmetic, comparison and trigonometry are exact, no operation is at
fault, and no scalar is undefined or bounds the others.
-/

namespace PackedDrawing

/-- The real number that a numeral stands for. Infinity and the undefined number are none. -/
noncomputable def Numeral.toReal? : Numeral → Option ℝ
  | finite negative c p => some ((if negative then -1 else 1) * c * (10 : ℝ) ^ p)
  | infinite _ | undefined => none

open Classical in
/-- The angle of the origin is zero, and that of the negative x axis is half a turn. -/
noncomputable instance : Scalar ℝ where
  toAdd := inferInstance
  toSub := inferInstance
  toMul := inferInstance
  toDiv := inferInstance
  toNeg := inferInstance
  toOfScientific := inferInstance
  lt x y := decide (x < y)
  eq x y := decide (x = y)
  isFinite _ := true
  isWhole x := decide (∃ n : Int, (n : ℝ) = x)
  top? := none
  pi := Real.pi
  hypot x y := Real.sqrt (x ^ 2 + y ^ 2)
  atan2 y x := Complex.arg ⟨x, y⟩
  cos x := .ok (Real.cos x)
  sin x := .ok (Real.sin x)
  ceil x := .ok ⌈x⌉
  truncate x := .ok (if 0 ≤ x then ⌊x⌋ else ⌈x⌉)
  ofInt n := .ok n
  ofNumeral n := (n.toReal?).elim (.error .badValue) .ok
  ofQuotient a b := .ok (a / b)
  compareInt x n := some (compare x n)

namespace Scalar

variable (x y : ℝ)

@[simp] theorem lt_eq_decide : lt x y = decide (x < y) := rfl

@[simp] theorem eq_eq_decide : eq x y = decide (x = y) := rfl

@[simp] theorem le_eq_decide : le x y = decide (x ≤ y) := by
  simp only [le, lt_eq_decide, eq_eq_decide, ← Bool.decide_or, le_iff_lt_or_eq]

@[simp] theorem isDefined_eq_true : isDefined x = true := by
  simp [isDefined]

@[simp] theorem ofInt_eq_ok (n : Int) : (ofInt n : Except Fault ℝ) = .ok (n : ℝ) := rfl

@[simp] theorem zero_eq : (0.0 : ℝ) = 0 := by norm_num

theorem larger_eq_max : larger x y = max x y := by
  unfold larger
  rw [lt_eq_decide]
  by_cases h : x < y
  · simp [h, max_eq_right h.le]
  · simp [h, max_eq_left (not_lt.mp h)]

theorem smaller_eq_min : smaller x y = min x y := by
  unfold smaller
  rw [lt_eq_decide]
  by_cases h : y < x
  · simp [h, min_eq_right h.le]
  · simp [h, min_eq_left (not_lt.mp h)]

end Scalar

end PackedDrawing
