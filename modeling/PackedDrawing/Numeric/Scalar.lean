import PackedDrawing.Fault
import PackedDrawing.Text.Numeral
/-!
# Scalars

Coordinates, angles and ratios are scalars. All of the geometry is written once over the class
`Scalar`: double-precision numbers run it, and any other model of its operations gives it another
reading, in which arithmetic may be exact.

## Implementation notes

Operations that have no answer for some arguments return a `Fault`: whole numbers too large for a
scalar, angles that are infinite, and roundings of what is not finite. Comparison is boolean, since
an undefined number compares with nothing. `top?` is the scalar that bounds all others, where there
is one; searches for a least or best value start from it.
-/

namespace PackedDrawing

/-- What the geometry needs from its coordinates. -/
class Scalar (α : Type) extends Add α, Sub α, Mul α, Div α, Neg α, OfScientific α where
  /-- Strictly below; false for an undefined number. -/
  lt : α → α → Bool
  /-- Equal as a number; false for an undefined number. -/
  eq : α → α → Bool
  /-- Neither infinite nor undefined. -/
  isFinite : α → Bool
  /-- Without a fractional part; false for what is not finite. -/
  isWhole : α → Bool
  /-- The scalar above all others, where there is one. -/
  top? : Option α
  /-- Half a full turn. -/
  pi : α
  /-- The distance from the origin. -/
  hypot : α → α → α
  /-- The angle of the point `(x, y)`, given as `y` and `x`, measured from the positive x axis. -/
  atan2 : α → α → α
  cos : α → Except Fault α
  sin : α → Except Fault α
  /-- The least whole number that is not below. -/
  ceil : α → Except Fault Int
  /-- The whole number toward zero. -/
  truncate : α → Except Fault Int
  /-- The scalar of a whole number. -/
  ofInt : Int → Except Fault α
  /-- The scalar of a number as it is written. -/
  ofNumeral : Numeral → Except Fault α
  /-- The quotient of two whole numbers, the divisor not zero. -/
  ofQuotient : Int → Int → Except Fault α
  /-- How a scalar compares with a whole number, exactly; nothing for an undefined number. -/
  compareInt : α → Int → Option Ordering

/-- How scalars are written. -/
class Written (α : Type) where
  /-- With the fewest digits that read back. -/
  shortest : α → String
  /-- With a set number of places after the point. -/
  fixed : Nat → α → String

namespace Scalar

variable {α : Type} [Scalar α]

/-- Below or equal. -/
def le (x y : α) : Bool := lt x y || eq x y

/-- The first of two scalars unless the second is above it. -/
def larger (x y : α) : α := if lt x y then y else x

/-- The first of two scalars unless the second is below it. -/
def smaller (x y : α) : α := if lt y x then y else x

/-- Whether a scalar is a number at all: an undefined one differs from itself. -/
def isDefined (x : α) : Bool := eq x x

/-- The largest of the scalars, undefined as soon as one of them is. -/
def greatest (first : α) (rest : List α) : α :=
  rest.foldl (fun best x => if isDefined best && !le x best then x else best) first

/-- The smallest of the scalars, undefined as soon as one of them is. -/
def least (first : α) (rest : List α) : α :=
  rest.foldl (fun best x => if isDefined best && !le best x then x else best) first

end Scalar

end PackedDrawing
