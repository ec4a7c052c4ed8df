import PackedDrawing.Numeric.Scalar
/-!
# Numbers

A `Number` is a whole number of any size or a scalar. Whole numbers combine exactly; as soon as a
scalar takes part, the other side becomes a scalar too. Comparison is always exact, and the quotient
of two whole numbers is rounded only once.

## Main definitions

* `Number.add`, `Number.sub`, `Number.mul`, `Number.div`: arithmetic, at fault when a whole number
  is too large for a scalar.
* `Number.lt`, `Number.eq`: exact comparison.
-/

namespace PackedDrawing

/-- A whole number or a scalar. -/
inductive Number (α : Type) where
  | int (n : Int)
  | real (r : α)
  deriving Repr

namespace Number

variable {α : Type} [Scalar α]

/-- A number as a scalar. -/
def toReal : Number α → Except Fault α
  | int n => Scalar.ofInt n
  | real r => .ok r

@[simp] theorem toReal_real (r : α) : (real r).toReal = .ok r := rfl

/-- Combines two whole numbers exactly, and any other two numbers as scalars. -/
def combine (whole : Int → Int → Int) (scalar : α → α → α) :
    Number α → Number α → Except Fault (Number α)
  | int a, int b => .ok (int (whole a b))
  | x, y => do return real (scalar (← x.toReal) (← y.toReal))

/-- The sum of two numbers. -/
def add : Number α → Number α → Except Fault (Number α) := combine (· + ·) (· + ·)

/-- The difference of two numbers. -/
def sub : Number α → Number α → Except Fault (Number α) := combine (· - ·) (· - ·)

/-- The product of two numbers. -/
def mul : Number α → Number α → Except Fault (Number α) := combine (· * ·) (· * ·)

/-- Whether a number is zero. -/
def isZero : Number α → Bool
  | int n => n == 0
  | real r => Scalar.eq r 0.0

/-- The quotient of two numbers, a scalar. -/
def div (x y : Number α) : Except Fault (Number α) :=
  match x, y with
  | int a, int b => if b = 0 then .error .divisionByZero else real <$> Scalar.ofQuotient a b
  | x, y => do
    let a ← x.toReal
    let b ← y.toReal
    if Scalar.eq b 0.0 then .error .divisionByZero else return real (a / b)

/-- What is left of a number when a whole number above zero is taken from it as often as it goes, so
that nothing below zero is left. Of an infinite number, nothing defined is left. -/
def remainder (x : Number α) (n : Nat) : Except Fault (Number α) := do
  match x with
  | int a => return int (a.fmod n)
  | real r =>
    if !Scalar.isFinite r then return real (r - r)
    let whole ← Scalar.truncate r
    let rest := (← Scalar.ofInt (whole.tmod n)) + (r - (← Scalar.ofInt whole))
    if Scalar.eq rest 0.0 then return real 0.0
    if Scalar.lt rest 0.0 then return real (rest + (← Scalar.ofInt n))
    return real rest

/-- The opposite number. -/
def neg : Number α → Number α
  | int n => int (-n)
  | real r => real (-r)

/-- Strictly below, exactly. -/
def lt : Number α → Number α → Bool
  | int a, int b => a < b
  | real a, real b => Scalar.lt a b
  | real a, int b => Scalar.compareInt a b == some .lt
  | int a, real b => Scalar.compareInt b a == some .gt

/-- Equal, exactly. -/
def eq : Number α → Number α → Bool
  | int a, int b => a == b
  | real a, real b => Scalar.eq a b
  | real a, int b | int b, real a => Scalar.compareInt a b == some .eq

/-- Below or equal, exactly. -/
def le (x y : Number α) : Bool := lt x y || eq x y

/-- The first of two numbers unless the second is above it. -/
def larger (x y : Number α) : Number α := if lt x y then y else x

/-- The first of two numbers unless the second is below it. -/
def smaller (x y : Number α) : Number α := if lt y x then y else x

/-- The largest of the numbers, the first one among equals. -/
def greatest (first : Number α) (rest : List (Number α)) : Number α := rest.foldl larger first

/-- The smallest of the numbers, the first one among equals. -/
def least (first : Number α) (rest : List (Number α)) : Number α := rest.foldl smaller first

@[simp] theorem add_int (a b : Int) : add (int a : Number α) (int b) = .ok (int (a + b)) := rfl

@[simp] theorem add_real (a b : α) : add (real a) (real b) = .ok (real (a + b)) := rfl

@[simp] theorem sub_int (a b : Int) : sub (int a : Number α) (int b) = .ok (int (a - b)) := rfl

@[simp] theorem remainder_int (a : Int) (n : Nat) :
    remainder (int a : Number α) n = .ok (int (a.fmod n)) := rfl

@[simp] theorem sub_real (a b : α) : sub (real a) (real b) = .ok (real (a - b)) := rfl

end Number

end PackedDrawing
