import PackedDrawing.Numeric.Decimal
import PackedDrawing.Numeric.Scalar
/-!
# Double-precision scalars

The scalars that the library runs on. Whatever has an exact answer (rounding to whole numbers,
comparison with whole numbers, quotients of whole numbers, text) is computed exactly from the
number's significand and exponent and rounded at most once.
-/

namespace PackedDrawing.Double

open Binary64 (Datum nearest)

-- powers of whole numbers as the core library has them, whatever else is in scope
attribute [local instance (high)] instPowNat

/-- The double of a whole number, when it is in range. -/
def ofInt (n : Int) : Except Fault Float :=
  let x := nearest (n < 0) n.natAbs 1
  if x.isFinite then .ok x else .error .overflow

/-- The double nearest to the quotient of two whole numbers, when it is in range. -/
def ofQuotient (a b : Int) : Except Fault Float :=
  let x := nearest (decide (a < 0) != decide (b < 0)) a.natAbs b.natAbs
  if x.isFinite then .ok x else .error .overflow

/-- The double nearest to a written number. Powers of ten beyond any double are not computed. -/
def ofNumeral : Numeral → Float
  | .undefined => 0.0 / 0.0
  | .infinite negative => if negative then -1.0 / 0.0 else 1.0 / 0.0
  | .finite negative c p =>
    let lead : Int := (Decimal.digits c).length + p
    if c = 0 || lead < -400 then nearest negative 0 1
    else if 400 < lead then (if negative then -1.0 / 0.0 else 1.0 / 0.0)
    else nearest negative (c * 10 ^ p.toNat) (10 ^ (-p).toNat)

/-- A finite double as a fraction: `num / den`. -/
def fraction (negative : Bool) (m : Nat) (q : Int) : Int × Int :=
  let n : Int := (m * 2 ^ q.toNat : Nat)
  (if negative then -n else n, (2 ^ (-q).toNat : Nat))

/-- The least whole number that is not below a double. -/
def ceil (x : Float) : Except Fault Int :=
  match Datum.ofFloat x with
  | .undefined => .error .badValue
  | .infinite _ => .error .overflow
  | .finite negative m q =>
    let f := fraction negative m q
    .ok (-((-f.1).fdiv f.2))

/-- The whole number next to a double toward zero. -/
def truncate (x : Float) : Except Fault Int :=
  match Datum.ofFloat x with
  | .undefined => .error .badValue
  | .infinite _ => .error .overflow
  | .finite negative m q =>
    let f := fraction negative m q
    .ok (f.1.tdiv f.2)

/-- How a double compares with a whole number. -/
def compareInt (x : Float) (n : Int) : Option Ordering :=
  match Datum.ofFloat x with
  | .undefined => none
  | .infinite negative => some (if negative then .lt else .gt)
  | .finite negative m q =>
    let f := fraction negative m q
    some (compare f.1 (n * f.2))

/-- The distance from the origin. Both legs are first divided by a power of two near the longer one,
so no square overflows or vanishes. -/
def hypot (x y : Float) : Float :=
  let a := x.abs
  let b := y.abs
  if a.isInf || b.isInf then 1.0 / 0.0
  else if a.isNaN || b.isNaN then 0.0 / 0.0
  else
    let longer := if a < b then b else a
    if longer == 0.0 then 0.0
    else
      let e := longer.frExp.2
      let u := a.scaleB (-e)
      let v := b.scaleB (-e)
      (u * u + v * v).sqrt.scaleB e

/-- The cosine and sine of an infinite angle have no value. -/
def turn (f : Float → Float) (x : Float) : Except Fault Float :=
  if x.isInf then .error .badValue else .ok (f x)

end PackedDrawing.Double

namespace PackedDrawing

open Double in
instance : Scalar Float where
  toAdd := inferInstance
  toSub := inferInstance
  toMul := inferInstance
  toDiv := inferInstance
  toNeg := inferInstance
  toOfScientific := inferInstance
  lt x y := x < y
  eq x y := x == y
  isFinite := Float.isFinite
  isWhole x := x.isFinite && x.floor == x
  top? := some (1.0 / 0.0)
  pi := 3.141592653589793
  hypot := hypot
  atan2 := Float.atan2
  cos := turn Float.cos
  sin := turn Float.sin
  ceil := ceil
  truncate := truncate
  ofInt := ofInt
  ofNumeral n := .ok (ofNumeral n)
  ofQuotient := ofQuotient
  compareInt := compareInt

instance : Written Float where
  shortest x := Decimal.shortestText (.ofFloat x)
  fixed places x := Decimal.fixedText places (.ofFloat x)

end PackedDrawing
