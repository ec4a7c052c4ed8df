/-!
# Binary64 words

A double-precision number is a sign, a whole significand below `2 ^ 53` and a power of two no
smaller than `2 ^ -1074`. `Datum.ofFloat` takes a number apart, and `nearest` finds the double
closest to a quotient of whole numbers, a tie going to the even significand.

## Implementation notes

With `q` the exponent of the last place and `m` the rounded significand, the word is
`(q + 1074) * 2 ^ 52 + m` for subnormal and normal numbers alike: a significand that rounds up to
`2 ^ 53` carries into the exponent field by itself.
-/

namespace PackedDrawing.Binary64

-- powers of whole numbers as the core library has them, whatever else is in scope
attribute [local instance (high)] instPowNat

/-- What a double-precision word stands for. -/
inductive Datum where
  | finite (negative : Bool) (significand : Nat) (exponent : Int)
  | infinite (negative : Bool)
  | undefined
  deriving DecidableEq, Repr

/-- The datum of a word, given by its 64 bits. -/
def Datum.ofWord (word : Nat) : Datum :=
  let negative := decide (2 ^ (63 : Nat) ≤ word)
  let field : Nat := word / 2 ^ (52 : Nat) % 2 ^ (11 : Nat)
  let fraction : Nat := word % 2 ^ (52 : Nat)
  if field = 2047 then (if fraction = 0 then infinite negative else undefined)
  else if field = 0 then finite negative fraction (-1074)
  else finite negative (2 ^ (52 : Nat) + fraction) ((field : Int) - 1075)

/-- The datum of a number. -/
def Datum.ofFloat (x : Float) : Datum := ofWord x.toBits.toNat

/-- The quotient rounded to a whole number, a tie going to the even one. -/
def roundQuotient (num den : Nat) : Nat :=
  let q := num / den
  let r := num % den
  if 2 * r < den then q
  else if den < 2 * r then q + 1
  else if q % 2 = 0 then q else q + 1

/-- The quotient `num / den` over the power `2 ^ e`, as a quotient again. -/
def overTwo (num den : Nat) (e : Int) : Nat × Nat :=
  (num * 2 ^ (-e).toNat, den * 2 ^ e.toNat)

/-- The exponent of the largest power of two that does not exceed `num / den`. -/
def leadingExponent (num den : Nat) : Int :=
  let e : Int := (Nat.log2 num : Int) - (Nat.log2 den : Int)
  let scaled := overTwo num den e
  if scaled.2 ≤ scaled.1 then e else e - 1

/-- The word of infinity. -/
def infinityWord : Nat := 2047 * 2 ^ (52 : Nat)

/-- The word of the double nearest to `num / den`; infinity when no finite double is near. -/
def nearestWord (num den : Nat) : Nat :=
  if num = 0 then 0
  else
    let q := max (leadingExponent num den - 52) (-1074)
    let scaled := overTwo num den q
    min infinityWord ((q + 1074).toNat * 2 ^ (52 : Nat) + roundQuotient scaled.1 scaled.2)

/-- The double nearest to a signed quotient. -/
def nearest (negative : Bool) (num den : Nat) : Float :=
  Float.ofBits (UInt64.ofNat ((if negative then 2 ^ (63 : Nat) else 0) + nearestWord num den))

theorem roundQuotient_mul (q : Nat) {den : Nat} (h : 0 < den) :
    roundQuotient (q * den) den = q := by
  simp [roundQuotient, Nat.mul_div_cancel _ h, Nat.mul_mod_left, h]

theorem nearestWord_le (num den : Nat) : nearestWord num den ≤ infinityWord := by
  unfold nearestWord
  split
  · simp [infinityWord]
  · exact Nat.min_le_left _ _

end PackedDrawing.Binary64
