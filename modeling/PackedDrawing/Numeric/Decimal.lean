import PackedDrawing.Numeric.Binary64
/-!
# Decimal text of binary numbers

Three ways to write a double-precision number, all computed from its exact value
`significand * 2 ^ exponent`:

* `shortestText`: the fewest digits that read back as the same number;
* `fixedText`: a set number of places after the point, a tie going to the even digit;
* `scientificText`: one digit before the point, a set number after it, and a power of ten.

## Implementation notes

The numbers that read back as a given one form an interval, whose ends count exactly when the
significand is even. `candidate` looks at the two neighbours of the value on the grid of numbers
with a given count of digits: when the interval holds any point of the grid, it holds one of them.
-/

namespace PackedDrawing.Decimal

open Binary64 (Datum roundQuotient)

-- powers of whole numbers as the core library has them, whatever else is in scope
attribute [local instance (high)] instPowNat

/-- The fraction `m * 2 ^ q / 10 ^ u`. -/
def overTen (m : Nat) (q u : Int) : Nat × Nat :=
  (m * 2 ^ q.toNat * 10 ^ (-u).toNat, 2 ^ (-q).toNat * 10 ^ u.toNat)

/-- Whether `10 ^ u` is at most `m * 2 ^ q`. -/
def reaches (m : Nat) (q u : Int) : Bool :=
  let f := overTen m q u
  f.2 ≤ f.1

/-- The exponent of the largest power of ten that does not exceed `m * 2 ^ q`. The logarithm is
estimated from the binary exponent and corrected by comparison. -/
def leadingPower (m : Nat) (q : Int) : Int :=
  let u := ((Nat.log2 m : Int) + q) * 30103 / 100000
  if reaches m q (u + 1) then u + 1 else if reaches m q u then u else u - 1

/-- A decimal number `coefficient * 10 ^ power`. -/
structure Digits where
  coefficient : Nat
  power : Int
  deriving DecidableEq, Repr

/-- The number with `count` significant digits that is nearest to `m * 2 ^ q` among those that read
back as `m * 2 ^ q`, if there is one. -/
def candidate (m : Nat) (q : Int) (count : Nat) : Option Digits :=
  let u := leadingPower m q - count + 1
  let value := overTen (4 * m) (q - 2) u
  let low := overTen (4 * m - (if m = 2 ^ (52 : Nat) ∧ -1074 < q then 1 else 2)) (q - 2) u
  let high := overTen (4 * m + 2) (q - 2) u
  let den := value.2
  let fits (c : Nat) : Bool :=
    if m % 2 = 0 then low.1 ≤ c * den && c * den ≤ high.1
    else low.1 < c * den && c * den < high.1
  let c := value.1 / den
  if fits c && fits (c + 1) then
    some ⟨if roundQuotient value.1 den = c then c else c + 1, u⟩
  else if fits c then some ⟨c, u⟩
  else if fits (c + 1) then some ⟨c + 1, u⟩
  else none

/-- The shortest decimal number that reads back as `m * 2 ^ q`; seventeen digits always do. -/
def shortest (m : Nat) (q : Int) : Digits :=
  ((List.range 17).findSome? fun n => candidate m q (n + 1)).getD ⟨m * 2 ^ q.toNat, 0⟩

/-- The digits of a whole number. -/
def digits (n : Nat) : List Char := Nat.toDigits 10 n

/-- A minus sign, or nothing. -/
def signText (negative : Bool) : String := if negative then "-" else ""

/-- The digits of a whole number with at least two of them. -/
def twoDigits (n : Nat) : String :=
  (if n < 10 then "0" else "") ++ String.ofList (digits n)

/-- A power of ten as it is written after a coefficient: its sign and at least two digits. -/
def powerText (p : Int) : String :=
  (if p < 0 then "e-" else "e+") ++ twoDigits p.natAbs

/-- Where positional notation ends: numbers from `10 ^ from` up to below `10 ^ below` are written
without a power of ten. -/
structure Positional where
  lowest : Int
  below : Int

/-- Numbers are written positionally from `0.0001` up to sixteen digits before the point. -/
def positional : Positional := ⟨-4, 16⟩

/-- Digits with a point after the first `whole` of them; a missing part is filled with zeros. -/
def pointed (ds : List Char) (whole : Int) : String :=
  if whole ≤ 0 then
    "0." ++ String.ofList (List.replicate (-whole).toNat '0' ++ ds)
  else
    let w := whole.toNat
    let front := ds.take w ++ List.replicate (w - ds.length) '0'
    let back := ds.drop w
    String.ofList front ++ "." ++ (if back.isEmpty then "0" else String.ofList back)

/-- Digits without the zeros that end them. -/
def trimZeros (ds : List Char) : List Char :=
  (ds.reverse.dropWhile (· == '0')).reverse

/-- The text of a decimal number above zero: positional with a digit on each side of the point, or
the digits with a power of ten. -/
def Digits.text (d : Digits) : String :=
  let all := digits d.coefficient
  let ds := trimZeros all
  let lead := d.power + all.length - 1
  if positional.lowest ≤ lead ∧ lead < positional.below then pointed ds (lead + 1)
  else
    match ds with
    | [] => "0.0"
    | first :: rest =>
      String.ofList [first] ++ (if rest.isEmpty then "" else "." ++ String.ofList rest)
        ++ powerText lead

/-- The text of a number with the fewest digits that read back. -/
def shortestText : Datum → String
  | .undefined => "nan"
  | .infinite negative => signText negative ++ "inf"
  | .finite negative m q =>
    signText negative ++ (if m = 0 then "0.0" else (shortest m q).text)

/-- The digits of `n` over `10 ^ places`, with exactly `places` digits after the point. -/
def fixedDigits (places n : Nat) : String :=
  let ds := digits n
  let padded := List.replicate (places + 1 - ds.length) '0' ++ ds
  let whole := padded.length - places
  String.ofList (padded.take whole)
    ++ (if places = 0 then "" else "." ++ String.ofList (padded.drop whole))

/-- The text of a number with a set number of places after the point. -/
def fixedText (places : Nat) : Datum → String
  | .undefined => "nan"
  | .infinite negative => signText negative ++ "inf"
  | .finite negative m q =>
    let f := overTen m q (-(places : Int))
    signText negative ++ fixedDigits places (roundQuotient f.1 f.2)

/-- The text of a number as a coefficient with a set number of places and a power of ten. -/
def scientificText (places : Nat) : Datum → String
  | .undefined => "nan"
  | .infinite negative => signText negative ++ "inf"
  | .finite negative m q =>
    if m = 0 then signText negative ++ fixedDigits places 0 ++ powerText 0
    else
      let lead := leadingPower m q
      let f := overTen m q (lead - places)
      let c := roundQuotient f.1 f.2
      if c < 10 ^ (places + 1) then
        signText negative ++ fixedDigits places c ++ powerText lead
      else signText negative ++ fixedDigits places (c / 10) ++ powerText (lead + 1)

end PackedDrawing.Decimal
