import PackedDrawing.Text.Character
/-!
# Reading numerals

`Numeral.read?` reads a number with an optional sign, point and power of ten, or one of the names of
infinity and of the undefined number; `wholeNumber?` reads digits with an optional sign. Blanks may
surround both, and a single underscore may stand between two digits.

## Implementation notes

`tokens` first turns the text into plain characters: every decimal digit of any alphabet becomes the
plain digit, and an underscore is dropped when digits stand on both sides of it. A text with any
other underscore is no numeral.
-/

namespace PackedDrawing

/-- A number as it is written. -/
inductive Numeral where
  | finite (negative : Bool) (coefficient : Nat) (power : Int)
  | infinite (negative : Bool)
  | undefined
  deriving DecidableEq, Repr

namespace Numeral

/-- A character as numerals are read: digits of any alphabet become plain ones. -/
def plain (c : Char) : Char :=
  match Character.digit? c with
  | some d => Char.ofNat (0x30 + d)
  | none => c

/-- The text between the blanks around it. -/
def strip (cs : List Char) : List Char :=
  ((cs.dropWhile Character.isBlank).reverse.dropWhile Character.isBlank).reverse

/-- Drops the underscores between digits; `none` if there is any other underscore. The flag tells
whether the character before was a digit. -/
def joinDigits? : Bool → List Char → Option (List Char)
  | _, [] => some []
  | before, c :: rest =>
    if c = '_' then
      match rest with
      | d :: _ => if before && d.isDigit then joinDigits? false rest else none
      | [] => none
    else (joinDigits? c.isDigit rest).map (c :: ·)

/-- The characters of a numeral. -/
def tokens (text : String) : Option (List Char) :=
  joinDigits? false ((strip text.toList).map plain)

/-- A sign in front: whether it is a minus, and the rest. -/
def sign : List Char → Bool × List Char
  | '-' :: rest => (true, rest)
  | '+' :: rest => (false, rest)
  | cs => (false, cs)

/-- The number that a list of digits stands for. -/
def value (ds : List Char) : Nat :=
  ds.foldl (fun n d => 10 * n + (d.toNat - 0x30)) 0

/-- The power of ten at the end of a numeral; none at all counts as zero. -/
def power? : List Char → Option Int
  | [] => some 0
  | c :: rest =>
    if c = 'e' || c = 'E' then
      let (negative, ds) := sign rest
      if ds.isEmpty || !ds.all Char.isDigit then none
      else some (if negative then -(value ds : Int) else value ds)
    else none

/-- Digits, an optional point with digits, and an optional power, with a digit before the power. -/
def magnitude? (negative : Bool) (cs : List Char) : Option Numeral :=
  let whole := cs.takeWhile Char.isDigit
  let rest := cs.dropWhile Char.isDigit
  let (places, tail) := match rest with
    | '.' :: r => (r.takeWhile Char.isDigit, r.dropWhile Char.isDigit)
    | r => ([], r)
  if whole.isEmpty && places.isEmpty then none
  else (power? tail).map fun p =>
    finite negative (value (whole ++ places)) (p - places.length)

/-- The number that a text stands for. -/
def read? (text : String) : Option Numeral :=
  (tokens text).bind fun cs =>
    let (negative, rest) := sign cs
    let word := String.ofList (rest.map Char.toLower)
    if word = "inf" || word = "infinity" then some (infinite negative)
    else if word = "nan" then some undefined
    else magnitude? negative rest

/-- The most digits with which a whole number is read. -/
def longest : Nat := 4300

/-- The whole number that a text stands for, unless it has too many digits. -/
def wholeNumber? (text : String) : Option Int :=
  (tokens text).bind fun cs =>
    let (negative, ds) := sign cs
    if ds.isEmpty || longest < ds.length || !ds.all Char.isDigit then none
    else some (if negative then -(value ds : Int) else value ds)

end Numeral

end PackedDrawing
