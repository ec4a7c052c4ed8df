import PackedDrawing.Text.Numeral
/-!
# JSON text

A JSON text stands for a tree of lists and tables over numbers, texts, truth values and nothing at
all. `Json.read?` reads a text and `Json.render` writes one.

## Implementation notes

A number is whole when it is written without a point and without a power of ten; any other keeps its
numeral, so the sign of a zero and numbers beyond every bound are not lost. The names of infinity
and of the undefined number are read as well. Of entries of a table under one name, the first gives
the place and the last gives the value. A character outside the basic plane may be written as two
escapes; half of such a pair stands for the replacement character.
-/

namespace PackedDrawing

/-- What a JSON text stands for. -/
inductive Json where
  | null
  | bool (b : Bool)
  | int (n : Int)
  | real (x : Numeral)
  | text (s : String)
  | list (items : List Json)
  | table (entries : List (String × Json))
  deriving Inhabited

namespace Json

/-! ## Looking into a value -/

/-- The entry of a table under a name. -/
def get? (j : Json) (name : String) : Option Json :=
  match j with
  | table es => es.lookup name
  | _ => none

/-- The items of a list; other values have none. -/
def items : Json → List Json
  | list xs => xs
  | _ => []

/-- The entries of a table; other values have none. -/
def entries : Json → List (String × Json)
  | table es => es
  | _ => []

/-- The text that a value is; other values count as empty. -/
def asText : Json → String
  | text s => s
  | _ => ""

/-- The items of the list under a name. -/
def itemsAt (j : Json) (name : String) : List Json := ((j.get? name).map items).getD []

/-- The text under a name. -/
def textAt (j : Json) (name : String) : String := ((j.get? name).map asText).getD ""

/-- Whether there is the truth under a name. -/
def isTrueAt (j : Json) (name : String) : Bool :=
  match j.get? name with
  | some (bool b) => b
  | _ => false

/-- The value under a name, if it is anything at all. -/
def given? (j : Json) (name : String) : Option Json :=
  match j.get? name with
  | some null => none
  | other => other

/-! ## Reading -/

/-- A text without the blanks in front. -/
def skip (cs : List Char) : List Char :=
  cs.dropWhile fun c => c = ' ' || c = '\n' || c = '\r' || c = '\t'

/-- The value of a digit of base sixteen. -/
def hexDigit? (c : Char) : Option Nat :=
  if c.isDigit then some (c.toNat - 0x30)
  else if 'a' ≤ c && c ≤ 'f' then some (c.toNat - 0x57)
  else if 'A' ≤ c && c ≤ 'F' then some (c.toNat - 0x37)
  else none

/-- The number that digits of base sixteen stand for. -/
def hexNumber? (cs : List Char) : Option Nat :=
  cs.foldlM (fun n c => (hexDigit? c).map (16 * n + ·)) 0

/-- The character that a letter behind a backslash stands for. -/
def escaped? (c : Char) : Option Nat :=
  if c = '\x22' || c = '\\' || c = '/' then some c.toNat
  else ([('b', 8), ('f', 12), ('n', 10), ('r', 13), ('t', 9)] : List (Char × Nat)).lookup c

/-- The characters up to the closing quote by their numbers, the last one in front, behind those
read before; and the rest. -/
def readUnits? (done : List Nat) : List Char → Option (List Nat × List Char)
  | '\x22' :: rest => some (done, rest)
  | '\\' :: 'u' :: a :: b :: c :: d :: rest =>
    (hexNumber? [a, b, c, d]).bind fun n => readUnits? (n :: done) rest
  | '\\' :: c :: rest => (escaped? c).bind fun n => readUnits? (n :: done) rest
  | c :: rest => if c.toNat < 0x20 then none else readUnits? (c.toNat :: done) rest
  | [] => none
termination_by cs => cs.length

/-- The character with a number, unless that is half a character. -/
def whole (n : Nat) : Char := if 0xd800 ≤ n && n < 0xe000 then Char.ofNat 0xfffd else Char.ofNat n

/-- The characters with given numbers, of which the last comes first. A high half followed by a low
half makes one character. -/
def joinUnits (done : List Char) : List Nat → List Char
  | low :: high :: rest =>
    if 0xdc00 ≤ low && low < 0xe000 && 0xd800 ≤ high && high < 0xdc00 then
      joinUnits (Char.ofNat (0x10000 + (high - 0xd800) * 0x400 + (low - 0xdc00)) :: done) rest
    else joinUnits (whole low :: done) (high :: rest)
  | [n] => whole n :: done
  | [] => done
termination_by units => units.length

/-- The text up to the closing quote, and the rest. -/
def readText? (cs : List Char) : Option (String × List Char) :=
  (readUnits? [] cs).map fun r => (String.ofList (joinUnits [] r.1), r.2)

/-- The digits at the front, and the rest. -/
def digits (cs : List Char) : List Char × List Char :=
  (cs.takeWhile Char.isDigit, cs.dropWhile Char.isDigit)

/-- The places behind a point, if there are any, and the rest. -/
def readPlaces : List Char → List Char × List Char
  | '.' :: rest => if (digits rest).1.isEmpty then ([], '.' :: rest) else digits rest
  | rest => ([], rest)

/-- The power of ten, if there is any, and the rest. -/
def readPower (cs : List Char) : Option Int × List Char :=
  match cs with
  | e :: rest =>
    let (negative, signless) := Numeral.sign rest
    let (ds, tail) := digits signless
    if (e = 'e' || e = 'E') && !ds.isEmpty then
      let n : Int := Numeral.value ds
      (some (if negative then -n else n), tail)
    else (none, cs)
  | [] => (none, [])

/-- The number without a sign at the front, and the rest. -/
def readMagnitude? (negative : Bool) (cs : List Char) : Option (Json × List Char) :=
  let (whole, rest) := match cs with
    | '0' :: rest => (['0'], rest)
    | rest => digits rest
  if whole.isEmpty then none
  else
    let (places, rest) := readPlaces rest
    let (power, rest) := readPower rest
    if places.isEmpty && power.isNone then
      let n : Int := Numeral.value whole
      some (int (if negative then -n else n), rest)
    else
      some (real (.finite negative (Numeral.value (whole ++ places))
        (power.getD 0 - places.length)), rest)

/-- The words with a meaning of their own. -/
def words : List (String × Json) :=
  [("null", null), ("true", bool true), ("false", bool false), ("NaN", real .undefined),
    ("Infinity", real (.infinite false)), ("-Infinity", real (.infinite true))]

/-- The word or number at the front, and the rest. -/
def readAtom? (cs : List Char) : Option (Json × List Char) :=
  match words.find? fun w => w.1.toList.isPrefixOf cs with
  | some w => some (w.2, cs.drop w.1.length)
  | none =>
    match cs with
    | '-' :: rest => readMagnitude? true rest
    | _ => readMagnitude? false cs

/-- Puts an entry into a table whose last entry is in front. -/
def putEntry (name : String) (v : Json) (entries : List (String × Json)) : List (String × Json) :=
  if entries.any (·.1 == name) then entries.map fun e => if e.1 == name then (name, v) else e
  else (name, v) :: entries

mutual

/-- The value at the front, and the rest. Each step leaves a shorter rest, so the number of
characters bounds the number of steps. -/
def readValue? : Nat → List Char → Option (Json × List Char)
  | 0, _ => none
  | steps + 1, cs =>
    match skip cs with
    | '[' :: rest =>
      match skip rest with
      | ']' :: rest => some (list [], rest)
      | rest => readItems? steps [] rest
    | '\x7b' :: rest =>
      match skip rest with
      | '\x7d' :: rest => some (table [], rest)
      | rest => readEntries? steps [] rest
    | '\x22' :: rest => (readText? rest).map fun r => (text r.1, r.2)
    | rest => readAtom? rest

/-- The items of a list up to its end, behind those read before. -/
def readItems? : Nat → List Json → List Char → Option (Json × List Char)
  | 0, _, _ => none
  | steps + 1, done, cs => do
    let (v, rest) ← readValue? steps cs
    match skip rest with
    | ',' :: rest => readItems? steps (v :: done) rest
    | ']' :: rest => return (list (v :: done).reverse, rest)
    | _ => none

/-- The entries of a table up to its end, behind those read before. -/
def readEntries? : Nat → List (String × Json) → List Char → Option (Json × List Char)
  | 0, _, _ => none
  | steps + 1, done, cs =>
    match skip cs with
    | '\x22' :: rest => do
      let (name, rest) ← readText? rest
      match skip rest with
      | ':' :: rest => do
        let (v, rest) ← readValue? steps rest
        let done := putEntry name v done
        match skip rest with
        | ',' :: rest => readEntries? steps done rest
        | '\x7d' :: rest => return (table done.reverse, rest)
        | _ => none
      | _ => none
    | _ => none

end

/-- What a whole text stands for. -/
def read? (s : String) : Option Json :=
  let cs := s.toList
  match readValue? (cs.length + 1) cs with
  | some (v, rest) => if (skip rest).isEmpty then some v else none
  | none => none

/-! ## Writing -/

/-- The digit of base sixteen below sixteen. -/
def hexDigit (n : Nat) : Char := ("0123456789abcdef".toList)[n]?.getD '0'

/-- Appends a character between quotes. -/
def writeChar (out : String) (c : Char) : String :=
  if c = '\x22' || c = '\\' then (out.push '\\').push c
  else if c.toNat < 0x20 then
    ((out ++ "\\u00").push (hexDigit (c.toNat / 16))).push (hexDigit (c.toNat % 16))
  else out.push c

/-- Appends a text between quotes. -/
def writeText (out s : String) : String := (s.toList.foldl writeChar (out.push '\x22')).push '\x22'

/-- A numeral as a number that is not whole. -/
def numeralText : Numeral → String
  | .finite negative c p => (if negative then "-" else "") ++ toString c ++ ".0e" ++ toString p
  | .infinite negative => if negative then "-Infinity" else "Infinity"
  | .undefined => "NaN"

mutual

/-- Appends a value. -/
def write (out : String) : Json → String
  | null => out ++ "null"
  | bool b => out ++ (if b then "true" else "false")
  | int n => out ++ toString n
  | real x => out ++ numeralText x
  | text s => writeText out s
  | list xs => (writeItems (out.push '[') true xs).push ']'
  | table es => (writeEntries (out.push '\x7b') true es).push '\x7d'

/-- Appends items with commas between them. -/
def writeItems (out : String) (start : Bool) : List Json → String
  | [] => out
  | x :: xs => writeItems (write (if start then out else out.push ',') x) false xs

/-- Appends entries with commas between them. -/
def writeEntries (out : String) (start : Bool) : List (String × Json) → String
  | [] => out
  | (name, v) :: es =>
    writeEntries (write ((writeText (if start then out else out.push ',') name).push ':') v)
      false es

end

/-- The text of a value. -/
def render (j : Json) : String := write "" j

@[simp] theorem readPlaces_nil : readPlaces [] = ([], []) := rfl

@[simp] theorem readPower_nil : readPower [] = (none, []) := rfl

end Json

end PackedDrawing
