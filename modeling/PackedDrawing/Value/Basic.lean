import PackedDrawing.Handle
import PackedDrawing.Numeric.Number
/-!
# Values

Drawings carry whatever their users put into them: numbers, truth values, texts, lists and tables,
and things of other kinds of which only the index they carry is known. A `Value` is any of these.
The operations here are the readings the library makes of a value: as a number, a scalar, a whole
number, a sequence of items, or a pair.

## Implementation notes

Truth values count as the numbers zero and one wherever a number is asked for.
-/

namespace PackedDrawing

/-- What a field of a drawing may hold. -/
inductive Value (α : Type) where
  | int (n : Int)
  | real (r : α)
  | bool (b : Bool)
  | null
  | text (s : String)
  | list (items : List (Value α))
  | table (entries : List (String × Value α))
  /-- A thing of another kind, and its index if it has that attribute. -/
  | thing (index : Option (Value α))
  deriving Inhabited

namespace Value

variable {α : Type}

/-- A number as a value. -/
def ofNumber : Number α → Value α
  | .int n => int n
  | .real r => real r

/-- A mention of a position as a value. -/
def ofHandle (h : Handle) : Value α :=
  if h.truth then bool (h.position != 0) else int h.position

/-- The number a value is. -/
def number : Value α → Except Fault (Number α)
  | int n => .ok (.int n)
  | real r => .ok (.real r)
  | bool b => .ok (.int (if b then 1 else 0))
  | _ => .error .typeMismatch

/-- The mention of a position a value is. -/
def handle? : Value α → Option Handle
  | int n => some ⟨n, false⟩
  | bool b => some (.ofBool b)
  | _ => none

/-- The position a value mentions, where nothing else will do. -/
def position (v : Value α) : Except Fault Int :=
  match v.handle? with
  | some h => .ok h.position
  | none => .error .typeMismatch

@[simp] theorem number_int (n : Int) : (int n : Value α).number = .ok (.int n) := rfl

@[simp] theorem number_real (r : α) : (real r).number = .ok (.real r) := rfl

@[simp] theorem number_ofNumber (x : Number α) : (ofNumber x).number = .ok x := by
  cases x <;> rfl

/-- The items of a value: those of a list, the characters of a text, the keys of a table. -/
def items : Value α → Except Fault (List (Value α))
  | list xs => .ok xs
  | text s => .ok (s.toList.map fun c => text (String.ofList [c]))
  | table es => .ok (es.map fun e => text e.1)
  | _ => .error .typeMismatch

/-- The two items of a value that has exactly two. -/
def pair (v : Value α) : Except Fault (Value α × Value α) := do
  match ← v.items with
  | [x, y] => return (x, y)
  | _ => throw .badValue

/-- The positions in a list of a given length that values mention. -/
def places (length : Nat) (indices : List (Value α)) : Except Fault (List Nat) :=
  indices.mapM fun v => do
    match Handle.place? length (← v.position) with
    | some k => return k
    | none => throw .outOfRange

variable [Scalar α]

/-- A value that is a number, as a scalar. -/
def scalar (v : Value α) : Except Fault α := do (← v.number).toReal

/-- A value as a scalar: a number, or the numeral in a text. -/
def toReal : Value α → Except Fault α
  | text s =>
    match Numeral.read? s with
    | some n => Scalar.ofNumeral n
    | none => .error .badValue
  | v => v.scalar

/-- A value as a whole number: a scalar loses its fraction, and a text is read. -/
def toWhole : Value α → Except Fault Int
  | int n => .ok n
  | bool b => .ok (if b then 1 else 0)
  | real r => Scalar.truncate r
  | text s =>
    match Numeral.wholeNumber? s with
    | some n => .ok n
    | none => .error .badValue
  | _ => .error .typeMismatch

@[simp] theorem toReal_real (r : α) : (real r).toReal = .ok r := rfl

/-- Whether a value counts as true: zero, nothing and whatever is empty do not. -/
def holds : Value α → Bool
  | int n => n != 0
  | real r => !Scalar.eq r 0.0
  | bool b => b
  | null => false
  | text s => !s.isEmpty
  | list xs => !xs.isEmpty
  | table es => !es.isEmpty
  | thing _ => true

/-- The sum of two values: of numbers, or two texts or two lists put together. -/
def add : Value α → Value α → Except Fault (Value α)
  | text s, text t => .ok (text (s ++ t))
  | list xs, list ys => .ok (list (xs ++ ys))
  | v, w => do return ofNumber (← (← v.number).add (← w.number))

/-- The difference of two values that are numbers. -/
def sub (v w : Value α) : Except Fault (Value α) := do
  return ofNumber (← (← v.number).sub (← w.number))

end Value

end PackedDrawing
