import PackedDrawing.Text.Quoted
import PackedDrawing.Value.Basic
/-!
# Values as text

How a value is shown in labels, messages and descriptions. A text shows as itself; inside a list or
a table it is quoted. `Value.fixed` writes numbers with a set number of places.
-/

namespace PackedDrawing

namespace Value

variable {α : Type} [Written α]

mutual

/-- How a value is shown inside a list or a table. -/
def inner : Value α → String
  | int n => toString n
  | real r => Written.shortest r
  | bool b => if b then "True" else "False"
  | null => "None"
  | text s => Quoted.render s
  | list xs => "[" ++ ", ".intercalate (innerItems xs) ++ "]"
  | table es => "\x7b" ++ ", ".intercalate (innerEntries es) ++ "\x7d"
  | thing _ => "<thing>"

/-- How the items of a list are shown. -/
def innerItems : List (Value α) → List String
  | [] => []
  | x :: xs => inner x :: innerItems xs

/-- How the entries of a table are shown. -/
def innerEntries : List (String × Value α) → List String
  | [] => []
  | (k, v) :: es => (Quoted.render k ++ ": " ++ inner v) :: innerEntries es

end

/-- How a value is shown. -/
def shown : Value α → String
  | text s => s
  | v => inner v

/-- A number with a set number of places after the point. Texts have content that cannot be written
so, and other values are no numbers at all. -/
def fixed [Scalar α] (places : Nat) (v : Value α) : Except Fault String :=
  match v with
  | text _ => .error .badValue
  | v => do return Written.fixed places (← (← v.number).toReal)

end Value

/-- A number with a set number of places after the point. -/
def Number.fixed {α : Type} [Scalar α] [Written α] (places : Nat) (x : Number α) :
    Except Fault String := do
  return Written.fixed places (← x.toReal)

end PackedDrawing
