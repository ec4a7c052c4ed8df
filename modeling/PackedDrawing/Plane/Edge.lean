import PackedDrawing.Plane.Polygon
/-!
# Edges between values

The ends of an edge may be given as values. The coordinates of one end are then held in one form
that suits all of them: truth values, words of sixty-four bits with or without a sign, scalars, or
the values as they are. `Value.normalTo` subtracts coordinates in the forms in which they are held,
so the difference of large whole numbers is exact as long as they are held as whole numbers.

## Main definitions

* `Form`, `Form.join`: the forms, and the form that suits two values.
* `Cell`, `Cell.sub`: a value in its form, and the difference of two.
* `Value.normalTo`: the unit normal of an edge.

## Implementation notes

Words wrap around. A whole number that is held as it is enters a word only if it fits. Truth values
have no difference of their own; beside a word they count as zero and one.
-/

namespace PackedDrawing

-- powers of whole numbers as the core library has them, whatever else is in scope
attribute [local instance (high)] instPowNat

/-- How the coordinates of a point are held. -/
inductive Form where
  | truth
  | signed
  | unsigned
  | scalar
  /-- In a form that knows no differences. -/
  | other
  /-- As they are. -/
  | asGiven
  deriving DecidableEq, Repr

namespace Form

variable {α : Type}

/-- The form that a value by itself is held in. -/
def ofValue : Value α → Form
  | .bool _ => truth
  | .int n =>
    if -2 ^ (63 : Nat) ≤ n ∧ n < 2 ^ (63 : Nat) then signed
    else if 0 ≤ n ∧ n < 2 ^ (64 : Nat) then unsigned
    else asGiven
  | .real _ => scalar
  | .text _ => other
  | .null | .list _ | .table _ | .thing _ => asGiven

/-- The form that suits values of two forms. -/
def join (f g : Form) : Form :=
  if f = g then f
  else
    match f, g with
    | truth, h | h, truth => h
    | asGiven, _ | _, asGiven => asGiven
    | other, _ | _, other => other
    | _, _ => scalar

/-- The form that suits all values of a list. -/
def ofValues : List (Value α) → Form
  | [] => scalar
  | v :: vs => vs.foldl (fun f w => f.join (ofValue w)) (ofValue v)

theorem join_self (f : Form) : f.join f = f := by simp [join]

theorem join_comm (f g : Form) : f.join g = g.join f := by cases f <;> cases g <;> rfl

end Form

/-- A value in the form in which it is held. -/
inductive Cell (α : Type) where
  | truth (b : Bool)
  | signed (n : Int)
  | unsigned (n : Int)
  | scalar (r : α)
  | other
  | asGiven (v : Value α)

namespace Cell

variable {α : Type} [Scalar α]

/-- A value held in a form that suits it. -/
def hold (f : Form) (v : Value α) : Except Fault (Cell α) :=
  match f, v with
  | .truth, .bool b => .ok (truth b)
  | .signed, v => signed <$> v.position
  | .unsigned, v => unsigned <$> v.position
  | .scalar, v => scalar <$> v.scalar
  | .asGiven, v => .ok (asGiven v)
  | _, _ => .ok other

/-- The whole number that is held. -/
def whole : Cell α → Except Fault Int
  | truth b => .ok (if b then 1 else 0)
  | signed n | unsigned n => .ok n
  | asGiven v => v.position
  | scalar _ | other => .error .typeMismatch

/-- What is held, as a scalar. -/
def toReal : Cell α → Except Fault α
  | scalar r => .ok r
  | asGiven v => v.scalar
  | c => do Scalar.ofInt (← c.whole)

/-- Whether a scalar is held. -/
def isScalar : Cell α → Bool
  | scalar _ | asGiven (.real _) => true
  | _ => false

/-- Whether a word without a sign is held. -/
def isUnsigned : Cell α → Bool
  | unsigned _ => true
  | _ => false

/-- Whether a word with a sign is held. -/
def isSigned : Cell α → Bool
  | signed _ => true
  | _ => false

/-- A whole number as a word whose least value is `low`. -/
def word (low n : Int) : Except Fault Int :=
  if low ≤ n ∧ n < low + 2 ^ (64 : Nat) then .ok n else .error .overflow

/-- A whole number wrapped around into the words whose least value is `low`. -/
def wrap (low n : Int) : Int := (n - low) % 2 ^ (64 : Nat) + low

theorem wrap_of_mem {low n : Int} (least : low ≤ n) (greatest : n < low + 2 ^ (64 : Nat)) :
    wrap low n = n := by
  unfold wrap
  omega

theorem word_wrap (low n : Int) : word low (wrap low n) = .ok (wrap low n) := by
  have range : low ≤ wrap low n ∧ wrap low n < low + 2 ^ (64 : Nat) := by
    unfold wrap
    omega
  rw [word, if_pos range]

/-- The difference of words with a least value of `low`, wrapped around. -/
def subWords (low : Int) (c d : Cell α) : Except Fault (Number α) := do
  let m ← word low (← c.whole)
  let n ← word low (← d.whole)
  return .int (wrap low (m - n))

/-- The difference of two values in the forms in which they are held. -/
def sub (c d : Cell α) : Except Fault (Number α) :=
  match c, d with
  | asGiven v, asGiven w => do (← v.number).sub (← w.number)
  | truth _, truth _ | truth _, asGiven (.bool _) | asGiven (.bool _), truth _ =>
    .error .typeMismatch
  | c, d =>
    if c.isScalar || d.isScalar || (c.isSigned && d.isUnsigned) || (c.isUnsigned && d.isSigned) then
      do return .real ((← c.toReal) - (← d.toReal))
    else if c.isUnsigned || d.isUnsigned then subWords 0 c d
    else subWords (-2 ^ (63 : Nat)) c d

end Cell

namespace Value

variable {α : Type} [Scalar α]

/-- The coordinates in a value, in the form in which they are held together. Lists of lists have no
coordinates that could be subtracted, and what is no list has none at all. -/
def cells (v : Value α) : Except Fault (List (Cell α)) :=
  match v, v.grid? with
  | _, none => .error .badValue
  | list xs, some [_] => xs.mapM (Cell.hold (Form.ofValues xs))
  | list xs, some _ => .ok (xs.map fun _ => .other)
  | _, some _ => .ok []

/-- The difference of the coordinates with a number, as a scalar. -/
def difference (stop start : List (Cell α)) (k : Nat) : Except Fault α :=
  match stop[k]?, start[k]? with
  | some c, some d => do (← c.sub d).toReal
  | _, _ => .error .outOfRange

/-- The unit normal of the edge between two values. -/
def normalTo (start stop : Value α) : Except Fault (Point α) := do
  let a ← start.cells
  let b ← stop.cells
  let x ← difference b a 0
  let y ← difference b a 1
  return Point.rightOf ⟨x, y⟩

end Value

end PackedDrawing
