import PackedDrawing.Sorting.Merge
import PackedDrawing.Value.Basic
/-!
# Comparing values

Numbers compare by size, texts by their characters' numbers, and lists by the first pair of items
that differ. Nothing else has an order: comparing a number with a text, or two things of which
neither is a number, a text or a list, is at fault.

## Main definitions

* `Value.same`: equality by content.
* `Value.lt`: the order.
* `Value.sortBy`: a stable sort by keys.

## Implementation notes

Defined numbers are totally ordered, and any stable procedure sorts items by them. Keys of other
kinds may be undefined or have no order at all, so for them the procedure is fixed to the sort by
runs.
-/

namespace PackedDrawing

namespace Value

variable {α : Type} [Scalar α]

mutual

/-- Whether two values have the same content. -/
def same : Value α → Value α → Bool
  | text s, text t => s == t
  | null, null => true
  | list xs, list ys => sameItems xs ys
  | table es, table fs => es.length == fs.length && sameEntries es fs
  | text _, _ | null, _ | list _, _ | table _, _ | thing _, _ => false
  | int n, w => sameNumber (.int n) w
  | real r, w => sameNumber (.real r) w
  | bool b, w => sameNumber (.int (if b then 1 else 0)) w

/-- Whether a value is a given number. -/
def sameNumber (x : Number α) (w : Value α) : Bool :=
  match w.number with
  | .ok y => x.eq y
  | .error _ => false

/-- Whether two lists have the same items in the same order. -/
def sameItems : List (Value α) → List (Value α) → Bool
  | [], [] => true
  | x :: xs, y :: ys => same x y && sameItems xs ys
  | _, _ => false

/-- Whether every entry of the first table is in the second. -/
def sameEntries : List (String × Value α) → List (String × Value α) → Bool
  | [], _ => true
  | (k, v) :: es, fs =>
    (match fs.lookup k with
      | some w => same v w
      | none => false) && sameEntries es fs

end

mutual

/-- Whether the first value comes before the second. -/
def lt : Value α → Value α → Except Fault Bool
  | text s, text t => .ok (s < t)
  | list xs, list ys => ltItems xs ys
  | v, w => do return (← v.number).lt (← w.number)

/-- Lists compare by the first items that differ; a list comes before its continuations. -/
def ltItems : List (Value α) → List (Value α) → Except Fault Bool
  | [], ys => .ok (!ys.isEmpty)
  | _, [] => .ok false
  | x :: xs, y :: ys => if same x y then ltItems xs ys else lt x y

end

/-- Whether a value is a number that compares with all numbers. -/
def isRank (v : Value α) : Bool :=
  match v.number with
  | .ok (.int _) => true
  | .ok (.real r) => Scalar.isDefined r
  | .error _ => false

/-- Whether the first value is a number below the second. -/
def ranksBelow (v w : Value α) : Bool :=
  match v.number, w.number with
  | .ok x, .ok y => x.lt y
  | _, _ => false

/-- Sorts items by their keys, keeping the order of items with equal keys. -/
def sortBy {β : Type} (items : List (Value α × β)) : Except Fault (List β) :=
  if items.all fun x => x.1.isRank then
    .ok ((items.mergeSort fun x y => !ranksBelow y.1 x.1).map Prod.snd)
  else do
    return (← Sorting.sort (fun x y => lt x.1 y.1) items).map Prod.snd

end Value

end PackedDrawing
