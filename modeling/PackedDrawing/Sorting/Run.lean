import PackedDrawing.Fault
/-!
# Runs

A run is a stretch of a list that is already in order. Sorting cuts a list into runs: the one at its
front is taken as it is, reversed if it descends, and a run shorter than the list asks for is filled
up by putting further items where they belong.

## Main definitions

* `Comparison`: whether one item comes before another, which may fail.
* `slot`: where an item goes, found by repeated halving.
* `nextRun`: the run at the front of a list.
* `leastRun`: how long the runs of a list have to be.

## Implementation notes

A comparison need not be consistent: an undefined number comes neither before nor after any other.
The outcome then depends on which items are compared, so every step says so.
-/

namespace PackedDrawing.Sorting

variable {β : Type}

/-- Whether the first item comes before the second. -/
abbrev Comparison (β : Type) := β → β → Except Fault Bool

/-- The place in the part of a list from `low` up to below `high` where the items begin that pass a
test, found by halving; of two middle items the one nearer to the front is tested with `nearer`. -/
def slot (nearer : Bool) (test : β → Except Fault Bool) (items : List β) (low high : Nat) :
    Except Fault Nat :=
  if _h : low < high then do
    let middle := (low + high - nearer.toNat) / 2
    match items[middle]? with
    | none => return low
    | some x =>
      if ← test x then slot nearer test items low middle
      else slot nearer test items (middle + 1) high
  else return low
termination_by high - low
decreasing_by all_goals cases nearer <;> simp only [Bool.toNat_true, Bool.toNat_false] <;> omega

/-- Puts the items one after another into an ordered list, each behind every item that it does not
come before. -/
def insertAll (precedes : Comparison β) : List β → List β → Except Fault (List β)
  | done, [] => .ok done
  | done, x :: rest => do
    let k ← slot false (precedes x) done 0 done.length
    insertAll precedes (done.take k ++ x :: done.drop k) rest

/-- Splits off the longest run at the front in which each item comes before the one in front of it,
or does not, as `descending` tells. -/
def takeRun (precedes : Comparison β) (descending : Bool) :
    β → List β → Except Fault (List β × List β)
  | last, [] => .ok ([last], [])
  | last, x :: rest => do
    if (← precedes x last) == descending then
      let (run, tail) ← takeRun precedes descending x rest
      return (last :: run, tail)
    else return ([last], x :: rest)

/-- The run at the front of a list, of at least `least` items as far as there are any, and what is
behind it. -/
def nextRun (precedes : Comparison β) (least : Nat) : List β → Except Fault (List β × List β)
  | [] => .ok ([], [])
  | [x] => .ok ([x], [])
  | x :: y :: rest => do
    let descending ← precedes y x
    let (run, tail) ← takeRun precedes descending x (y :: rest)
    let ordered := if descending then run.reverse else run
    let missing := least - ordered.length
    return (← insertAll precedes ordered (tail.take missing), tail.drop missing)

/-- A length halved until it is below sixty-four, and one more if anything was lost, as `odd` tells
of what was lost before. -/
def halved (odd : Bool) (length : Nat) : Nat :=
  if 64 ≤ length then halved (odd || length % 2 == 1) (length / 2) else length + odd.toNat
termination_by length

/-- The least length of the runs that a list is cut into, such that their number is at most just
below a power of two. -/
def leastRun (length : Nat) : Nat := halved false length

theorem leastRun_of_lt {length : Nat} (h : length < 64) : leastRun length = length := by
  unfold leastRun halved
  simp [Nat.not_le.2 h]

@[simp] theorem nextRun_nil (precedes : Comparison β) (least : Nat) :
    nextRun precedes least [] = .ok ([], []) := rfl

@[simp] theorem nextRun_single (precedes : Comparison β) (least : Nat) (x : β) :
    nextRun precedes least [x] = .ok ([x], []) := rfl

end PackedDrawing.Sorting
