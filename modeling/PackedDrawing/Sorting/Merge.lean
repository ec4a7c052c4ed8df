import PackedDrawing.Sorting.Run
/-!
# Sorting by runs

A list is cut into runs, and neighbouring runs are merged until one is left. Items of which neither
comes before the other keep their order.

## Main definitions

* `gallop`: how many items at the front of a list do not pass a test.
* `mergeRuns`: two neighbouring runs as one.
* `power`: the rank of the boundary between two runs, which tells what is merged first.
* `sort`: the sorted list.

## Implementation notes

Merging takes single items until one run wins often in a row; then it gallops, that is, it looks for
the next item of the other run by doubling steps and halving. How often a run has to win is kept
from one merge to the next. The shorter run decides the direction: two runs are merged from their
first items, or else backward from their last ones. With a consistent comparison none of this shows
in the outcome; with an inconsistent one, all of it does.
-/

namespace PackedDrawing.Sorting

variable {β : Type}

/-- The part of a list in which the items begin that pass a test, found by doubling steps: the item
number `last` does not pass it, and `step` is looked at next. -/
def probe (test : β → Except Fault Bool) (items : List β) (last step : Nat) :
    Except Fault (Nat × Nat) :=
  if _h : last < step ∧ step < items.length then do
    if ← test items[step] then return (last + 1, step)
    else probe test items step (2 * step + 1)
  else return (last + 1, items.length)
termination_by items.length - step
decreasing_by omega

/-- How many items at the front of a list do not pass a test that all behind them are taken to
pass. -/
def gallop (backward : Bool) (test : β → Except Fault Bool) (items : List β) :
    Except Fault Nat :=
  match items with
  | [] => .ok 0
  | x :: _ => do
    if ← test x then return 0
    let (low, high) ← probe test items 0 1
    slot backward test items low high

/-- How often in a row a run has to win by galloping for galloping to go on. -/
def eagerness : Nat := 7

/-- Two runs while they are merged: the merged items, the last one in front, and what is left of
either run. -/
structure Merging (β : Type) where
  done : List β
  left : List β
  right : List β

namespace Merging

/-- Whether nothing is left to compare: the last item of the left run is known to be the last of
all. -/
def exhausted (m : Merging β) : Bool := m.left.length ≤ 1 || m.right.isEmpty

/-- The merged run once nothing is left to compare. -/
def finish (m : Merging β) : List β :=
  m.done.reverse ++ (if m.left.length = 1 then m.right ++ m.left else m.left ++ m.right)

/-- Takes items from the left run. -/
def takeLeft (k : Nat) (m : Merging β) : Merging β :=
  { m with done := (m.left.take k).reverse ++ m.done, left := m.left.drop k }

/-- Takes items from the right run. -/
def takeRight (k : Nat) (m : Merging β) : Merging β :=
  { m with done := (m.right.take k).reverse ++ m.done, right := m.right.drop k }

/-- How many items of the left run go in front of the first one of the right run. -/
def leftLead (precedes : Comparison β) (backward : Bool) (m : Merging β) : Except Fault Nat :=
  match m.right with
  | [] => .ok 0
  | y :: _ => gallop backward (precedes y) m.left

/-- How many items of the right run go in front of the first one of the left run. -/
def rightLead (precedes : Comparison β) (backward : Bool) (m : Merging β) : Except Fault Nat :=
  match m.left with
  | [] => .ok 0
  | x :: _ => gallop backward (fun y => do return !(← precedes y x)) m.right

/-- Takes the items that lead the left run, and then one of the right run. -/
def gallopLeft (precedes : Comparison β) (backward : Bool) (m : Merging β) :
    Except Fault (Nat × Merging β) := do
  if m.exhausted then return (0, m)
  let k ← m.leftLead precedes backward
  let m := m.takeLeft k
  return (k, if m.exhausted then m else m.takeRight 1)

/-- Takes the items that lead the right run, and then one of the left run. -/
def gallopRight (precedes : Comparison β) (backward : Bool) (m : Merging β) :
    Except Fault (Nat × Merging β) := do
  if m.exhausted then return (0, m)
  let k ← m.rightLead precedes backward
  let m := m.takeRight k
  return (k, if m.exhausted then m else m.takeLeft 1)

/-- Gallops once through either run, and tells how many items either gallop took at most. Backward,
the other run begins. -/
def gallopBoth (precedes : Comparison β) (backward : Bool) (m : Merging β) :
    Except Fault (Nat × Merging β) := do
  if backward then
    let (k, m) ← m.gallopRight precedes backward
    let (l, m) ← m.gallopLeft precedes backward
    return (max k l, m)
  else
    let (k, m) ← m.gallopLeft precedes backward
    let (l, m) ← m.gallopRight precedes backward
    return (max k l, m)

/-- How the next items are taken: one by one, with the number of items that either run has won in a
row, or by galloping. -/
inductive Pace where
  | single (left right : Nat)
  | galloping (begun : Bool)

/-- Merges what is left of two runs. `patience` is how often a run has to win for galloping to
begin; it is returned for the next merge. Each round takes at least one item, so `rounds` need not
exceed the number of items. -/
def complete (precedes : Comparison β) (backward : Bool) :
    Nat → Nat → Pace → Merging β → Except Fault (List β × Nat)
  | 0, patience, _, m => .ok (m.finish, patience)
  | rounds + 1, patience, pace, m => do
    if m.exhausted then return (m.finish, patience)
    match pace, m.left, m.right with
    | .single l r, x :: _, y :: _ =>
      let won ← precedes y x
      let (l, r, m) := if won then (0, r + 1, m.takeRight 1) else (l + 1, 0, m.takeLeft 1)
      let pace := if patience ≤ max l r then Pace.galloping false else .single l r
      complete precedes backward rounds patience pace m
    | _, _, _ =>
      let patience := if pace matches .galloping true then max 1 (patience - 1) else patience
      let (k, m) ← m.gallopBoth precedes backward
      if m.exhausted then return (m.finish, patience)
      if eagerness ≤ k then complete precedes backward rounds patience (.galloping true) m
      else complete precedes backward rounds (patience + 1) (.single 0 0) m

end Merging

/-- Merges two runs of which the first item of the right one is known to come first. -/
def mergeFront (precedes : Comparison β) (backward : Bool) (patience : Nat)
    (left right : List β) : Except Fault (List β × Nat) :=
  let m : Merging β := ⟨[], left, right⟩
  Merging.complete precedes backward (left.length + right.length) patience (.single 0 0)
    (m.takeRight 1)

/-- Two neighbouring runs as one. Items at the outer ends that are in place already take no part. -/
def mergeRuns (precedes : Comparison β) (patience : Nat) (left right : List β) :
    Except Fault (List β × Nat) :=
  match right with
  | [] => .ok (left, patience)
  | y :: _ => do
    let k ← gallop false (precedes y) left
    let (front, a) := left.splitAt k
    match a.getLast? with
    | none => return (left ++ right, patience)
    | some x =>
      let l ← gallop true (precedes · x) right.reverse
      let (b, back) := right.splitAt (right.length - l)
      if b.isEmpty then return (left ++ right, patience)
      if a.length ≤ b.length then
        let (merged, patience) ← mergeFront precedes false patience a b
        return (front ++ merged ++ back, patience)
      else
        let (merged, patience) ←
          mergeFront (fun u v => precedes v u) true patience b.reverse a.reverse
        return (front ++ merged.reverse ++ back, patience)

/-- The rank of the boundary between two neighbouring runs in a list of `length` items: the first
binary place in which the middles of the runs, `a` and `b` in units of half an item, differ as parts
of the list. -/
def power (length : Nat) : Nat → Nat → Nat → Nat
  | 0, _, _ => 0
  | places + 1, a, b =>
    if length ≤ a then 1 + power length places (2 * (a - length)) (2 * (b - length))
    else if length ≤ b then 1
    else 1 + power length places (2 * a) (2 * b)

/-- A run that waits to be merged: where it starts, and the rank of the boundary behind it. -/
structure Waiting (β : Type) where
  start : Nat
  run : List β
  rank : Nat

/-- Merges the last runs as long as the boundary between them outranks the one behind them. The last
run is in front. -/
def settleRanks (precedes : Comparison β) (rank : Nat) :
    Nat → Nat → List (Waiting β) → Except Fault (List (Waiting β) × Nat)
  | rounds + 1, patience, last :: before :: rest => do
    if rank < before.rank then
      let (run, patience) ← mergeRuns precedes patience before.run last.run
      settleRanks precedes rank rounds patience ({ before with run } :: rest)
    else return ({ last with rank } :: before :: rest, patience)
  | _, patience, [last] => .ok ([{ last with rank }], patience)
  | _, patience, waiting => .ok (waiting, patience)

/-- Adds a run behind those that wait, in a list of `length` items. -/
def addRun (precedes : Comparison β) (length patience : Nat) (run : List β)
    (waiting : List (Waiting β)) : Except Fault (List (Waiting β) × Nat) :=
  match waiting with
  | [] => .ok ([⟨0, run, 0⟩], patience)
  | last :: _ => do
    let a := 2 * last.start + last.run.length
    let rank := power length (length + 1) a (a + last.run.length + run.length)
    let start := last.start + last.run.length
    let (waiting, patience) ← settleRanks precedes rank waiting.length patience waiting
    return (⟨start, run, 0⟩ :: waiting, patience)

/-- Cuts a list into runs, merging those that can be merged. -/
def collect (precedes : Comparison β) (length least : Nat) :
    Nat → Nat → List β → List (Waiting β) → Except Fault (List (Waiting β) × Nat)
  | rounds + 1, patience, x :: rest, waiting => do
    let (run, tail) ← nextRun precedes least (x :: rest)
    let (waiting, patience) ← addRun precedes length patience run waiting
    collect precedes length least rounds patience tail waiting
  | _, patience, _, waiting => .ok (waiting, patience)

/-- Merges all runs that wait. The last run is in front; it is left alone as long as the two before
it are shorter than it on one side. -/
def mergeAll (precedes : Comparison β) :
    Nat → Nat → List (Waiting β) → Except Fault (List β)
  | rounds + 1, patience, last :: before :: third :: rest => do
    if third.run.length < last.run.length then
      let (run, patience) ← mergeRuns precedes patience third.run before.run
      mergeAll precedes rounds patience (last :: { third with run } :: rest)
    else
      let (run, patience) ← mergeRuns precedes patience before.run last.run
      mergeAll precedes rounds patience ({ before with run } :: third :: rest)
  | _, patience, [last, before] => Prod.fst <$> mergeRuns precedes patience before.run last.run
  | _, _, waiting => .ok (waiting.reverse.flatMap Waiting.run)

/-- Sorts a list. -/
def sort (precedes : Comparison β) (items : List β) : Except Fault (List β) := do
  let length := items.length
  let (waiting, patience) ←
    collect precedes length (leastRun length) length eagerness items []
  mergeAll precedes waiting.length patience waiting

@[simp] theorem sort_nil (precedes : Comparison β) : sort precedes [] = .ok [] := rfl

@[simp] theorem sort_single (precedes : Comparison β) (x : β) : sort precedes [x] = .ok [x] := rfl

end PackedDrawing.Sorting
