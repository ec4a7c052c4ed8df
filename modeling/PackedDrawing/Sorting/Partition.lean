/-!
# Sorting by partition

A list is sorted in place: a long stretch is cut in two around the middle one of three of its items,
and a short one is sorted by insertion. Items of which neither comes before the other need not keep
their order, so the outcome depends on every exchange made.

## Main definitions

* `partition`: cuts a stretch in two.
* `insertStretch`: sorts a short stretch.
* `partitionSort?`: the sorted list, unless the cuts are so uneven that the procedure gives up.

## Implementation notes

A stretch from `low` up to below `high` is cut at most as often as twice the binary logarithm of the
length allows for its longer parts.
-/

namespace PackedDrawing.Sorting

variable {β : Type}

/-- Whether an item of an array passes a test. -/
def passes (test : β → Bool) (a : Array β) (i : Nat) : Bool :=
  match a[i]? with
  | some x => test x
  | none => false

/-- Exchanges two items if the second comes before the first. -/
def arrange (before : β → β → Bool) (i j : Nat) (a : Array β) : Array β :=
  match a[i]?, a[j]? with
  | some x, some y => if before y x then a.swapIfInBounds i j else a
  | _, _ => a

/-- The next place behind `i` with an item that does not come before the pivot, or `j`. -/
def climb (before : β → β → Bool) (pivot : β) (a : Array β) (j : Nat) : Nat → Nat → Nat
  | 0, i => i
  | steps + 1, i =>
    if passes (before · pivot) a (i + 1) && i + 1 < j then climb before pivot a j steps (i + 1)
    else i + 1

/-- The next place in front of `j` with an item that the pivot does not come before, or `i`. -/
def descend (before : β → β → Bool) (pivot : β) (a : Array β) (i : Nat) : Nat → Nat → Nat
  | 0, j => j
  | steps + 1, j =>
    if passes (before pivot ·) a (j - 1) && i < j - 1 then descend before pivot a i steps (j - 1)
    else j - 1

/-- Exchanges items from both ends until the two sides meet, and tells where. -/
def exchange (before : β → β → Bool) (pivot : β) : Nat → Nat → Nat → Array β → Nat × Array β
  | 0, i, _, a => (i, a)
  | steps + 1, i, j, a =>
    let i := climb before pivot a j a.size i
    let j := descend before pivot a i a.size j
    if i < j then exchange before pivot steps i j (a.swapIfInBounds i j) else (i, a)

/-- Cuts a stretch around the middle one of its first, middle and last item, and tells where that
one comes to lie. -/
def partition (before : β → β → Bool) (low high : Nat) (a : Array β) : Nat × Array β :=
  let middle := low + (high - 1 - low) / 2
  let a := arrange before low middle a
  let a := arrange before middle (high - 1) a
  let a := arrange before low middle a
  match a[middle]? with
  | none => (low, a)
  | some pivot =>
    let (i, a) := exchange before pivot a.size low (high - 2) (a.swapIfInBounds middle (high - 2))
    (i, a.swapIfInBounds i (high - 2))

/-- Moves the item at place `k` toward the front of its stretch, in front of all that it comes
before. -/
def sink (before : β → β → Bool) (low : Nat) : Nat → Array β → Array β
  | 0, a => a
  | k + 1, a =>
    match a[k]?, a[k + 1]? with
    | some x, some y =>
      if low ≤ k && before y x then sink before low k (a.swapIfInBounds k (k + 1)) else a
    | _, _ => a

/-- Sorts a stretch by insertion. -/
def insertStretch (before : β → β → Bool) (low high : Nat) (a : Array β) : Array β :=
  (List.range (high - low)).foldl (fun a k => sink before low (low + k) a) a

/-- The longest stretch that is not cut. -/
def shortStretch : Nat := 16

/-- Sorts a stretch. Of two parts the shorter one is sorted at once; the longer one has to have cuts
left, of which `cuts` is the number. -/
def sortStretch (before : β → β → Bool) :
    Nat → Int → Bool → Nat → Nat → Array β → Option (Array β)
  | 0, _, _, _, _, _ => none
  | steps + 1, cuts, longer, low, high, a =>
    if longer && cuts < 0 then none
    else if high - low ≤ shortStretch then some (insertStretch before low high a)
    else
      let (i, a) := partition before low high a
      let front := decide (high - 1 - i ≤ i - low)
      (sortStretch before steps (cuts - 1) front low i a).bind
        (sortStretch before steps (cuts - 1) (!front) (i + 1) high)

/-- Sorts a list by partition. -/
def partitionSort? (before : β → β → Bool) (items : List β) : Option (List β) :=
  let n := items.length
  (sortStretch before (n + 1) (2 * Nat.log2 n) true 0 n items.toArray).map Array.toList

end PackedDrawing.Sorting
