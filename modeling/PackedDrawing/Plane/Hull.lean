import PackedDrawing.Plane.Point
import PackedDrawing.Sorting.Partition
/-!
# Convex hulls

The convex hull of finitely many points, as its corners in counter-clockwise order from the
lexicographically least one. Repeated points and points on the straight line between others are no
corners, so points on one line have two corners and a single point has one.

## Main definitions

* `Hull.ordered`: the points in lexicographic order, each once.
* `Hull.chain`: the corners met on the way from the first of the ordered points to the last.
* `Hull.corners`: the lower chain followed by the upper one.

## Implementation notes

A chain is kept with its last corner in front. A new point removes the corners at which the chain
would not turn left.

Points with equal coordinates can still differ, in the sign of a zero. The first of them in sorted
order stands for all, so the sorting procedure is fixed; its outcome is checked, and where there is
none, any stable procedure serves.
-/

namespace PackedDrawing

namespace Scalar

/-- The order of scalars with undefined ones last. -/
def order {α : Type} [Scalar α] (x y : α) : Ordering :=
  if lt x y || (isDefined x && !isDefined y) then .lt
  else if lt y x || (isDefined y && !isDefined x) then .gt
  else .eq

end Scalar

namespace Hull

variable {α : Type} [Scalar α]

/-- Lexicographic order. -/
def precedes (p q : Point α) : Bool :=
  ((Scalar.order p.x q.x).then (Scalar.order p.y q.y)).isLE

/-- Whether two points have equal coordinates; a point with an undefined one differs from itself. -/
def coincide (p q : Point α) : Bool := Scalar.eq p.x q.x && Scalar.eq p.y q.y

/-- Drops each point that coincides with the one in front of it. -/
def dropRepeats : List (Point α) → List (Point α)
  | [] => []
  | [p] => [p]
  | p :: q :: rest =>
    if coincide p q then
      match dropRepeats (q :: rest) with
      | [] => [p]
      | _ :: tail => p :: tail
    else p :: dropRepeats (q :: rest)

/-- Whether each point precedes the next one. -/
def inOrder : List (Point α) → Bool
  | p :: q :: rest => precedes p q && inOrder (q :: rest)
  | _ => true

/-- The points in lexicographic order, sorted by partition, if that succeeds. -/
def partitioned? (points : List (Point α)) : Option (List (Point α)) :=
  let a := points.toArray
  let before (i j : Nat) : Bool :=
    match a[i]?, a[j]? with
    | some p, some q => !precedes q p
    | _, _ => false
  let places := List.range points.length
  (Sorting.partitionSort? before places).bind fun order =>
    let sorted := order.filterMap (a[·]?)
    if order.isPerm places && inOrder sorted then some sorted else none

/-- The points in lexicographic order. -/
def sorted (points : List (Point α)) : List (Point α) :=
  (partitioned? points).getD (points.mergeSort precedes)

/-- The points in lexicographic order, each once. -/
def ordered (points : List (Point α)) : List (Point α) := dropRepeats (sorted points)

/-- Adds a point to a chain, first removing the corners at which the chain would not turn left. -/
def extend : List (Point α) → Point α → List (Point α)
  | b :: a :: rest, p =>
    if Scalar.le (Point.cross a b p) 0.0 then extend (a :: rest) p else p :: b :: a :: rest
  | chain, p => p :: chain

/-- The corners met when the points are taken in turn, the last one in front. -/
def chain (points : List (Point α)) : List (Point α) := points.foldl extend []

/-- The corners of the convex hull. -/
def corners (points : List (Point α)) : List (Point α) :=
  let pts := ordered points
  if pts.length ≤ 2 then pts
  else (chain pts).tail.reverse ++ (chain pts.reverse).tail.reverse

/-- Reading a list at all its places gives the list. -/
theorem filterMap_getElem?_range {β : Type} (l : List β) :
    (List.range l.length).filterMap (l[·]?) = l := by
  induction l with
  | nil => rfl
  | cons x rest ih =>
    rw [List.length_cons, List.range_succ_eq_map, List.filterMap_cons, List.filterMap_map]
    exact congrArg (x :: ·) ih

/-- Whatever procedure sorts them, the points stay the same. -/
theorem sorted_perm (points : List (Point α)) : (sorted points).Perm points := by
  unfold sorted
  cases h : partitioned? points with
  | none => exact List.mergeSort_perm points precedes
  | some sorted =>
    simp only [partitioned?, Option.bind_eq_some_iff] at h
    obtain ⟨order, -, h⟩ := h
    split at h
    · next hc =>
      rw [Bool.and_eq_true, List.isPerm_iff] at hc
      obtain rfl := Option.some.inj h
      have hp := hc.1.filterMap (points[·]?)
      rw [filterMap_getElem?_range] at hp
      simpa using hp
    · cases h

@[simp] theorem sorted_nil : sorted ([] : List (Point α)) = [] := (sorted_perm []).eq_nil

@[simp] theorem corners_nil : corners ([] : List (Point α)) = [] := by
  simp [corners, ordered, dropRepeats]

@[simp] theorem extend_nil (p : Point α) : extend [] p = [p] := rfl

@[simp] theorem extend_single (a p : Point α) : extend [a] p = [p, a] := rfl

/-- The point added last is in front. -/
theorem head?_extend (c : List (Point α)) (p : Point α) : (extend c p).head? = some p := by
  fun_induction extend c p with
  | case1 => assumption
  | case2 => rfl
  | case3 => rfl

end Hull

end PackedDrawing
