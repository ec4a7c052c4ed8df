/-!
# Handles

Nodes and links are mentioned by whole numbers. Whoever mentions one may also use a truth value,
which counts as zero or one; it stays a truth value wherever the mention is shown again. A
`Handle` is such a mention.

## Implementation notes

`at?` reads a list from either end: `0` is the first item and `-1` the last. `place?` is the
underlying arithmetic, stated on the length alone, so that writing and reading agree.
-/

namespace PackedDrawing

/-- A whole number that mentions a position, perhaps written as a truth value. -/
structure Handle where
  position : Int
  truth : Bool := false
  deriving DecidableEq, Repr, Inhabited

namespace Handle

/-- The plain mention of a position. -/
def ofNat (n : Nat) : Handle := ⟨n, false⟩

/-- A truth value mentions position zero or one. -/
def ofBool (b : Bool) : Handle := ⟨if b then 1 else 0, true⟩

/-- A handle reads as the number or the truth value it was written as. -/
def text (h : Handle) : String :=
  if h.truth then (if h.position = 0 then "False" else "True") else toString h.position

@[simp] theorem position_ofNat (n : Nat) : (ofNat n).position = n := rfl

/-- The position meant by `i` in a list of `length` items: negative numbers count from the end. -/
def place? (length : Nat) (i : Int) : Option Nat :=
  if 0 ≤ i then (if i < length then some i.toNat else none)
  else if -i ≤ length then some (length - (-i).toNat) else none

theorem place?_lt {length : Nat} {i : Int} {k : Nat} (h : place? length i = some k) :
    k < length := by
  unfold place? at h
  split at h <;> split at h <;> simp at h <;> omega

theorem place?_ofNat {length k : Nat} (h : k < length) : place? length k = some k := by
  unfold place?
  rw [if_pos (by omega), if_pos (by omega)]
  simp

theorem place?_neg {length k : Nat} (h : k < length) :
    place? length (-((k : Int) + 1)) = some (length - (k + 1)) := by
  unfold place?
  rw [if_neg (by omega), if_pos (by omega)]
  congr 1

end Handle

/-- The item of a list at a position counted from either end. -/
def at? {β : Type} (items : List β) (i : Int) : Option β :=
  (Handle.place? items.length i).bind (items[·]?)

theorem at?_ofNat {β : Type} (items : List β) (k : Nat) : at? items k = items[k]? := by
  unfold at?
  by_cases h : k < items.length
  · simp [Handle.place?_ofNat h]
  · have hp : Handle.place? items.length k = none := by
      unfold Handle.place?
      rw [if_pos (by omega), if_neg (by omega)]
    simp [hp, List.getElem?_eq_none (Nat.le_of_not_lt h)]

end PackedDrawing
