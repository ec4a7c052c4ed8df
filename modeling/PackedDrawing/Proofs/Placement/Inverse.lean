import PackedDrawing.Proofs.Placement.Pose
import PackedDrawing.Proofs.Reals.Number

/-!
# The way back from the packed drawing

A point is turned first and moved afterwards on its way into the packed drawing; on the way back it
is moved first and turned by the opposite angle. In exact arithmetic either way undoes the other,
also at the origin, whose own angle is arbitrary, and across the half turn at which angles start
anew.

A `Motion` is given by values, of which whole numbers stay whole as long as they meet no scalar.
What it does is stated by the real numbers its values read as.

## Main definitions

* `Point.fetch`: the way back.
* `Motion.Reads`: the real numbers that a motion reads as.

## Main statements

* `Motion.place_eq_carry`, `Motion.unplace_eq_fetch`: what a motion does, by its readings.
* `unplace_place_turn_add`: both ways undo each other, and turns add up.
-/

namespace PackedDrawing

namespace Point

/-- A point moved by the opposite of a vector and then rotated by the opposite of an angle. -/
noncomputable def fetch (angle : ℝ) (vector q : Point ℝ) : Point ℝ := (q - vector).rotate (-angle)

theorem rotate_zero (p : Point ℝ) : p.rotate 0 = p := by
  simp [rotate]

theorem rotate_rotate_neg (angle : ℝ) (p : Point ℝ) : (p.rotate angle).rotate (-angle) = p := by
  calc (p.rotate angle).rotate (-angle) = p.rotate (angle + -angle) :=
        (rotate_add angle (-angle) p).symm
    _ = p.rotate 0 := by rw [add_neg_cancel]
    _ = p := rotate_zero p

theorem add_sub_self (p v : Point ℝ) : p + v - v = p := by
  simp [ext_iff]

theorem sub_add_self (p v : Point ℝ) : p - v + v = p := by
  simp [ext_iff]

@[simp] theorem fetch_carry (angle : ℝ) (vector p : Point ℝ) :
    fetch angle vector (carry angle vector p) = p := by
  rw [fetch, carry, add_sub_self, rotate_rotate_neg]

@[simp] theorem carry_fetch (angle : ℝ) (vector p : Point ℝ) :
    carry angle vector (fetch angle vector p) = p := by
  have hback := rotate_rotate_neg (-angle) (p - vector)
  rw [neg_neg] at hback
  rw [carry, fetch, hback, sub_add_self]

end Point

namespace Pose

open Point

/-- On its way back a point is moved first and then rotated. -/
theorem unplace_eq_fetch {β : Type} (g : Pose ℝ β) (offset : Offset) (q : Point ℝ) :
    g.unplace offset q = .ok (fetch g.rotation (g.vector offset) q) := by
  have hmoved : q - (⟨offset.x, offset.y⟩ : Point ℝ) + g.corrective = q - g.vector offset := by
    simp only [ext_iff, vector, add_x, add_y, sub_x, sub_y]
    constructor <;> ring
  calc g.unplace offset q
      = (q - (⟨offset.x, offset.y⟩ : Point ℝ) + g.corrective).turn (-g.rotation) := rfl
    _ = .ok ((q - g.vector offset).rotate (-g.rotation)) := by rw [hmoved, turn_eq_rotate]

end Pose

namespace Value

/-- The sum of values that are numbers is taken as that of numbers. -/
theorem add_eq_of_number {v w : Value ℝ} {x y : Number ℝ} (hv : v.number = .ok x)
    (hw : w.number = .ok y) : v.add w = (x.add y).map ofNumber := by
  have hnumbers : (do return ofNumber (← (← v.number).add (← w.number))) =
      (x.add y).map ofNumber := by
    rw [hv, hw, ok_bind, ok_bind]
    cases x.add y <;> rfl
  cases v <;> first | exact hnumbers | cases hv

theorem sub_eq_of_number {v w : Value ℝ} {x y : Number ℝ} (hv : v.number = .ok x)
    (hw : w.number = .ok y) : v.sub w = (x.sub y).map ofNumber := by
  rw [sub, hv, hw, ok_bind, ok_bind]
  cases x.sub y <;> rfl

/-- What an operation makes of two values reads as what `op` makes of their readings. -/
def Follows (f : Value ℝ → Value ℝ → Except Fault (Value ℝ)) (op : ℝ → ℝ → ℝ) : Prop :=
  ∀ ⦃v w : Value ℝ⦄ ⦃a b : ℝ⦄, v.scalar = .ok a → w.scalar = .ok b →
    ∃ u, f v w = .ok u ∧ u.scalar = .ok (op a b)

/-- An operation that combines the numbers of two values follows what is done with scalars, if whole
numbers do. -/
theorem follows_of_combine {f : Value ℝ → Value ℝ → Except Fault (Value ℝ)}
    {whole : Int → Int → Int} {op : ℝ → ℝ → ℝ}
    (hwhole : ∀ a b : Int, ((whole a b : Int) : ℝ) = op a b)
    (hf : ∀ {v w x y}, v.number = .ok x → w.number = .ok y →
      f v w = (Number.combine whole op x y).map ofNumber) : Follows f op := by
  intro v w a b hv hw
  obtain ⟨x, hx, rfl⟩ := scalar_eq_ok_iff.mp hv
  obtain ⟨y, hy, rfl⟩ := scalar_eq_ok_iff.mp hw
  obtain ⟨z, hz, hexact⟩ := Number.exists_combine hwhole x y
  refine ⟨ofNumber z, ?_, (scalar_ofNumber z).trans (congrArg _ hexact)⟩
  rw [hf hx hy, hz]
  rfl

theorem add_follows : Follows add (· + ·) := follows_of_combine Int.cast_add add_eq_of_number

theorem sub_follows : Follows sub (· - ·) := follows_of_combine Int.cast_sub sub_eq_of_number

end Value

namespace Point

/-- A point of values reads as a point of real numbers. -/
def Reads (p : Point (Value ℝ)) (r : Point ℝ) : Prop := p.mapM Value.scalar = .ok r

theorem reads_iff {p : Point (Value ℝ)} {r : Point ℝ} :
    p.Reads r ↔ p.x.scalar = .ok r.x ∧ p.y.scalar = .ok r.y := by
  constructor
  · intro h
    obtain ⟨a, hx, h⟩ := bind_eq_ok.mp h
    obtain ⟨b, hy, h⟩ := bind_eq_ok.mp h
    rw [← pure_eq_ok.mp h]
    exact ⟨hx, hy⟩
  · rintro ⟨hx, hy⟩
    exact bind_eq_ok.mpr ⟨r.x, hx, bind_eq_ok.mpr ⟨r.y, hy, rfl⟩⟩

theorem reads_map_real (r : Point ℝ) : (r.map Value.real).Reads r := rfl

/-- Points of values are combined coordinate by coordinate, and so are their readings. -/
theorem exists_combine {f : Value ℝ → Value ℝ → Except Fault (Value ℝ)} {op : ℝ → ℝ → ℝ}
    (hf : Value.Follows f op) {p q : Point (Value ℝ)} {r s : Point ℝ} (hp : p.Reads r)
    (hq : q.Reads s) :
    ∃ t, p.combine f q = .ok t ∧ t.Reads ⟨op r.x s.x, op r.y s.y⟩ := by
  obtain ⟨hpx, hpy⟩ := reads_iff.mp hp
  obtain ⟨hqx, hqy⟩ := reads_iff.mp hq
  obtain ⟨x, hx, hxreads⟩ := hf hpx hqx
  obtain ⟨y, hy, hyreads⟩ := hf hpy hqy
  exact ⟨⟨x, y⟩, bind_eq_ok.mpr ⟨x, hx, bind_eq_ok.mpr ⟨y, hy, rfl⟩⟩,
    reads_iff.mpr ⟨hxreads, hyreads⟩⟩

end Point

namespace Motion

open Point

/-- A motion reads as a rotation, a corrective and an offset of real numbers. -/
structure Reads (m : Motion ℝ) (rotation : ℝ) (corrective offset : Point ℝ) : Prop where
  rotation : m.rotation.scalar = .ok rotation
  corrective : m.corrective.Reads corrective
  offset : m.offset.Reads offset

theorem turn_eq_rotate_of_reads {p : Point (Value ℝ)} {r : Point ℝ} {v : Value ℝ} {angle : ℝ}
    (hp : p.Reads r) (hv : v.scalar = .ok angle) : turn p v = .ok (r.rotate angle) := by
  obtain ⟨hx, hy⟩ := reads_iff.mp hp
  rw [turn, hx, hy, hv]
  exact turn_eq_rotate r angle

variable {m : Motion ℝ} {rotation : ℝ} {corrective offset : Point ℝ}

theorem place_eq_carry (h : m.Reads rotation corrective offset) {p : Point (Value ℝ)}
    {r : Point ℝ} (hp : p.Reads r) :
    m.place p = .ok (carry rotation (offset - corrective) r) := by
  obtain ⟨moved, hmoved, hmovedReads⟩ :=
    exists_combine Value.add_follows (reads_map_real (r.rotate rotation)) h.offset
  obtain ⟨placed, hplaced, hplacedReads⟩ :=
    exists_combine Value.sub_follows hmovedReads h.corrective
  have hvalue : (⟨(r.rotate rotation).x + offset.x - corrective.x,
      (r.rotate rotation).y + offset.y - corrective.y⟩ : Point ℝ) =
      carry rotation (offset - corrective) r := by
    simp only [ext_iff, carry, add_x, add_y, sub_x, sub_y]
    constructor <;> ring
  rw [place, turn_eq_rotate_of_reads hp h.rotation, ok_bind, hmoved, ok_bind, hplaced, ok_bind,
    ← hvalue]
  exact hplacedReads

theorem unplace_eq_fetch (h : m.Reads rotation corrective offset) {q : Point (Value ℝ)}
    {r : Point ℝ} (hq : q.Reads r) :
    m.unplace q = .ok (fetch rotation (offset - corrective) r) := by
  obtain ⟨moved, hmoved, hmovedReads⟩ := exists_combine Value.sub_follows hq h.offset
  obtain ⟨turned, hturned, hturnedReads⟩ :=
    exists_combine Value.add_follows hmovedReads h.corrective
  obtain ⟨angle, hangle, hexact⟩ := Value.scalar_eq_ok_iff.mp h.rotation
  have hneg : (Value.ofNumber angle.neg).scalar = .ok (-rotation) := by
    rw [Value.scalar_ofNumber, Number.exact_neg, hexact]
  have hvalue : (⟨r.x - offset.x + corrective.x, r.y - offset.y + corrective.y⟩ : Point ℝ) =
      r - (offset - corrective) := by
    simp only [ext_iff, sub_x, sub_y]
    constructor <;> ring
  rw [unplace, hmoved, ok_bind, hturned, ok_bind, hangle, ok_bind,
    turn_eq_rotate_of_reads hturnedReads hneg, hvalue, fetch]

end Motion

/-- The way into the packed drawing and the way back undo each other, whichever is gone first: for
every pose, offset and point, and for every motion and point given by values that are numbers. Two
turns are one turn by the sum of their angles. -/
theorem unplace_place_turn_add :
    (∀ (β : Type) (g : Pose ℝ β) (offset : Offset) (p : Point ℝ),
      (∃ q, g.place offset p = .ok q ∧ g.unplace offset q = .ok p) ∧
      ∃ q, g.unplace offset p = .ok q ∧ g.place offset q = .ok p) ∧
    (∀ (m : Motion ℝ) (rotation : ℝ) (corrective offset : Point ℝ) (p : Point (Value ℝ))
        (r : Point ℝ), m.Reads rotation corrective offset → p.Reads r →
      (∃ q, m.place p = .ok q ∧ m.unplace (q.map Value.real) = .ok r) ∧
      ∃ q, m.unplace p = .ok q ∧ m.place (q.map Value.real) = .ok r) ∧
    ∀ (p : Point ℝ) (a b : ℝ), ∃ q r, p.turn a = .ok q ∧ q.turn b = .ok r ∧
      p.turn (a + b) = .ok r := by
  refine ⟨?_, ?_, ?_⟩
  · intro β g offset p
    constructor
    · exact ⟨_, g.place_eq_carry offset p, by rw [Pose.unplace_eq_fetch, Point.fetch_carry]⟩
    · exact ⟨_, g.unplace_eq_fetch offset p, by rw [Pose.place_eq_carry, Point.carry_fetch]⟩
  · intro m rotation corrective offset p r hm hp
    constructor
    · refine ⟨_, Motion.place_eq_carry hm hp, ?_⟩
      rw [Motion.unplace_eq_fetch hm (Point.reads_map_real _), Point.fetch_carry]
    · refine ⟨_, Motion.unplace_eq_fetch hm hp, ?_⟩
      rw [Motion.place_eq_carry hm (Point.reads_map_real _), Point.carry_fetch]
  · intro p a b
    refine ⟨_, _, p.turn_eq_rotate a, (p.rotate a).turn_eq_rotate b, ?_⟩
    rw [Point.turn_eq_rotate, Point.rotate_add]

/-- A half turn with a corrective and an offset in whole numbers. -/
noncomputable def Motion.halfTurn : Motion ℝ :=
  ⟨.real Real.pi, ⟨.int (-3), .real 0.5⟩, ⟨.int 10, .int 20⟩⟩

/-- A point on the negative x axis is placed and brought back, and brought back and placed. -/
theorem unplace_place_halfTurn :
    (∃ q, Motion.halfTurn.place ⟨.int (-2), .int 0⟩ = .ok q ∧
      Motion.halfTurn.unplace (q.map Value.real) = .ok ⟨-2, 0⟩) ∧
    ∃ q, Motion.halfTurn.unplace ⟨.int (-2), .int 0⟩ = .ok q ∧
      Motion.halfTurn.place (q.map Value.real) = .ok ⟨-2, 0⟩ := by
  have hmotion : Motion.halfTurn.Reads Real.pi ⟨-3, 0.5⟩ ⟨10, 20⟩ := by
    refine ⟨rfl, Point.reads_iff.mpr ⟨?_, rfl⟩, Point.reads_iff.mpr ⟨?_, ?_⟩⟩ <;>
      simp [Motion.halfTurn, Value.scalar, Number.exact]
  have hpoint : (⟨.int (-2), .int 0⟩ : Point (Value ℝ)).Reads ⟨-2, 0⟩ := by
    refine Point.reads_iff.mpr ⟨?_, ?_⟩ <;> simp [Value.scalar, Number.exact]
  exact unplace_place_turn_add.2.1 _ _ _ _ _ _ hmotion hpoint

end PackedDrawing
