import Mathlib
import PackedDrawing.Numeric.Double

/-!
# Whole numbers and their quotients as doubles

A whole number has a double as long as it is below the middle between the largest double and the
next power of two; from there on it would be rounded to infinity. A quotient of whole numbers that is
at most one always has a double, however large the numbers are.

## Main statements

* `Binary64.isFinite_ofBits`: a word with an exponent field that is not full is a finite number.
* `Double.exists_ofInt`: the whole numbers below `Double.wholeLimit` have a double.
* `Double.exists_ofQuotient`: so have quotients that are at most one.
-/

namespace PackedDrawing

namespace Binary64

open Float.Model.UnpackedFloat

theorem roundQuotient_le {num den bound : Nat} (h : 2 * num < (2 * bound + 1) * den) :
    roundQuotient num den ≤ bound := by
  have hsplit := Nat.div_add_mod num den
  have hlow : 2 * (num / den) < 2 * bound + 1 := by
    refine Nat.lt_of_mul_lt_mul_right (a := den) ?_
    calc
      2 * (num / den) * den = 2 * (den * (num / den)) := by ring
      _ ≤ 2 * num := by omega
      _ < (2 * bound + 1) * den := h
  have hhigh : den ≤ 2 * (num % den) → num / den + 1 ≤ bound := by
    intro hup
    have hodd : 2 * (num / den) + 1 < 2 * bound + 1 := by
      refine Nat.lt_of_mul_lt_mul_right (a := den) ?_
      calc
        (2 * (num / den) + 1) * den = 2 * (den * (num / den)) + den := by ring
        _ ≤ 2 * num := by omega
        _ < (2 * bound + 1) * den := h
    omega
  unfold roundQuotient
  dsimp only
  split
  · omega
  · split
    · exact hhigh (by omega)
    · split
      · omega
      · exact hhigh (by omega)

theorem overTwo_natCast (num den k : Nat) : overTwo num den k = (num, den * 2 ^ k) := by
  have hneg : (-(k : Int)).toNat = 0 := by omega
  rw [overTwo, hneg, Int.toNat_natCast, Nat.pow_zero, Nat.mul_one]

theorem overTwo_neg (num den k : Nat) : overTwo num den (-k) = (num * 2 ^ k, den) := by
  have hneg : (-(k : Int)).toNat = 0 := by omega
  rw [overTwo, hneg, Int.neg_neg, Int.toNat_natCast, Nat.pow_zero, Nat.mul_one]

theorem leadingExponent_whole {n : Nat} (h : n ≠ 0) : leadingExponent n 1 = Nat.log2 n := by
  have hlog : Nat.log2 1 = 0 := by decide
  have hle : 2 ^ Nat.log2 n ≤ n := Nat.log2_self_le h
  rw [leadingExponent, hlog, Int.natCast_zero, Int.sub_zero]
  simp only [overTwo_natCast, Nat.one_mul]
  exact if_pos hle

/-- A whole number is nearer to a double than to infinity as long as it is below the middle. -/
theorem nearestWord_whole_lt {n : Nat} (h : n < 2 ^ 1024 - 2 ^ 970) :
    nearestWord n 1 < infinityWord := by
  by_cases hzero : n = 0
  · subst hzero
    decide
  have hlog : Nat.log2 n < 1024 := (Nat.log2_lt hzero).mpr (by omega)
  have hupper : n < 2 ^ (Nat.log2 n + 1) := Nat.lt_log2_self
  rw [nearestWord, if_neg hzero, leadingExponent_whole hzero, infinityWord]
  generalize Nat.log2 n = e at *
  refine (min_le_right _ _).trans_lt ?_
  -- a whole number is normal, so its last place is that of its leading digit less the digits behind
  have hplace : max ((e : Int) - 52) (-1074) = (e : Int) - 52 := by omega
  have hfield : ((e : Int) - 52 + 1074).toNat = e + 1022 := by omega
  simp only [hplace, hfield]
  rcases Nat.lt_or_ge e 52 with hsmall | hlarge
  · have hcast : (e : Int) - 52 = -(52 - e : Nat) := by omega
    rw [hcast, overTwo_neg]
    have hround : roundQuotient (n * 2 ^ (52 - e)) 1 ≤ 2 ^ 53 := by
      apply roundQuotient_le
      have hless : n * 2 ^ (52 - e) < 2 ^ (e + 1) * 2 ^ (52 - e) :=
        Nat.mul_lt_mul_of_pos_right hupper (by positivity)
      have hpower : 2 ^ (e + 1) * 2 ^ (52 - e) = 2 ^ 53 := by
        rw [← Nat.pow_add]
        congr 1
        omega
      omega
    dsimp only
    omega
  · have hcast : (e : Int) - 52 = (e - 52 : Nat) := by omega
    rw [hcast, overTwo_natCast, Nat.one_mul]
    dsimp only
    by_cases htop : e = 1023
    · have hround : roundQuotient n (2 ^ (e - 52)) ≤ 2 ^ 53 - 1 :=
        roundQuotient_le (by subst htop; omega)
      omega
    · have hround : roundQuotient n (2 ^ (e - 52)) ≤ 2 ^ 53 := by
        apply roundQuotient_le
        have hpower : 2 ^ (e + 1) = 2 ^ 53 * 2 ^ (e - 52) := by
          rw [← Nat.pow_add]
          congr 1
          omega
        omega
      omega

theorem leadingExponent_bounds {num den : Nat} (hzero : num ≠ 0) (h : num ≤ den) :
    (Nat.log2 num : Int) - Nat.log2 den - 1 ≤ leadingExponent num den ∧
      leadingExponent num den ≤ 0 := by
  have hlog : Nat.log2 num ≤ Nat.log2 den := by
    rw [Nat.le_log2 (by omega)]
    exact (Nat.log2_self_le hzero).trans h
  rw [leadingExponent]
  split
  · omega
  · omega

/-- A quotient that is at most one is far from infinity. -/
theorem nearestWord_quotient_lt {num den : Nat} (h : num ≤ den) :
    nearestWord num den < infinityWord := by
  by_cases hzero : num = 0
  · subst hzero
    rw [nearestWord, if_pos rfl]
    decide
  obtain ⟨hlow, hhigh⟩ := leadingExponent_bounds hzero h
  have hnum : num < 2 ^ (Nat.log2 num + 1) := Nat.lt_log2_self
  have hden : 2 ^ Nat.log2 den ≤ den := Nat.log2_self_le (by omega)
  rw [nearestWord, if_neg hzero, infinityWord]
  refine (min_le_right _ _).trans_lt ?_
  generalize leadingExponent num den = e at *
  -- the last place is a power below one, so that it is the numerator that is scaled
  obtain ⟨t, ht⟩ : ∃ t : Nat, max (e - 52) (-1074) = -(t : Int) :=
    ⟨(-(max (e - 52) (-1074))).toNat, by omega⟩
  have hround : roundQuotient (num * 2 ^ t) den ≤ 2 ^ 54 := by
    apply roundQuotient_le
    have hscaled : num * 2 ^ t < 2 ^ 54 * 2 ^ Nat.log2 den := by
      calc
        num * 2 ^ t < 2 ^ (Nat.log2 num + 1) * 2 ^ t :=
          Nat.mul_lt_mul_of_pos_right hnum (by positivity)
        _ = 2 ^ (Nat.log2 num + 1 + t) := (Nat.pow_add _ _ _).symm
        _ ≤ 2 ^ (54 + Nat.log2 den) := Nat.pow_le_pow_right (by omega) (by omega)
        _ = 2 ^ 54 * 2 ^ Nat.log2 den := Nat.pow_add _ _ _
    have hbound : 2 ^ 54 * 2 ^ Nat.log2 den ≤ 2 ^ 54 * den := Nat.mul_le_mul_left _ hden
    omega
  simp only [ht, overTwo_neg]
  omega

/-- A word whose exponent field is not full stands for a finite number. -/
theorem isFinite_ofBits {word : UInt64} (h : word.toNat / 2 ^ 52 % 2 ^ 11 ≠ 2047) :
    (Float.ofBits word).isFinite = true := by
  have hfield : @unpackExponent .binary64 word.toBitVec ≠ -1#11 := by
    intro heq
    apply h
    have hnat := congrArg BitVec.toNat heq
    rw [unpackExponent_def, BitVec.extractLsb'_toNat, Nat.shiftRight_eq_div_pow] at hnat
    exact hnat
  have hpack : pack .binary64 (unpack .binary64 word.toBitVec) = word.toBitVec :=
    pack_unpack_of_valid ⟨fun heq => absurd heq hfield⟩
  have hbits : (Float.ofBits word).isFinite =
      (unpack .binary64 (pack .binary64 (unpack .binary64 word.toBitVec))).isFinite := rfl
  rw [hbits, hpack, unpack]
  dsimp only
  rw [if_neg hfield]
  split
  · split <;> rfl
  · rfl

theorem isFinite_nearest {num den : Nat} (h : nearestWord num den < infinityWord)
    (negative : Bool) : (nearest negative num den).isFinite = true := by
  apply isFinite_ofBits
  rw [infinityWord] at h
  rw [UInt64.toNat_ofNat']
  cases negative with
  | false =>
      simp only [Bool.false_eq_true, if_false]
      omega
  | true =>
      simp only [if_true]
      omega

end Binary64

namespace Double

/-- Whole numbers below this one have a double: it is the middle between the largest double and the
next power of two. -/
def wholeLimit : Int := 2 ^ 1024 - 2 ^ 970

theorem exists_ofInt {n : Int} (hlow : 0 ≤ n) (h : n < wholeLimit) : ∃ x, ofInt n = .ok x := by
  have hnat : n.natAbs < 2 ^ 1024 - 2 ^ 970 := by
    rw [wholeLimit] at h
    omega
  have hfinite := Binary64.isFinite_nearest (Binary64.nearestWord_whole_lt hnat) (decide (n < 0))
  exact ⟨_, if_pos hfinite⟩

theorem exists_ofQuotient {a b : Nat} (h : a ≤ b) : ∃ x, ofQuotient a b = .ok x := by
  have hfinite := Binary64.isFinite_nearest (Binary64.nearestWord_quotient_lt h)
    (decide ((a : Int) < 0) != decide ((b : Int) < 0))
  exact ⟨_, if_pos hfinite⟩

end Double

end PackedDrawing
