import PackedDrawing.Numeric.Double
import PackedDrawing.Proofs.Markup.Reading
import PackedDrawing.Proofs.Outcome
import PackedDrawing.Svg.Document

/-!
# Plain texts

A plain text stands for itself wherever it is written: escaping leaves it alone, and it does not end
the value of an attribute. The numerals of a figure are plain.

## Main definitions

* `Markup.Plain`: a text of characters that stand for themselves.
* `Markup.PlainNumerals`: scalars are written by plain texts.

## Main statements

* `Markup.instPlainNumeralsFloat`: double-precision scalars are.
* `Svg.plain_coordinate`, `Value.plain_shown`: so are coordinates, widths and sizes.
-/

namespace PackedDrawing

namespace Markup

/-- The characters that stand for themselves also in the value of an attribute. -/
def isPlain (c : Char) : Bool := isAllowed c && !(['&', '<', '>', '\x22'].contains c)

/-- A text that stands for itself also in the value of an attribute. -/
def Plain (s : String) : Prop := ∀ c ∈ s.toList, isPlain c = true

instance (s : String) : Decidable (Plain s) :=
  decidable_of_iff (s.toList.all isPlain = true) List.all_eq_true

section Texts

variable {s t : String} {cs : List Char}

theorem isPlain_iff {c : Char} :
    isPlain c = true ↔ isAllowed c = true ∧ c ≠ '&' ∧ c ≠ '<' ∧ c ≠ '>' ∧ c ≠ '\x22' := by
  simp [isPlain]

theorem Plain.escape (h : Plain s) : escape s = s := by
  apply escape_eq_self
  intro c hc
  obtain ⟨_, hamp, hlt, hgt, _⟩ := isPlain_iff.mp (h c hc)
  exact ⟨hamp, hlt, hgt⟩

theorem Plain.quotable (h : Plain s) : Quotable s := by
  intro c hc
  obtain ⟨hallowed, _, _, _, hquote⟩ := isPlain_iff.mp (h c hc)
  exact ⟨hallowed, hquote⟩

theorem plain_ofList : Plain (String.ofList cs) ↔ ∀ c ∈ cs, isPlain c = true := by
  rw [Plain, String.toList_ofList]

@[simp] theorem plain_append : Plain (s ++ t) ↔ Plain s ∧ Plain t := by
  simp only [Plain, String.toList_append, List.mem_append, or_imp, forall_and]

theorem plain_intercalate {ts : List String} (hs : Plain s) (hts : ∀ t ∈ ts, Plain t) :
    Plain (s.intercalate ts) := by
  suffices h : ∀ c ∈ s.toList.intercalate (ts.map String.toList), isPlain c = true by
    rwa [Plain, String.toList_intercalate]
  induction ts with
  | nil => exact fun c hc => absurd hc (by simp)
  | cons t ts ih =>
      have ht := hts t List.mem_cons_self
      cases ts with
      | nil => simpa [Plain] using ht
      | cons u ts =>
          rw [List.map_cons, List.map_cons, List.intercalate_cons_cons, ← List.map_cons]
          intro c hc
          rcases List.mem_append.mp hc with hc | hc
          · rcases List.mem_append.mp hc with hc | hc
            · exact ht c hc
            · exact hs c hc
          · exact ih (fun v hv => hts v (List.mem_cons_of_mem t hv)) c hc

theorem isPlain_of_isDigit {c : Char} (h : c.isDigit = true) : isPlain c = true := by
  have hname : isNameChar c = true := by simp [isNameChar, Char.isAlphanum, h]
  rw [isPlain_iff]
  refine ⟨isAllowed_of_isNameChar hname, ?_, ?_, ?_, ?_⟩ <;> rintro rfl <;> cases h

end Texts

section Numerals

open Decimal

theorem isPlain_digits {n : Nat} : ∀ c ∈ digits n, isPlain c = true := fun _ hc =>
  isPlain_of_isDigit (Nat.isDigit_of_mem_toDigits (by decide) (by decide) hc)

theorem isPlain_replicate {n : Nat} : ∀ c ∈ List.replicate n '0', isPlain c = true := by
  intro c hc
  rw [List.eq_of_mem_replicate hc]
  rfl

theorem plain_signText (negative : Bool) : Plain (signText negative) := by
  cases negative <;> decide

theorem plain_powerText (p : Int) : Plain (powerText p) := by
  have hdigits : Plain (String.ofList (digits p.natAbs)) := plain_ofList.mpr isPlain_digits
  have hzero : Plain (if p.natAbs < 10 then "0" else "") := by split <;> decide
  have hsign : Plain (if p < 0 then "e-" else "e+") := by split <;> decide
  rw [powerText, twoDigits, plain_append, plain_append]
  exact ⟨hsign, hzero, hdigits⟩

theorem plain_pointed {ds : List Char} (h : ∀ c ∈ ds, isPlain c = true) (whole : Int) :
    Plain (pointed ds whole) := by
  rw [pointed]
  split
  · refine plain_append.mpr ⟨by decide, plain_ofList.mpr ?_⟩
    exact List.forall_mem_append.mpr ⟨isPlain_replicate, h⟩
  · refine plain_append.mpr ⟨plain_append.mpr ⟨plain_ofList.mpr ?_, by decide⟩, ?_⟩
    · exact List.forall_mem_append.mpr
        ⟨fun c hc => h c (List.mem_of_mem_take hc), isPlain_replicate⟩
    · split
      · decide
      · exact plain_ofList.mpr fun c hc => h c (List.mem_of_mem_drop hc)

theorem isPlain_trimZeros {ds : List Char} (h : ∀ c ∈ ds, isPlain c = true) :
    ∀ c ∈ trimZeros ds, isPlain c = true := by
  intro c hc
  rw [trimZeros, List.mem_reverse] at hc
  exact h c (List.mem_reverse.mp ((List.dropWhile_sublist _).subset hc))

theorem plain_digitsText (d : Digits) : Plain d.text := by
  have hdigits : ∀ c ∈ trimZeros (digits d.coefficient), isPlain c = true :=
    isPlain_trimZeros isPlain_digits
  rw [Digits.text]
  split
  · exact plain_pointed hdigits _
  · cases hds : trimZeros (digits d.coefficient) with
    | nil => exact (by decide : Plain "0.0")
    | cons first rest =>
        rw [hds, List.forall_mem_cons] at hdigits
        have hfirst : Plain (String.ofList [first]) :=
          plain_ofList.mpr (List.forall_mem_singleton.mpr hdigits.1)
        have hrest : Plain (if rest.isEmpty then "" else "." ++ String.ofList rest) := by
          split
          · decide
          · exact plain_append.mpr ⟨by decide, plain_ofList.mpr hdigits.2⟩
        exact plain_append.mpr ⟨plain_append.mpr ⟨hfirst, hrest⟩, plain_powerText _⟩

theorem plain_shortestText (d : Binary64.Datum) : Plain (shortestText d) := by
  cases d with
  | undefined => decide
  | infinite negative => cases negative <;> decide
  | finite negative m q =>
      rw [shortestText, plain_append]
      refine ⟨plain_signText negative, ?_⟩
      split
      · decide
      · exact plain_digitsText _

theorem plain_fixedDigits (places n : Nat) : Plain (fixedDigits places n) := by
  have hpadded : ∀ c ∈ List.replicate (places + 1 - (digits n).length) '0' ++ digits n,
      isPlain c = true := List.forall_mem_append.mpr ⟨isPlain_replicate, isPlain_digits⟩
  refine plain_append.mpr ⟨plain_ofList.mpr fun c hc => hpadded c (List.mem_of_mem_take hc), ?_⟩
  split
  · decide
  · exact plain_append.mpr
      ⟨by decide, plain_ofList.mpr fun c hc => hpadded c (List.mem_of_mem_drop hc)⟩

theorem plain_fixedText (places : Nat) (d : Binary64.Datum) : Plain (fixedText places d) := by
  cases d with
  | undefined => exact plain_shortestText .undefined
  | infinite negative => exact plain_shortestText (.infinite negative)
  | finite negative m q =>
      exact plain_append.mpr ⟨plain_signText negative, plain_fixedDigits _ _⟩

end Numerals

/-- Scalars that are written by plain texts. -/
class PlainNumerals (α : Type) [Written α] : Prop where
  shortest (x : α) : Plain (Written.shortest x)
  fixed (places : Nat) (x : α) : Plain (Written.fixed places x)

instance instPlainNumeralsFloat : PlainNumerals Float where
  shortest _ := plain_shortestText _
  fixed places _ := plain_fixedText places _

end Markup

open Markup (Plain PlainNumerals plain_append plain_ofList plain_intercalate isPlain_digits)

variable {α : Type} [Written α] [PlainNumerals α]

omit [PlainNumerals α] in
theorem plain_toString (n : Int) : Plain (toString n) := by
  have hnat : ∀ m : Nat, Plain m.repr := fun m => plain_ofList.mpr isPlain_digits
  cases n with
  | ofNat m => exact hnat m
  | negSucc m => exact plain_append.mpr ⟨by decide, hnat (m + 1)⟩

/-- Values that are numbers are shown by plain texts. -/
theorem Value.plain_shown {v : Value α} {x : Number α} (h : v.number = .ok x) : Plain v.shown := by
  cases v with
  | int n => exact plain_toString n
  | real r => exact PlainNumerals.shortest r
  | bool b =>
      have htrue : Plain "True" := by decide
      have hfalse : Plain "False" := by decide
      cases b
      · exact hfalse
      · exact htrue
  | null | text _ | list _ | table _ | thing _ => cases h

namespace Svg

variable [Scalar α]

theorem plain_coordinate {x : Number α} {t : String} (h : coordinate x = .ok t) : Plain t := by
  obtain ⟨a, _, h⟩ := bind_eq_ok.mp h
  rw [← pure_eq_ok.mp h]
  exact PlainNumerals.fixed 1 a

theorem plain_pointText {q : Point (Number α)} {t : String} (h : pointText q = .ok t) :
    Plain t := by
  obtain ⟨x, hx, h⟩ := bind_eq_ok.mp h
  obtain ⟨y, hy, h⟩ := bind_eq_ok.mp h
  rw [← pure_eq_ok.mp h, plain_append, plain_append]
  exact ⟨⟨plain_coordinate hx, by decide⟩, plain_coordinate hy⟩

theorem plain_points {qs : List (Point (Number α))} {ts : List String}
    (h : qs.mapM pointText = .ok ts) : Plain (" ".intercalate ts) := by
  apply plain_intercalate (by decide)
  intro t ht
  obtain ⟨q, _, hq⟩ := (mem_iff_of_mapM h).mp ht
  exact plain_pointText hq

end Svg

end PackedDrawing
