import PackedDrawing.Proofs.Markup.Plain
import PackedDrawing.Proofs.Svg.Sheet

/-!
# Figures as markup

Each part of a figure is a piece of markup, or two for a label, in which the texts of options and
labels stand as they are. A part whose texts do not end the values of attributes is written as its
pieces are.

## Main definitions

* `Svg.Part.pieces`: the pieces of markup that a part stands for.
* `Svg.Part.Intact`: a part whose texts survive being written.

## Main statements

* `Svg.pieces_of_text`: such a part is written as its pieces are.
* `Svg.balanced_pieces`: the pieces of a part that is an element end what they begin.
-/

namespace PackedDrawing

/-- A value that, if it is a text, does not end the value of an attribute. -/
def Value.Quotable {α : Type} (v : Value α) : Prop := ∀ s, v = .text s → Markup.Quotable s

/-- A value that is a number. -/
def Value.IsNumber {α : Type} (v : Value α) : Prop := ∃ x, v.number = .ok x

namespace Svg

open Markup (Attribute Tag Role Piece PlainNumerals)

variable {α : Type}

/-- A text as it is; other values have none. -/
def verbatim : Value α → Except Fault String
  | .text s => .ok s
  | _ => .error .missingAttribute

namespace Part

/-- What separates a part from the line before it; a frame begins the figure. -/
def lead : Part α → String
  | frame .. => ""
  | background _ | groupStart _ | groupEnd | box .. | polyline .. | circle .. | rectangle ..
  | label .. | frameEnd => "\n"

/-- The blanks at the beginning of the line of a part. -/
def indent : Part α → String
  | frame .. | frameEnd => ""
  | background _ | groupStart _ | groupEnd => "  "
  | box .. | polyline .. | circle .. | rectangle .. | label .. => "    "

/-- The pieces that follow the tag of a part: a label ends behind its text. -/
def ending : Part α → List Piece
  | label _ _ _ _ text => [⟨text, .finish, ⟨"text", []⟩⟩]
  | frame .. | background _ | groupStart _ | groupEnd | box .. | polyline .. | circle ..
  | rectangle .. | frameEnd => []

/-- The name of the element that a part is, begins or ends. -/
def name : Part α → String
  | frame .. | frameEnd => "svg"
  | background _ | box .. | rectangle .. => "rect"
  | groupStart _ | groupEnd => "g"
  | polyline .. => "polyline"
  | circle .. => "circle"
  | label .. => "text"

/-- What the tag of a part does. -/
def role : Part α → Role
  | frame .. | groupStart _ | label .. => .start
  | background _ | box .. | polyline .. | circle .. | rectangle .. => .alone
  | groupEnd | frameEnd => .finish

variable [Scalar α] [Written α]

/-- The attributes of a part, in which colours and fonts stand as they are. -/
def attributes : Part α → Except Fault (List Attribute)
  | frame width height => do
    return (frameTag (← coordinate width) (← coordinate height)).attributes
  | background fill => do
    return [⟨"width", "100%"⟩, ⟨"height", "100%"⟩, ⟨"fill", ← verbatim fill⟩]
  | groupStart name => .ok [⟨"class", name⟩]
  | groupEnd | frameEnd => .ok []
  | box corner width height stroke => do
    return [⟨"x", ← coordinate corner.x⟩, ⟨"y", ← coordinate corner.y⟩,
      ⟨"width", ← coordinate width⟩, ⟨"height", ← coordinate height⟩, ⟨"fill", "none"⟩,
      ⟨"stroke", ← verbatim stroke⟩, ⟨"stroke-dasharray", "4 2"⟩]
  | polyline points stroke strokeWidth => do
    return [⟨"points", " ".intercalate (← points.mapM pointText)⟩, ⟨"fill", "none"⟩,
      ⟨"stroke", ← verbatim stroke⟩, ⟨"stroke-width", strokeWidth.shown⟩]
  | circle centre radius fill stroke strokeWidth => do
    return [⟨"cx", ← coordinate centre.x⟩, ⟨"cy", ← coordinate centre.y⟩,
      ⟨"r", ← coordinate radius⟩, ⟨"fill", ← verbatim fill⟩, ⟨"stroke", ← verbatim stroke⟩,
      ⟨"stroke-width", strokeWidth.shown⟩]
  | rectangle corner width height fill stroke strokeWidth => do
    return [⟨"x", ← coordinate corner.x⟩, ⟨"y", ← coordinate corner.y⟩,
      ⟨"width", ← coordinate width⟩, ⟨"height", ← coordinate height⟩,
      ⟨"fill", ← verbatim fill⟩, ⟨"stroke", ← verbatim stroke⟩,
      ⟨"stroke-width", strokeWidth.shown⟩, ⟨"rx", "4"⟩]
  | label centre fill fontSize fontFamily _ => do
    return [⟨"x", ← coordinate centre.x⟩, ⟨"y", ← coordinate centre.y⟩,
      ⟨"fill", ← verbatim fill⟩, ⟨"font-size", fontSize.shown⟩,
      ⟨"font-family", ← verbatim fontFamily⟩, ⟨"text-anchor", "middle"⟩,
      ⟨"dominant-baseline", "central"⟩]

/-- The piece of markup with the tag of a part. -/
def piece (p : Part α) (as : List Attribute) : Piece := ⟨p.lead ++ p.indent, p.role, ⟨p.name, as⟩⟩

/-- The pieces of markup that a part stands for. -/
def pieces (p : Part α) : Except Fault (List Piece) := do
  return p.piece (← p.attributes) :: p.ending

omit [Scalar α] [Written α] in
/-- A part whose texts survive being written, and whose widths and sizes are numbers. -/
def Intact : Part α → Prop
  | background fill => fill.Quotable
  | groupStart name => Markup.Plain name
  | box _ _ _ stroke => stroke.Quotable
  | polyline _ stroke strokeWidth => stroke.Quotable ∧ strokeWidth.IsNumber
  | circle _ _ fill stroke strokeWidth | rectangle _ _ _ fill stroke strokeWidth =>
    fill.Quotable ∧ stroke.Quotable ∧ strokeWidth.IsNumber
  | label _ fill fontSize fontFamily text =>
    fill.Quotable ∧ fontSize.IsNumber ∧ fontFamily.Quotable ∧ Markup.Allowed text
  | frame .. | groupEnd | frameEnd => True

end Part

section Kept

variable {name s : String}

/-- An attribute that is read from another one as it is written. -/
structure Kept (a written : Attribute) : Prop where
  quotable : Markup.Quotable a.value
  escaped : a.escaped = written

theorem kept_of_plain (h : Markup.Plain s) : Kept ⟨name, s⟩ ⟨name, s⟩ :=
  ⟨h.quotable, congrArg (Attribute.mk name) h.escape⟩

theorem kept_of_quotable (h : Markup.Quotable s) : Kept ⟨name, s⟩ ⟨name, Markup.escape s⟩ :=
  ⟨h, rfl⟩

theorem Kept.escaped_tag {as written : List Attribute} (h : List.Forall₂ Kept as written) :
    (⟨name, as⟩ : Tag).escaped = ⟨name, written⟩ := by
  rw [Tag.escaped, Tag.mk.injEq]
  exact ⟨rfl, List.forall₂_eq_eq_eq ▸ List.forall₂_map_left_iff.mpr (h.imp fun _ _ h => h.escaped)⟩

theorem Kept.quotable_values {as written : List Attribute} (h : List.Forall₂ Kept as written) :
    ∀ a ∈ as, Markup.Quotable a.value := by
  induction h with
  | nil => exact fun a ha => absurd ha List.not_mem_nil
  | cons hkept _ ih => exact List.forall_mem_cons.mpr ⟨hkept.quotable, ih⟩

end Kept

section Pieces

variable [Scalar α] [Written α] {p : Part α} {line : String} {as written : List Attribute}

omit [Scalar α] [Written α] in
theorem clean_ending (hp : p.Intact) : ∀ q ∈ p.ending, q.Clean := by
  cases p with
  | label centre fill fontSize fontFamily text =>
      obtain ⟨_, _, _, htext⟩ := hp
      exact List.forall_mem_singleton.mpr
        { before := htext, named := (by decide : Markup.areNames "text" [] = true), values := nofun
          finish := fun _ => rfl }
  | _ => exact fun q hq => absurd hq List.not_mem_nil

omit [Scalar α] [Written α] in
theorem plain_lead_indent (p : Part α) : Markup.Plain (p.lead ++ p.indent) := by
  have hlead : p.lead = "" ∨ p.lead = "\n" := by cases p <;> simp [Part.lead]
  have hindent : p.indent = "" ∨ p.indent = "  " ∨ p.indent = "    " := by
    cases p <;> simp [Part.indent]
  rcases hlead with h | h <;> rcases hindent with h' | h' | h' <;> rw [h, h'] <;> decide

/-- A tag that ends an element has no attributes. -/
theorem eq_nil_of_finish (has : p.attributes = .ok as) (hrole : p.role = .finish) : as = [] := by
  cases p with
  | groupEnd | frameEnd => exact (Except.ok.inj has).symm
  | _ => cases hrole

/-- A part that is written attribute by attribute is written as its pieces are. -/
theorem exists_pieces (hp : p.Intact) (has : p.attributes = .ok as)
    (hnames : Markup.areNames p.name (as.map Attribute.name) = true)
    (hkept : List.Forall₂ Kept as written)
    (hline : line = p.indent ++ (⟨p.name, written⟩ : Tag).written p.role ++
      String.join (p.ending.map Piece.text)) :
    ∃ qs, p.pieces = .ok qs ∧ p.lead ++ line = String.join (qs.map Piece.text) ∧
      ∀ q ∈ qs, q.Clean := by
  refine ⟨p.piece as :: p.ending, ?_, ?_, ?_⟩
  · rw [Part.pieces, has]
    rfl
  · rw [List.map_cons, String.join_cons, Piece.text, Part.piece, (plain_lead_indent p).escape,
      Kept.escaped_tag hkept, hline]
    simp only [String.append_assoc]
  · refine List.forall_mem_cons.mpr ⟨?_, clean_ending hp⟩
    exact
      { before := fun c hc => ((plain_lead_indent p).quotable c hc).1
        named := hnames
        values := Kept.quotable_values hkept
        finish := eq_nil_of_finish has }

variable [PlainNumerals α]

omit [Scalar α] [Written α] [PlainNumerals α] in
theorem bind_escaped {β : Type} {v : Value α} {f : String → Except Fault β} {b : β} :
    (escaped v >>= f) = .ok b ↔ ∃ s, v = .text s ∧ f (Markup.escape s) = .ok b := by
  rw [bind_eq_ok]
  constructor
  · rintro ⟨t, ht, h⟩
    obtain ⟨s, rfl, rfl⟩ := escaped_eq_ok_iff.mp ht
    exact ⟨s, rfl, h⟩
  · rintro ⟨s, rfl, h⟩
    exact ⟨_, rfl, h⟩

/-- A part whose texts survive being written is written as its pieces are. -/
theorem pieces_of_text (hp : p.Intact) (h : p.text = .ok line) :
    ∃ qs, p.pieces = .ok qs ∧ p.lead ++ line = String.join (qs.map Piece.text) ∧
      ∀ q ∈ qs, q.Clean := by
  have hplain : ∀ {name s}, Markup.Plain s → Kept ⟨name, s⟩ ⟨name, s⟩ := kept_of_plain
  cases p with
  | frame width height =>
      obtain ⟨w, hw, h⟩ := bind_eq_ok.mp h
      obtain ⟨x, hx, h⟩ := bind_eq_ok.mp h
      rw [← pure_eq_ok.mp h]
      have hw' := plain_coordinate hw
      have hx' := plain_coordinate hx
      have hview : Markup.Plain ("0 0 " ++ w ++ " " ++ x) := by
        simp only [Markup.plain_append]
        exact ⟨⟨⟨by decide, hw'⟩, by decide⟩, hx'⟩
      have has : (Part.frame width height).attributes = .ok (frameTag w x).attributes :=
        bind_eq_ok.mpr ⟨w, hw, bind_eq_ok.mpr ⟨x, hx, rfl⟩⟩
      refine exists_pieces hp has
        (by decide : Markup.areNames "svg" ["xmlns", "width", "height", "viewBox"] = true)
        (.cons (hplain (by decide)) (.cons (hplain hw') (.cons (hplain hx')
          (.cons (hplain hview) .nil)))) ?_
      simp [Part.indent, Part.ending, Part.name, Part.role, Tag.written, frameTag]
  | background fill =>
      obtain ⟨s, hs, h⟩ := bind_escaped.mp h
      rw [← pure_eq_ok.mp h]
      subst hs
      refine exists_pieces hp rfl
        (by decide : Markup.areNames "rect" ["width", "height", "fill"] = true)
        (.cons (hplain (by decide)) (.cons (hplain (by decide))
          (.cons (kept_of_quotable (hp s rfl)) .nil))) ?_
      simp [Part.indent, Part.ending, Part.name, Part.role, Tag.written]
  | groupStart name =>
      rw [← Except.ok.inj h]
      refine exists_pieces hp rfl (by decide : Markup.areNames "g" ["class"] = true)
        (.cons (hplain hp) .nil) ?_
      simp [Part.indent, Part.ending, Part.name, Part.role, Tag.written]
  | groupEnd =>
      rw [← Except.ok.inj h]
      exact exists_pieces hp rfl (by decide : Markup.areNames "g" [] = true) .nil
        (by simp [Part.indent, Part.ending, Part.name, Part.role, Tag.written])
  | box corner width height stroke =>
      obtain ⟨x, hx, h⟩ := bind_eq_ok.mp h
      obtain ⟨y, hy, h⟩ := bind_eq_ok.mp h
      obtain ⟨w, hw, h⟩ := bind_eq_ok.mp h
      obtain ⟨z, hz, h⟩ := bind_eq_ok.mp h
      obtain ⟨s, hs, h⟩ := bind_escaped.mp h
      rw [← pure_eq_ok.mp h]
      subst hs
      refine exists_pieces hp
        (bind_eq_ok.mpr ⟨x, hx, bind_eq_ok.mpr ⟨y, hy, bind_eq_ok.mpr ⟨w, hw,
          bind_eq_ok.mpr ⟨z, hz, rfl⟩⟩⟩⟩)
        (by decide : Markup.areNames "rect"
          ["x", "y", "width", "height", "fill", "stroke", "stroke-dasharray"] = true)
        (.cons (hplain (plain_coordinate hx)) (.cons (hplain (plain_coordinate hy))
          (.cons (hplain (plain_coordinate hw)) (.cons (hplain (plain_coordinate hz))
            (.cons (hplain (by decide)) (.cons (kept_of_quotable (hp s rfl))
              (.cons (hplain (by decide)) .nil))))))) ?_
      simp [Part.indent, Part.ending, Part.name, Part.role, Tag.written]
  | polyline points stroke strokeWidth =>
      obtain ⟨ts, hts, h⟩ := bind_eq_ok.mp h
      obtain ⟨s, hs, h⟩ := bind_escaped.mp h
      rw [← pure_eq_ok.mp h]
      subst hs
      obtain ⟨hstroke, x, hx⟩ := hp
      refine exists_pieces ⟨hstroke, x, hx⟩ (bind_eq_ok.mpr ⟨ts, hts, rfl⟩)
        (by decide : Markup.areNames "polyline" ["points", "fill", "stroke", "stroke-width"] = true)
        (.cons (hplain (plain_points hts)) (.cons (hplain (by decide))
          (.cons (kept_of_quotable (hstroke s rfl))
            (.cons (hplain (Value.plain_shown hx)) .nil)))) ?_
      simp [Part.indent, Part.ending, Part.name, Part.role, Tag.written]
  | circle centre radius fill stroke strokeWidth =>
      obtain ⟨x, hx, h⟩ := bind_eq_ok.mp h
      obtain ⟨y, hy, h⟩ := bind_eq_ok.mp h
      obtain ⟨r, hr, h⟩ := bind_eq_ok.mp h
      obtain ⟨s, hs, h⟩ := bind_escaped.mp h
      obtain ⟨t, ht, h⟩ := bind_escaped.mp h
      rw [← pure_eq_ok.mp h]
      subst hs ht
      obtain ⟨hfill, hstroke, z, hz⟩ := hp
      refine exists_pieces ⟨hfill, hstroke, z, hz⟩
        (bind_eq_ok.mpr ⟨x, hx, bind_eq_ok.mpr ⟨y, hy, bind_eq_ok.mpr ⟨r, hr, rfl⟩⟩⟩)
        (by decide : Markup.areNames "circle"
          ["cx", "cy", "r", "fill", "stroke", "stroke-width"] = true)
        (.cons (hplain (plain_coordinate hx)) (.cons (hplain (plain_coordinate hy))
          (.cons (hplain (plain_coordinate hr)) (.cons (kept_of_quotable (hfill s rfl))
            (.cons (kept_of_quotable (hstroke t rfl))
              (.cons (hplain (Value.plain_shown hz)) .nil)))))) ?_
      simp [Part.indent, Part.ending, Part.name, Part.role, Tag.written]
  | rectangle corner width height fill stroke strokeWidth =>
      obtain ⟨x, hx, h⟩ := bind_eq_ok.mp h
      obtain ⟨y, hy, h⟩ := bind_eq_ok.mp h
      obtain ⟨w, hw, h⟩ := bind_eq_ok.mp h
      obtain ⟨v, hv, h⟩ := bind_eq_ok.mp h
      obtain ⟨s, hs, h⟩ := bind_escaped.mp h
      obtain ⟨t, ht, h⟩ := bind_escaped.mp h
      rw [← pure_eq_ok.mp h]
      subst hs ht
      obtain ⟨hfill, hstroke, z, hz⟩ := hp
      refine exists_pieces ⟨hfill, hstroke, z, hz⟩
        (bind_eq_ok.mpr ⟨x, hx, bind_eq_ok.mpr ⟨y, hy, bind_eq_ok.mpr ⟨w, hw,
          bind_eq_ok.mpr ⟨v, hv, rfl⟩⟩⟩⟩)
        (by decide : Markup.areNames "rect"
          ["x", "y", "width", "height", "fill", "stroke", "stroke-width", "rx"] = true)
        (.cons (hplain (plain_coordinate hx)) (.cons (hplain (plain_coordinate hy))
          (.cons (hplain (plain_coordinate hw)) (.cons (hplain (plain_coordinate hv))
            (.cons (kept_of_quotable (hfill s rfl)) (.cons (kept_of_quotable (hstroke t rfl))
              (.cons (hplain (Value.plain_shown hz)) (.cons (hplain (by decide)) .nil)))))))) ?_
      simp [Part.indent, Part.ending, Part.name, Part.role, Tag.written]
  | label centre fill fontSize fontFamily text =>
      obtain ⟨x, hx, h⟩ := bind_eq_ok.mp h
      obtain ⟨y, hy, h⟩ := bind_eq_ok.mp h
      obtain ⟨s, hs, h⟩ := bind_escaped.mp h
      obtain ⟨t, ht, h⟩ := bind_escaped.mp h
      rw [← pure_eq_ok.mp h]
      subst hs ht
      obtain ⟨hfill, ⟨z, hz⟩, hfamily, htext⟩ := hp
      refine exists_pieces ⟨hfill, ⟨z, hz⟩, hfamily, htext⟩
        (bind_eq_ok.mpr ⟨x, hx, bind_eq_ok.mpr ⟨y, hy, rfl⟩⟩)
        (by decide : Markup.areNames "text"
          ["x", "y", "fill", "font-size", "font-family", "text-anchor", "dominant-baseline"] = true)
        (.cons (hplain (plain_coordinate hx)) (.cons (hplain (plain_coordinate hy))
          (.cons (kept_of_quotable (hfill s rfl)) (.cons (hplain (Value.plain_shown hz))
            (.cons (kept_of_quotable (hfamily t rfl)) (.cons (hplain (by decide))
              (.cons (hplain (by decide)) .nil))))))) ?_
      simp [Part.indent, Part.ending, Part.name, Part.role, Tag.written, Tag.around, Piece.text,
        Tag.escaped, Tag.finish, String.append_assoc]
  | frameEnd =>
      rw [← Except.ok.inj h]
      exact exists_pieces hp rfl (by decide : Markup.areNames "svg" [] = true) .nil
        (by simp [Part.indent, Part.ending, Part.name, Part.role, Tag.written])

end Pieces

section Nesting

variable [Scalar α] [Written α] {p : Part α} {qs : List Piece}

/-- The text of a label. -/
def Part.caption : Part α → Option String
  | label _ _ _ _ text => some text
  | frame .. | background _ | groupStart _ | groupEnd | box .. | polyline .. | circle ..
  | rectangle .. | frameEnd => none

/-- The content of the element for texts that a piece ends. -/
def content (q : Piece) : Option String :=
  if q.role = .finish ∧ q.tag.name = "text" then some q.before else none

omit [Scalar α] [Written α] in
theorem lead_of_element {n : String} (h : p.element = some n) (hn : n ≠ "svg") : p.lead = "\n" := by
  cases p with
  | frame => exact absurd (Option.some.inj h).symm hn
  | _ => rfl

omit [Scalar α] [Written α] in
theorem caption_of_element {n : String} (h : p.element = some n) (hn : n ≠ "text") :
    p.caption = none := by
  cases p with
  | label => exact absurd (Option.some.inj h).symm hn
  | _ => rfl

/-- The pieces of a part begin the same element as the part. -/
theorem element_of_pieces (h : p.pieces = .ok qs) :
    qs.filterMap Piece.element = p.element.toList := by
  obtain ⟨as, _, h⟩ := bind_eq_ok.mp h
  rw [← pure_eq_ok.mp h]
  cases p <;> rfl

/-- The pieces of a part have the same text as the part. -/
theorem content_of_pieces (h : p.pieces = .ok qs) :
    qs.filterMap content = p.caption.toList := by
  obtain ⟨as, _, h⟩ := bind_eq_ok.mp h
  rw [← pure_eq_ok.mp h]
  cases p <;> rfl

/-- The pieces of a part that is an element end what they begin. -/
theorem balanced_pieces {n : String} (h : p.pieces = .ok qs) (helement : p.element = some n)
    (hn : n ∉ ["svg", "g"]) : Markup.Balanced qs := by
  obtain ⟨as, _, h⟩ := bind_eq_ok.mp h
  rw [← pure_eq_ok.mp h]
  cases p with
  | frame => exact absurd (Option.some.inj helement ▸ by decide) hn
  | groupStart => exact absurd (Option.some.inj helement ▸ by decide) hn
  | groupEnd | frameEnd => cases helement
  | background | box | polyline | circle | rectangle => exact Markup.balanced_alone rfl
  | label => exact Markup.balanced_around rfl Markup.balanced_nil rfl rfl

end Nesting

end Svg

end PackedDrawing
