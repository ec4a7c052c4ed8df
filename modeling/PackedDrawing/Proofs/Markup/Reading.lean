import Mathlib
import PackedDrawing.Svg.Markup

/-!
# Reading markup

A document is read piece by piece, where a piece is a tag together with the text in front of it. The
entities of texts and of the values of attributes are replaced by what they stand for.

## Main definitions

* `Markup.unescape?`: what an escaped text stands for.
* `Markup.Piece`: a tag and the text in front of it.
* `Markup.document?`: the pieces of a well-formed document.
* `Markup.Piece.Clean`: a piece whose texts survive being written.

## Main statements

* `Markup.unescape?_escape`: an escaped text stands for the text.
* `Markup.document?_join`: a document that is written piece by piece is read back.

## Implementation notes

Of the language only as much is read as figures need: there are no comments, declarations or
numbered entities, values stand in double quotes, and a tag ends at the first character that could
end it. Whatever else a text contains is refused, so that every text that is read is well-formed.
-/

namespace PackedDrawing.Markup

/-- The characters that a document may contain. -/
def isAllowed (c : Char) : Bool :=
  c = '\t' || c = '\n' || c = '\r' || (0x20 ≤ c.toNat && c.toNat != 0xfffe && c.toNat != 0xffff)

/-- What an escaped text stands for. Characters that begin or end a tag, and those that begin an
entity without a meaning, are refused. -/
def unescape? : List Char → Option (List Char)
  | [] => some []
  | '&' :: 'a' :: 'm' :: 'p' :: ';' :: rest => (unescape? rest).map ('&' :: ·)
  | '&' :: 'l' :: 't' :: ';' :: rest => (unescape? rest).map ('<' :: ·)
  | '&' :: 'g' :: 't' :: ';' :: rest => (unescape? rest).map ('>' :: ·)
  | '&' :: 'q' :: 'u' :: 'o' :: 't' :: ';' :: rest => (unescape? rest).map ('\x22' :: ·)
  | '&' :: 'a' :: 'p' :: 'o' :: 's' :: ';' :: rest => (unescape? rest).map ('\x27' :: ·)
  | c :: rest =>
    if c = '&' || c = '<' || c = '>' then none else (unescape? rest).map (c :: ·)

/-- The characters of names behind their first letter. -/
def isNameChar (c : Char) : Bool := c.isAlphanum || c = '-'

/-- Whether characters are the name of an element or of an attribute. -/
def isName : List Char → Bool
  | [] => false
  | c :: cs => c.isAlpha && cs.all isNameChar

/-- The name that stands between a blank and an equals sign. -/
def key? : List Char → Option String
  | ' ' :: cs =>
    if cs.getLast? = some '=' && isName cs.dropLast then some (String.ofList cs.dropLast) else none
  | _ => none

/-- The attributes of a tag that has been cut at its quotes, and whether the tag is an element
without content. -/
def attributes? : List (List Char) → Option (List Attribute × Bool)
  | [] => none
  | [tail] => if tail = [] then some ([], false) else if tail = ['/'] then some ([], true) else none
  | key :: value :: rest => do
    let name ← key? key
    let value ← unescape? value
    let (others, alone) ← attributes? rest
    return (⟨name, String.ofList value⟩ :: others, alone)

/-- What a tag does: it begins an element, is one without content, or ends one. -/
inductive Role where
  | start
  | alone
  | finish
  deriving DecidableEq, Repr

/-- The tag with the given characters between its ends. No two of its attributes have the same
name. -/
def tag? : List Char → Option (Role × Tag)
  | '/' :: name => if isName name then some (.finish, ⟨String.ofList name, []⟩) else none
  | cs =>
    let name := cs.takeWhile isNameChar
    if isName name then do
      let (attributes, alone) ← attributes? ((cs.dropWhile isNameChar).splitOn '\x22')
      if (attributes.map Attribute.name).Nodup then
        return (if alone then .alone else .start, ⟨String.ofList name, attributes⟩)
      else none
    else none

/-- A tag and the text in front of it, which no tag interrupts. -/
structure Piece where
  before : String
  role : Role
  tag : Tag
  deriving DecidableEq, Repr

namespace Piece

/-- The name of the element that a piece is or begins. -/
def element (p : Piece) : Option String :=
  match p.role with
  | .start | .alone => some p.tag.name
  | .finish => none

end Piece

/-- The piece with the given characters up to the end of its tag. -/
def piece? (cs : List Char) : Option Piece :=
  match cs.splitOn '<' with
  | [before, inside] => do
    let before ← unescape? before
    let (role, tag) ← tag? inside
    return ⟨String.ofList before, role, tag⟩
  | _ => none

/-- The pieces of a text that has been cut at the ends of its tags. -/
def pieces? : List (List Char) → Option (List Piece)
  | [] => none
  | [tail] => if tail.isEmpty then some [] else none
  | cs :: next :: rest => do return (← piece? cs) :: (← pieces? (next :: rest))

/-- Whether pieces end the open elements, whose names are given from the innermost to the outermost,
and end with the last of them. -/
def closes : List String → List Piece → Bool
  | [], ps => ps.isEmpty
  | _ :: _, [] => false
  | name :: outer, p :: ps =>
    match p.role with
    | .start => closes (p.tag.name :: name :: outer) ps
    | .alone => closes (name :: outer) ps
    | .finish => p.tag.name == name && closes outer ps

/-- Whether pieces are one element with all that it contains. -/
def isDocument : List Piece → Bool
  | [] => false
  | p :: ps => p.before.isEmpty &&
    match p.role with
    | .start => closes [p.tag.name] ps
    | .alone => ps.isEmpty
    | .finish => false

/-- The pieces of a well-formed document; nothing if a text is none. -/
def document? (text : String) : Option (List Piece) :=
  if text.toList.all isAllowed then (pieces? (text.toList.splitOn '>')).filter isDocument else none

section Escape

variable {s : String}

/-- What holds of the characters of entities and of all others that are no ends of tags holds of the
characters of an escaped text. -/
theorem forall_mem_escape {p : Char → Bool}
    (hentity : ['&', 'a', 'm', 'p', ';', 'l', 't', 'g'].all p = true)
    (h : ∀ c ∈ s.toList, c ≠ '<' → c ≠ '>' → p c = true) :
    ∀ c ∈ (escape s).toList, p c = true := by
  rw [List.all_eq_true] at hentity
  intro c hc
  rw [escape, String.toList_ofList, List.mem_flatMap] at hc
  obtain ⟨d, hd, hc⟩ := hc
  rw [entity] at hc
  split_ifs at hc with hamp hlt hgt
  · exact hentity c (by revert hc; simp; tauto)
  · exact hentity c (by revert hc; simp; tauto)
  · exact hentity c (by revert hc; simp; tauto)
  · obtain rfl := List.mem_singleton.mp hc
    exact h c hd hlt hgt

theorem lt_not_mem_escape : '<' ∉ (escape s).toList := by
  intro h
  have hne := forall_mem_escape (p := (· != '<')) (by decide)
    (fun _ _ hlt _ => bne_iff_ne.mpr hlt) '<' h
  exact Bool.false_ne_true hne

theorem gt_not_mem_escape : '>' ∉ (escape s).toList := by
  intro h
  have hne := forall_mem_escape (p := (· != '>')) (by decide)
    (fun _ _ _ hgt => bne_iff_ne.mpr hgt) '>' h
  exact Bool.false_ne_true hne

theorem quote_not_mem_escape (h : '\x22' ∉ s.toList) : '\x22' ∉ (escape s).toList := by
  intro hquote
  have hne := forall_mem_escape (p := (· != '\x22')) (by decide)
    (fun c hc _ _ => bne_iff_ne.mpr fun heq => h (heq ▸ hc)) '\x22' hquote
  exact Bool.false_ne_true hne

theorem isAllowed_escape (h : ∀ c ∈ s.toList, isAllowed c = true) :
    ∀ c ∈ (escape s).toList, isAllowed c = true :=
  forall_mem_escape (by decide) fun c hc _ _ => h c hc

theorem unescape?_flatMap (cs : List Char) : unescape? (cs.flatMap entity) = some cs := by
  induction cs with
  | nil => rfl
  | cons c cs ih =>
      rw [List.flatMap_cons]
      by_cases hamp : c = '&'
      · simp [hamp, entity, unescape?, ih]
      by_cases hlt : c = '<'
      · simp [hlt, entity, unescape?, ih]
      by_cases hgt : c = '>'
      · simp [hgt, entity, unescape?, ih]
      have hentity : entity c = [c] := by simp [entity, hamp, hlt, hgt]
      rw [hentity, List.singleton_append]
      simp [unescape?, hamp, hlt, hgt, ih]

/-- An escaped text stands for the text. -/
theorem unescape?_escape (s : String) : unescape? (escape s).toList = some s.toList := by
  rw [escape, String.toList_ofList, unescape?_flatMap]

/-- A text without characters that have to be escaped is written as it is. -/
theorem escape_eq_self (h : ∀ c ∈ s.toList, c ≠ '&' ∧ c ≠ '<' ∧ c ≠ '>') : escape s = s := by
  have hentity : s.toList.flatMap entity = s.toList.flatMap fun c => [c] := by
    apply List.flatMap_congr
    intro c hc
    obtain ⟨hamp, hlt, hgt⟩ := h c hc
    simp [entity, hamp, hlt, hgt]
  rw [escape, hentity, List.flatMap_singleton', String.ofList_toList]

end Escape

/-- A text of characters that a document may contain. -/
def Allowed (s : String) : Prop := ∀ c ∈ s.toList, isAllowed c = true

instance (s : String) : Decidable (Allowed s) :=
  decidable_of_iff (s.toList.all isAllowed = true) List.all_eq_true

/-- An allowed text that does not end the value of an attribute. -/
def Quotable (s : String) : Prop := ∀ c ∈ s.toList, isAllowed c = true ∧ c ≠ '\x22'

instance (s : String) : Decidable (Quotable s) :=
  decidable_of_iff (s.toList.all (fun c => isAllowed c && c != '\x22') = true) (by
    simp [Quotable])

/-- Whether names can be those of an element and its attributes. -/
def areNames (element : String) (keys : List String) : Bool :=
  isName element.toList && keys.all (fun k => isName k.toList) && decide keys.Nodup

/-- A tag as it is written. -/
def Tag.written (t : Tag) : Role → String
  | .start => t.start
  | .alone => t.alone
  | .finish => Tag.finish t.name

/-- An attribute with its value escaped. -/
def Attribute.escaped (a : Attribute) : Attribute := { a with value := escape a.value }

/-- A tag with the values of its attributes escaped. -/
def Tag.escaped (t : Tag) : Tag := { t with attributes := t.attributes.map Attribute.escaped }

namespace Piece

/-- A piece as it is written. -/
def text (p : Piece) : String := escape p.before ++ p.tag.escaped.written p.role

/-- A piece whose texts survive being written. -/
structure Clean (p : Piece) : Prop where
  before : Allowed p.before
  named : areNames p.tag.name (p.tag.attributes.map Attribute.name) = true
  values : ∀ a ∈ p.tag.attributes, Quotable a.value
  finish : p.role = .finish → p.tag.attributes = []

variable {p : Piece} (h : p.Clean)

include h

theorem Clean.name : isName p.tag.name.toList = true := by
  have hnamed := h.named
  simp only [areNames, Bool.and_eq_true] at hnamed
  exact hnamed.1.1

theorem Clean.keys : ∀ a ∈ p.tag.attributes, isName a.name.toList = true := by
  have hnamed := h.named
  simp only [areNames, Bool.and_eq_true, List.all_eq_true] at hnamed
  exact fun a ha => hnamed.1.2 a.name (List.mem_map_of_mem ha)

theorem Clean.nodup : (p.tag.attributes.map Attribute.name).Nodup := by
  have hnamed := h.named
  simp only [areNames, Bool.and_eq_true, decide_eq_true_eq] at hnamed
  exact hnamed.2

theorem Clean.quote_not_mem : ∀ a ∈ p.tag.attributes, '\x22' ∉ a.value.toList := fun a ha hquote =>
  (h.values a ha _ hquote).2 rfl

end Piece

section Names

variable {cs : List Char}

theorem isNameChar_of_isName (h : isName cs = true) : ∀ c ∈ cs, isNameChar c = true := by
  cases cs with
  | nil => cases h
  | cons c cs =>
      rw [isName, Bool.and_eq_true, List.all_eq_true] at h
      intro d hd
      rcases List.mem_cons.mp hd with rfl | hd
      · simp [isNameChar, Char.isAlphanum, h.1]
      · exact h.2 d hd

theorem not_mem_of_isName {c : Char} (h : isName cs = true) (hc : isNameChar c = false) :
    c ∉ cs := by
  intro hmem
  rw [isNameChar_of_isName h c hmem] at hc
  cases hc

theorem isAllowed_of_isNameChar {c : Char} (h : isNameChar c = true) : isAllowed c = true := by
  have hrange : ∀ n : Nat, 45 ≤ n → n ≤ 122 → 0x20 ≤ n ∧ n ≠ 0xfffe ∧ n ≠ 0xffff := by omega
  have hbounds : 45 ≤ c.toNat ∧ c.toNat ≤ 122 := by
    simp only [isNameChar, Char.isAlphanum, Char.isAlpha, Char.isUpper, Char.isLower, Char.isDigit,
      Bool.or_eq_true, Bool.and_eq_true, decide_eq_true_eq, UInt32.le_iff_toNat_le,
      ge_iff_le] at h
    change ((((65 ≤ c.toNat ∧ c.toNat ≤ 90) ∨ (97 ≤ c.toNat ∧ c.toNat ≤ 122)) ∨
      (48 ≤ c.toNat ∧ c.toNat ≤ 57)) ∨ c = '-') at h
    rcases h with ((h | h) | h) | rfl
    · omega
    · omega
    · omega
    · decide
  simp [isAllowed, hrange c.toNat hbounds.1 hbounds.2]

/-- A name up to what cannot belong to it. -/
theorem takeWhile_isNameChar {rest : List Char} (h : isName cs = true)
    (hrest : ∀ c ∈ rest.head?, isNameChar c = false) :
    (cs ++ rest).takeWhile isNameChar = cs ∧ (cs ++ rest).dropWhile isNameChar = rest := by
  have hchars := isNameChar_of_isName h
  rw [List.takeWhile_append_of_pos hchars, List.dropWhile_append_of_pos hchars]
  cases rest with
  | nil => exact ⟨List.append_nil cs, rfl⟩
  | cons c rest => simp [hrest c rfl]

theorem key?_name (h : isName cs = true) :
    key? (' ' :: (cs ++ ['='])) = some (String.ofList cs) := by
  rw [key?, List.getLast?_concat, List.dropLast_concat, h]
  rfl

end Names

section RoundTrip

variable {p : Piece} {t : Tag}

/-- The characters of a tag between its ends. -/
def Tag.inside (t : Tag) : List Char :=
  t.name.toList ++ t.attributes.flatMap fun a => a.text.toList

theorem Tag.toList_head : t.head.toList = '<' :: t.inside := by
  rw [Tag.head, String.toList_append, String.toList_append, String.toList_join, List.flatMap_map]
  rfl

/-- The characters of the tag of a piece between its ends. -/
def Piece.inside (p : Piece) : List Char :=
  match p.role with
  | .start => p.tag.escaped.inside
  | .alone => p.tag.escaped.inside ++ ['/']
  | .finish => '/' :: p.tag.name.toList

/-- The characters of a piece up to the end of its tag. -/
def Piece.chunk (p : Piece) : List Char := (escape p.before).toList ++ '<' :: p.inside

theorem Piece.toList_text : p.text.toList = p.chunk ++ ['>'] := by
  rw [Piece.text, Piece.chunk, Piece.inside, String.toList_append]
  cases p.role
  · simp [Tag.written, Tag.start, Tag.toList_head]
  · simp [Tag.written, Tag.alone, Tag.toList_head]
  · simp [Tag.written, Tag.finish, Tag.escaped]

/-- An attribute is written as its name behind a blank and its value between quotes. -/
theorem Attribute.toList_text (a : Attribute) :
    a.text.toList =
      (' ' :: (a.name.toList ++ ['='])) ++ '\x22' :: (a.value.toList ++ ['\x22']) := by
  simp [Attribute.text]

/-- Escaped attributes are read back, with what follows them in the tag. -/
theorem attributes?_splitOn {as : List Attribute} {tail : List Char} {alone : Bool}
    (hkeys : ∀ a ∈ as, isName a.name.toList = true)
    (hvalues : ∀ a ∈ as, '\x22' ∉ a.value.toList)
    (htail : tail = if alone then ['/'] else []) :
    attributes? (((as.map Attribute.escaped).flatMap (fun a => a.text.toList) ++ tail).splitOn
      '\x22') = some (as, alone) := by
  induction as with
  | nil =>
      have hquote : '\x22' ∉ tail := by
        rw [htail]
        cases alone <;> decide
      rw [List.map_nil, List.flatMap_nil, List.nil_append, List.splitOn_eq_singleton hquote, htail]
      cases alone <;> rfl
  | cons a as ih =>
      have hname := hkeys a List.mem_cons_self
      have hkey : '\x22' ∉ ' ' :: (a.name.toList ++ ['=']) := by
        have := not_mem_of_isName hname (c := '\x22') (by decide)
        simp [this]
      have hvalue : '\x22' ∉ (escape a.value).toList :=
        quote_not_mem_escape (hvalues a List.mem_cons_self)
      have hrest := ih (fun b hb => hkeys b (List.mem_cons_of_mem a hb))
        (fun b hb => hvalues b (List.mem_cons_of_mem a hb))
      have hshape : ((a :: as).map Attribute.escaped).flatMap (fun a => a.text.toList) ++ tail =
          (' ' :: (a.name.toList ++ ['='])) ++ '\x22' :: ((escape a.value).toList ++ '\x22' ::
            ((as.map Attribute.escaped).flatMap (fun a => a.text.toList) ++ tail)) := by
        rw [List.map_cons, List.flatMap_cons, Attribute.toList_text]
        simp [Attribute.escaped]
      rw [hshape, List.splitOn_append_cons_self_of_not_mem hkey,
        List.splitOn_append_cons_self_of_not_mem hvalue, attributes?, key?_name hname,
        unescape?_escape, hrest]
      simp [String.ofList_toList]

theorem tag?_of_head {cs : List Char} (h : cs.head? ≠ some '/') :
    tag? cs = if isName (cs.takeWhile isNameChar) then do
      let (attributes, alone) ← attributes? ((cs.dropWhile isNameChar).splitOn '\x22')
      if (attributes.map Attribute.name).Nodup then
        return (if alone then .alone else .start,
          ⟨String.ofList (cs.takeWhile isNameChar), attributes⟩)
      else none
    else none := by
  unfold tag?
  split
  · exact absurd rfl h
  · rfl

theorem head?_of_isName {cs rest : List Char} (h : isName cs = true) :
    (cs ++ rest).head? ≠ some '/' := by
  cases cs with
  | nil => cases h
  | cons c cs =>
      rintro hslash
      obtain rfl := Option.some.inj hslash
      cases h

/-- A tag that begins an element, or is one without content, is read back. -/
theorem tag?_escaped {t : Tag} {tail : List Char} {alone : Bool}
    (hname : isName t.name.toList = true) (hkeys : ∀ a ∈ t.attributes, isName a.name.toList = true)
    (hvalues : ∀ a ∈ t.attributes, '\x22' ∉ a.value.toList)
    (hnodup : (t.attributes.map Attribute.name).Nodup)
    (htail : tail = if alone then ['/'] else []) :
    tag? (t.escaped.inside ++ tail) = some (if alone then .alone else .start, t) := by
  have hhead : ∀ c ∈ ((t.attributes.map Attribute.escaped).flatMap (fun a => a.text.toList) ++
      tail).head?, isNameChar c = false := by
    intro c hc
    cases hattributes : t.attributes with
    | nil =>
        rw [hattributes, List.map_nil, List.flatMap_nil, List.nil_append, htail] at hc
        cases alone with
        | true =>
            obtain rfl := Option.some.inj hc
            rfl
        | false => cases hc
    | cons a as =>
        rw [hattributes, List.map_cons, List.flatMap_cons, Attribute.toList_text] at hc
        obtain rfl := Option.some.inj hc
        rfl
  obtain ⟨htake, hdrop⟩ := takeWhile_isNameChar hname hhead
  have hinside : t.escaped.inside ++ tail = t.name.toList ++
      ((t.attributes.map Attribute.escaped).flatMap (fun a => a.text.toList) ++ tail) := by
    rw [Tag.inside, Tag.escaped, List.append_assoc]
  rw [hinside, tag?_of_head (head?_of_isName hname), htake, hdrop, if_pos hname,
    attributes?_splitOn hkeys hvalues htail]
  simp [hnodup, String.ofList_toList]

/-- The tag of a piece is read back. -/
theorem tag?_inside (h : p.Clean) : tag? p.inside = some (p.role, p.tag) := by
  rw [Piece.inside]
  cases hrole : p.role with
  | start =>
      have hread : tag? (p.tag.escaped.inside ++ []) = some (.start, p.tag) :=
        @tag?_escaped p.tag [] false h.name h.keys h.quote_not_mem h.nodup rfl
      rwa [List.append_nil] at hread
  | alone => exact @tag?_escaped p.tag ['/'] true h.name h.keys h.quote_not_mem h.nodup rfl
  | finish =>
      have hempty : p.tag = ⟨p.tag.name, []⟩ := by rw [← h.finish hrole]
      rw [tag?, if_pos h.name, String.ofList_toList, ← hempty]

/-- What holds of the characters of names, of those between names and values, and of those of
values holds of the characters of a tag. -/
theorem forall_mem_inside {f : Char → Bool} (h : p.Clean)
    (hname : ∀ c, isNameChar c = true → f c = true)
    (hbetween : [' ', '=', '\x22', '/'].all f = true)
    (hvalues : ∀ a ∈ p.tag.attributes, ∀ c ∈ (escape a.value).toList, f c = true) :
    ∀ c ∈ p.inside, f c = true := by
  rw [List.all_eq_true] at hbetween
  have hchars : ∀ c ∈ p.tag.escaped.inside, f c = true := by
    intro c hc
    rcases List.mem_append.mp hc with hc | hc
    · exact hname c (isNameChar_of_isName h.name c hc)
    · obtain ⟨b, hb, hc⟩ := List.mem_flatMap.mp hc
      obtain ⟨a, ha, rfl⟩ := List.mem_map.mp hb
      rw [Attribute.toList_text] at hc
      simp only [List.mem_append, List.mem_cons, List.not_mem_nil, or_false] at hc
      rcases hc with (rfl | hc | rfl) | rfl | hc | rfl
      · exact hbetween _ (by decide)
      · exact hname c (isNameChar_of_isName (h.keys a ha) c hc)
      · exact hbetween _ (by decide)
      · exact hbetween _ (by decide)
      · exact hvalues a ha c hc
      · exact hbetween _ (by decide)
  intro c hc
  rw [Piece.inside] at hc
  cases hrole : p.role <;> rw [hrole] at hc
  · exact hchars c hc
  · rcases List.mem_append.mp hc with hc | hc
    · exact hchars c hc
    · obtain rfl := List.mem_singleton.mp hc
      exact hbetween _ (by decide)
  · rcases List.mem_cons.mp hc with rfl | hc
    · exact hbetween _ (by decide)
    · exact hname c (isNameChar_of_isName h.name c hc)

theorem lt_not_mem_inside (h : p.Clean) : '<' ∉ p.inside := by
  intro hlt
  have hne := forall_mem_inside (f := (· != '<')) h
    (fun c hc => bne_iff_ne.mpr (by rintro rfl; cases hc)) (by decide)
    (fun a _ c hc => bne_iff_ne.mpr fun heq => lt_not_mem_escape (heq ▸ hc)) '<' hlt
  exact Bool.false_ne_true hne

theorem gt_not_mem_inside (h : p.Clean) : '>' ∉ p.inside := by
  intro hgt
  have hne := forall_mem_inside (f := (· != '>')) h
    (fun c hc => bne_iff_ne.mpr (by rintro rfl; cases hc)) (by decide)
    (fun a _ c hc => bne_iff_ne.mpr fun heq => gt_not_mem_escape (heq ▸ hc)) '>' hgt
  exact Bool.false_ne_true hne

theorem isAllowed_inside (h : p.Clean) : ∀ c ∈ p.inside, isAllowed c = true :=
  forall_mem_inside h (fun _ => isAllowed_of_isNameChar) (by decide)
    fun a ha => isAllowed_escape fun c hc => (h.values a ha c hc).1

theorem gt_not_mem_chunk (h : p.Clean) : '>' ∉ p.chunk := by
  rw [Piece.chunk, List.mem_append, List.mem_cons]
  rintro (hgt | hgt | hgt)
  · exact gt_not_mem_escape hgt
  · cases hgt
  · exact gt_not_mem_inside h hgt

/-- The characters of a piece are allowed. -/
theorem isAllowed_text (h : p.Clean) : ∀ c ∈ p.text.toList, isAllowed c = true := by
  intro c hc
  rw [Piece.toList_text, Piece.chunk] at hc
  simp only [List.mem_append, List.mem_cons, List.not_mem_nil, or_false] at hc
  rcases hc with (hc | rfl | hc) | rfl
  · exact isAllowed_escape h.before c hc
  · decide
  · exact isAllowed_inside h c hc
  · decide

/-- A piece is read back. -/
theorem piece?_chunk (h : p.Clean) : piece? p.chunk = some p := by
  rw [piece?, Piece.chunk, List.splitOn_append_cons_self_of_not_mem lt_not_mem_escape,
    List.splitOn_eq_singleton (lt_not_mem_inside h)]
  simp [unescape?_escape, tag?_inside h, String.ofList_toList]

/-- Pieces are read back in their order. -/
theorem pieces?_splitOn {ps : List Piece} (h : ∀ p ∈ ps, p.Clean) :
    pieces? ((String.join (ps.map Piece.text)).toList.splitOn '>') = some ps := by
  rw [String.toList_join, List.flatMap_map]
  induction ps with
  | nil => rfl
  | cons p ps ih =>
      have hp := h p List.mem_cons_self
      have hrest := ih fun q hq => h q (List.mem_cons_of_mem p hq)
      rw [List.flatMap_cons, Piece.toList_text, List.append_assoc, List.singleton_append,
        List.splitOn_append_cons_self_of_not_mem (gt_not_mem_chunk hp)]
      cases hchunks : (ps.flatMap fun p => p.text.toList).splitOn '>' with
      | nil =>
          rw [hchunks] at hrest
          cases hrest
      | cons chunk chunks =>
          rw [hchunks] at hrest
          rw [pieces?, piece?_chunk hp, hrest]
          rfl

/-- A document that is written piece by piece is read back. -/
theorem document?_join {ps : List Piece} (h : ∀ p ∈ ps, p.Clean)
    (hdocument : isDocument ps = true) :
    document? (String.join (ps.map Piece.text)) = some ps := by
  have hallowed : (String.join (ps.map Piece.text)).toList.all isAllowed = true := by
    rw [List.all_eq_true, String.toList_join, List.flatMap_map]
    intro c hc
    obtain ⟨p, hp, hc⟩ := List.mem_flatMap.mp hc
    exact isAllowed_text (h p hp) c hc
  rw [document?, if_pos hallowed, pieces?_splitOn h, Option.filter_some, if_pos hdocument]

end RoundTrip

section Nesting

/-- Pieces that end each element that they begin. -/
def Balanced (ps : List Piece) : Prop :=
  ∀ name outer rest, closes (name :: outer) (ps ++ rest) = closes (name :: outer) rest

theorem balanced_nil : Balanced [] := fun _ _ _ => rfl

theorem balanced_append {ps qs : List Piece} (hps : Balanced ps) (hqs : Balanced qs) :
    Balanced (ps ++ qs) := by
  intro name outer rest
  rw [List.append_assoc, hps, hqs]

theorem balanced_alone {p : Piece} (h : p.role = .alone) : Balanced [p] := by
  intro name outer rest
  rw [List.singleton_append, closes, h]

/-- An element around pieces that end each element that they begin. -/
theorem balanced_around {first last : Piece} {ps : List Piece} (hfirst : first.role = .start)
    (hps : Balanced ps) (hlast : last.role = .finish) (hname : last.tag.name = first.tag.name) :
    Balanced (first :: ps ++ [last]) := by
  intro name outer rest
  rw [List.append_assoc, List.cons_append, closes, hfirst, hps, List.singleton_append, closes,
    hlast, hname, beq_self_eq_true, Bool.true_and]

theorem balanced_flatten {groups : List (List Piece)} (h : ∀ ps ∈ groups, Balanced ps) :
    Balanced groups.flatten := by
  induction groups with
  | nil => exact balanced_nil
  | cons ps groups ih =>
      exact balanced_append (h ps List.mem_cons_self)
        (ih fun qs hqs => h qs (List.mem_cons_of_mem ps hqs))

/-- One element is a document. -/
theorem isDocument_around {first last : Piece} {ps : List Piece} (hbefore : first.before = "")
    (hfirst : first.role = .start) (hps : Balanced ps) (hlast : last.role = .finish)
    (hname : last.tag.name = first.tag.name) : isDocument (first :: ps ++ [last]) = true := by
  rw [List.cons_append, isDocument, hfirst, hps, closes, hlast, hname, beq_self_eq_true, hbefore]
  rfl

end Nesting

end PackedDrawing.Markup
