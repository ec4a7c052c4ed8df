/-!
# Markup

Tags with attributes, written on a line each. Texts that come from users are escaped: the characters
that begin a tag or an entity, and the one that ends a tag, are written as entities.
-/

namespace PackedDrawing.Markup

/-- A character in escaped text. -/
def entity (c : Char) : List Char :=
  if c = '&' then ['&', 'a', 'm', 'p', ';']
  else if c = '<' then ['&', 'l', 't', ';']
  else if c = '>' then ['&', 'g', 't', ';']
  else [c]

/-- Escaped text. -/
def escape (s : String) : String := String.ofList (s.toList.flatMap entity)

/-- An attribute of a tag with the text of its value as it is written. -/
structure Attribute where
  name : String
  value : String
  deriving DecidableEq, Repr

/-- An attribute as it is written. -/
def Attribute.text (a : Attribute) : String := " " ++ a.name ++ "=\"" ++ a.value ++ "\""

/-- A tag with its attributes. -/
structure Tag where
  name : String
  attributes : List Attribute
  deriving DecidableEq, Repr

namespace Tag

/-- A tag up to its end. -/
def head (t : Tag) : String := "<" ++ t.name ++ String.join (t.attributes.map Attribute.text)

/-- A tag that begins an element. -/
def start (t : Tag) : String := t.head ++ ">"

/-- A tag that is an element without content. -/
def alone (t : Tag) : String := t.head ++ "/>"

/-- An element with escaped content. -/
def around (t : Tag) (content : String) : String :=
  t.start ++ content ++ "</" ++ t.name ++ ">"

/-- The tag that ends an element. -/
def finish (name : String) : String := "</" ++ name ++ ">"

end Tag

theorem escape_append (s t : String) : escape (s ++ t) = escape s ++ escape t := by
  simp [escape, String.toList_append, List.flatMap_append, String.ofList_append]

end PackedDrawing.Markup
