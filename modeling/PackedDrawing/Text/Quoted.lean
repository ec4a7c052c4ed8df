import PackedDrawing.Text.Hidden
/-!
# Quoted text

A text inside a list or a table is shown between quotes, with the characters that would not be
visible, the quote itself and the backslash written as escapes.

## Implementation notes

The quote is the single one unless the text holds a single quote and no double one.
-/

namespace PackedDrawing.Quoted

/-- The digit of base sixteen. -/
def hexDigit (n : Nat) : Char :=
  if n < 10 then Char.ofNat (0x30 + n) else Char.ofNat (0x61 + (n - 10))

/-- A number in base sixteen with a set number of digits. -/
def hex : Nat → Nat → List Char
  | 0, _ => []
  | count + 1, n => hex count (n / 16) ++ [hexDigit (n % 16)]

/-- A character by its number: two, four or eight digits, as many as it needs. -/
def byNumber (c : Char) : List Char :=
  let n := c.toNat
  if n < 0x100 then '\\' :: 'x' :: hex 2 n
  else if n < 0x10000 then '\\' :: 'u' :: hex 4 n
  else '\\' :: 'U' :: hex 8 n

/-- The quote a text is shown in. -/
def quote (cs : List Char) : Char :=
  if cs.contains '\x27' && !cs.contains '\x22' then '\x22' else '\x27'

/-- A character between quotes. -/
def escape (q c : Char) : List Char :=
  if c = q || c = '\\' then ['\\', c]
  else if c = '\n' then ['\\', 'n']
  else if c = '\r' then ['\\', 'r']
  else if c = '\t' then ['\\', 't']
  else if Character.isHidden c then byNumber c
  else [c]

/-- A text between quotes. -/
def render (s : String) : String :=
  let cs := s.toList
  let q := quote cs
  String.ofList (q :: cs.flatMap (escape q) ++ [q])

end PackedDrawing.Quoted
