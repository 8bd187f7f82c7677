/-!
# Code units

Text is a list of 16-bit code units, one of which, `0xFFFF`, is set aside for the end of
the input. A `String` becomes text by the UTF-16 encoding. The way back is total: text may
hold half of a surrogate pair, and each half that stands alone is shown as U+FFFD.

A unit also has a spelling, used wherever a set of units is printed. Letters and digits
spell themselves, so the spelling of anything else starts with a backslash, or is `EOF`.
-/

namespace LexTags

abbrev CodeUnit := UInt16

/-- A text, as its code units in order. -/
abbrev Text := List CodeUnit

namespace CodeUnit

/-- The unit that stands for the end of the input. -/
def endOfInput : CodeUnit := 0xFFFF

/-- The one or two units that encode a character. -/
def ofChar (c : Char) : Text :=
  if c.toNat < 0x10000 then [c.toNat.toUInt16]
  else
    let rest := c.toNat - 0x10000
    [(0xD800 + rest / 0x400).toUInt16, (0xDC00 + rest % 0x400).toUInt16]

def isLeading (c : CodeUnit) : Bool := 0xD800 ≤ c && c < 0xDC00

def isTrailing (c : CodeUnit) : Bool := 0xDC00 ≤ c && c < 0xE000

/-- The character of a unit that is not part of a pair. -/
def toChar (c : CodeUnit) : Char :=
  if c.isLeading || c.isTrailing then '\uFFFD' else Char.ofNat c.toNat

/-- The character of a surrogate pair. -/
def pairChar (lead trail : CodeUnit) : Char :=
  Char.ofNat (0x10000 + (lead.toNat - 0xD800) * 0x400 + (trail.toNat - 0xDC00))

/-- The four hexadecimal digits of a unit, in lower case. -/
def hexDigits (c : CodeUnit) : List Char :=
  [c.toNat / 0x1000, c.toNat / 0x100 % 16, c.toNat / 0x10 % 16, c.toNat % 16].map Nat.digitChar

/-- How a unit is written where sets are printed. -/
def spell (c : CodeUnit) : List Char :=
  if c = endOfInput then ['E', 'O', 'F']
  else if c.toChar.isAlphanum then [c.toChar]
  else '\\' :: 'u' :: c.hexDigits.map Char.toUpper

end CodeUnit

namespace Text

/-- The UTF-16 encoding of a string. -/
def encode (s : String) : Text :=
  s.toList.flatMap CodeUnit.ofChar

/-- The characters of a text; each half of a pair that stands alone counts as U+FFFD. -/
def decodeChars : Text → List Char
  | [] => []
  | [c] => [CodeUnit.toChar c]
  | c :: d :: rest =>
      if CodeUnit.isLeading c && CodeUnit.isTrailing d then
        CodeUnit.pairChar c d :: decodeChars rest
      else CodeUnit.toChar c :: decodeChars (d :: rest)

/-- A text as a string, for messages. -/
def decode (t : Text) : String :=
  String.ofList t.decodeChars

end Text

end LexTags
