import LexTags.CharSet.Basic

/-!
# Printing character sets

The empty set and the full set have a symbol each, a set of one unit is the unit, and any
other set lists its intervals between brackets.
-/

namespace LexTags.CharSet

/-- The characters printed for a set. -/
def spell : CharSet → List Char
  | empty => ['∅']
  | all => ['_']
  | single c => c.spell
  | ranges is => '[' :: [' '].intercalate (is.map Interval.spell) ++ [']']

instance : ToString CharSet where
  toString s := String.ofList s.spell

end LexTags.CharSet
