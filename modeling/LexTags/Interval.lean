import LexTags.CodeUnit

/-!
# Intervals of code units

A closed interval is given by its two ends. Nothing forces them to be in order, because
intervals are also read from outside; `isProper` tells the ones that are.
-/

namespace LexTags

/-- The units from `first` to `last`, both included. -/
structure Interval where
  first : CodeUnit
  last : CodeUnit
deriving DecidableEq, Inhabited

namespace Interval

/-- Intervals are ordered by first unit, then by last. -/
instance : Ord Interval where
  compare := compareLex (compareOn first) (compareOn last)

def unit (c : CodeUnit) : Interval := ⟨c, c⟩

def isProper (i : Interval) : Bool := i.first ≤ i.last

def contains (i : Interval) (c : CodeUnit) : Bool := i.first ≤ c && c ≤ i.last

def len (i : Interval) : Nat := i.last.toNat + 1 - i.first.toNat

/-- The next interval overlaps this one, touches it, or starts before it. The sum is taken
in `Nat`, so an interval that ends at the largest unit reaches every other. -/
def reaches (i next : Interval) : Bool := next.first.toNat ≤ i.last.toNat + 1

/-- This interval stretched to the end of the next, if that is further. -/
def extend (i next : Interval) : Interval := { i with last := max i.last next.last }

/-- What two intervals share; not proper if they share nothing. -/
def overlap (i j : Interval) : Interval := ⟨max i.first j.first, min i.last j.last⟩

/-- How an interval is written: its ends joined by a dash, or its only unit. -/
def spell (i : Interval) : List Char :=
  if i.last = i.first then i.first.spell
  else i.first.spell ++ '-' :: i.last.spell

end Interval

end LexTags
