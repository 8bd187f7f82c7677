import LexTags.Offset

/-!
# Addresses

After a match, the ends of a binding have to be found again. Each end is a boundary, and an
address says where a boundary is: a number of units after the start of the match, before its
end, or after the position that a memory cell holds. A cell holds a position only if the
matcher came past the boundary that owns it.
-/

namespace LexTags

/-- Which end of a binding. -/
inductive Side where
  | closing
  | opening
deriving DecidableEq, Ord

/-- An end of the binding of a name, whatever clause it stands in. -/
structure Boundary where
  name : String
  side : Side
deriving DecidableEq, Ord

namespace Boundary

def opening (name : String) : Boundary := ⟨name, .opening⟩

def closing (name : String) : Boundary := ⟨name, .closing⟩

instance : ToString Boundary where
  toString b :=
    match b.side with
    | .opening => "<" ++ b.name ++ ">"
    | .closing => "</" ++ b.name ++ ">"

end Boundary

/-- What an offset is counted from. -/
inductive Anchor where
  | matchStart
  /-- The end of the match; offsets count back from it. -/
  | matchEnd
  | cell (index : Nat)
deriving DecidableEq, Ord

/-- Where a boundary is found. -/
structure Address where
  anchor : Anchor
  offset : Nat
deriving DecidableEq, Ord

namespace Address

/-- The given number of units after the start of the match. -/
def afterStart (offset : Nat) : Address := ⟨.matchStart, offset⟩

/-- The given number of units before the end of the match. -/
def beforeEnd (offset : Nat) : Address := ⟨.matchEnd, offset⟩

/-- The position in a cell itself. -/
def atCell (index : Nat) : Address := ⟨.cell index, 0⟩

/-- The address `distance` units further right, if there is one. -/
def shift? (a : Address) (distance : Nat) : Option Address :=
  match a.anchor with
  | .matchEnd => if distance ≤ a.offset then some ⟨a.anchor, a.offset - distance⟩ else none
  | _ => (addOffset? a.offset distance).map fun offset => ⟨a.anchor, offset⟩

/-- The address behind a part of the given size, if both are known. -/
def behind? (a? : Option Address) (size? : Option Nat) : Option Address :=
  a?.bind fun a => size?.bind a.shift?

/-- The position an address stands for, in a match from `start` to `stop` that left `cells`.
There is none before the start of the text, and none for a cell that was not written. -/
def locate? (start stop : Nat) (cells : Nat → Option Nat) (a : Address) : Option Nat :=
  match a.anchor with
  | .matchStart => some (start + a.offset)
  | .matchEnd => if a.offset ≤ stop then some (stop - a.offset) else none
  | .cell c => (cells c).map (· + a.offset)

/-- The position an address stands for, if it is within range. -/
def resolve? (start stop : Nat) (cells : Nat → Option Nat) (a : Address) : Option Nat :=
  (a.locate? start stop cells).filter (· ≤ maxPosition)

instance : ToString Anchor where
  toString
    | .matchStart => "Start"
    | .matchEnd => "End"
    | .cell c => s!"m{c}"

instance : ToString Address where
  toString a :=
    match a.anchor, a.offset with
    | anchor, 0 => toString anchor
    | .matchEnd, offset => s!"{Anchor.matchEnd}-{offset}"
    | anchor, offset => s!"{anchor}+{offset}"

end Address

/-- Where the text of a name is found after a match. -/
structure Capture where
  /-- Some matches leave the name unbound. -/
  optional : Bool
  start : Address
  /-- Where it stops; absent for a single unit, which stops one past its start. -/
  stop? : Option Address
deriving DecidableEq

instance : ToString Capture where
  toString c :=
    let place :=
      match c.stop? with
      | some stop => s!"{c.start}..{stop}"
      | none => s!"{c.start} (char)"
    if c.optional then "optional " ++ place else place

end LexTags
