import LexTags.Interval

/-!
# Character sets

A set of code units is kept as a list of intervals that are in increasing order and do not
touch, and the three commonest shapes have forms of their own. `pack` chooses the form, so
that a set has one value however it was built, and comparing values compares sets. Sets are
ordered like their interval lists.

Interval lists that come from outside are checked by `ofIntervals`, whose two complaints
are the two ways in which a list can fail to be of that kind.
-/

namespace LexTags

inductive CharSet where
  | empty
  | single (unit : CodeUnit)
  /-- Every unit, the end of the input included. -/
  | all
  /-- Any other set, by increasing intervals that do not touch. -/
  | ranges (intervals : List Interval)
deriving DecidableEq, Inhabited

namespace CharSet

/-- Why an interval list is not a set. -/
inductive Error where
  | invalidInterval (interval : Interval)
  /-- The interval does not start beyond the one before it. -/
  | notCanonical (interval : Interval)
deriving DecidableEq

def Error.message : Error → String
  | invalidInterval i => s!"invalid interval {bounds i}: first is greater than last"
  | notCanonical i => s!"interval {bounds i} overlaps or touches the previous one"
where
  bounds (i : Interval) : String :=
    "[0x" ++ String.ofList i.first.hexDigits ++ ", 0x" ++ String.ofList i.last.hexDigits ++ "]"

def everyUnit : Interval := ⟨0, CodeUnit.endOfInput⟩

/-- The set of a list of increasing intervals that do not touch, in its cheapest form. -/
def pack : List Interval → CharSet
  | [] => empty
  | [i] =>
      if i.first = i.last then single i.first
      else if i = everyUnit then all
      else ranges [i]
  | is => ranges is

/-- The intervals of a set, in increasing order. -/
def intervals : CharSet → List Interval
  | empty => []
  | single c => [.unit c]
  | all => [everyUnit]
  | ranges is => is

/-- Packing forgets nothing: the intervals can be read back. -/
@[simp]
theorem intervals_pack (is : List Interval) : (pack is).intervals = is := by
  match is with
  | [] | _ :: _ :: _ => rfl
  | [⟨first, last⟩] =>
      by_cases h : first = last
      · subst h
        simp [pack, intervals, Interval.unit]
      · by_cases hall : (⟨first, last⟩ : Interval) = everyUnit <;>
          simp [pack, intervals, h, hall]

/-- Sets compare like their interval lists. -/
instance : Ord CharSet where
  compare := compareOn intervals

/-- Every unit but the end of the input. -/
def ordinary : CharSet := ranges [⟨0, CodeUnit.endOfInput - 1⟩]

def eof : CharSet := single CodeUnit.endOfInput

/-- The units from `first` to `last`, which must be in order. -/
def interval (first last : CodeUnit) : Except Error CharSet :=
  let i : Interval := ⟨first, last⟩
  if i.isProper then .ok (pack [i]) else .error (.invalidInterval i)

/-- Fuses `i` with the intervals that follow, as long as one reaches the next. -/
def fuse (i : Interval) : List Interval → List Interval
  | [] => [i]
  | j :: rest => if i.reaches j then fuse (i.extend j) rest else i :: fuse j rest

/-- Fuses the intervals of a list ordered by first unit wherever one reaches the next. -/
def coalesce : List Interval → List Interval
  | [] => []
  | i :: rest => fuse i rest

/-- The set of the given units, in any order and with any repetitions. -/
def ofUnits (units : List CodeUnit) : CharSet :=
  pack (coalesce ((units.mergeSort (· ≤ ·)).map .unit))

/-- The first fault of an interval list: an improper interval, or one that its predecessor
reaches. Of the two faults in one interval the first is reported. -/
def faultIn? (previous : Option Interval) : List Interval → Option Error
  | [] => none
  | i :: rest =>
      if !i.isProper then some (.invalidInterval i)
      else if previous.any (·.reaches i) then some (.notCanonical i)
      else faultIn? (some i) rest

/-- The set of an interval list that lists proper intervals in increasing order, none
touching the next. -/
def ofIntervals (is : List Interval) : Except Error CharSet :=
  match faultIn? none is with
  | some e => .error e
  | none => .ok (pack is)

def isEmpty : CharSet → Bool
  | empty => true
  | _ => false

def contains (s : CharSet) (c : CodeUnit) : Bool :=
  s.intervals.any (·.contains c)

def cardinal (s : CharSet) : Nat :=
  s.intervals.foldr (fun i n => i.len + n) 0

/-- The smallest unit of the set. -/
def witness? (s : CharSet) : Option CodeUnit :=
  s.intervals.head?.map Interval.first

end CharSet

end LexTags
