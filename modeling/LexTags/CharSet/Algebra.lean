import LexTags.CharSet.Basic

/-!
# Union, intersection, difference

Each operation walks two increasing interval lists at once, and leaves an increasing list
that `pack` turns into a set. A union merges the lists by first unit and fuses what touches;
an intersection keeps the overlap of the two leading intervals and drops the one that ends
first; a difference cuts each interval at those to be removed, and goes on from the first one that
reaches beyond it. Where the empty or the full set makes the answer plain, no list is walked.
-/

namespace LexTags.CharSet

def union (s t : CharSet) : CharSet :=
  match s, t with
  | empty, _ => t
  | _, empty => s
  | all, _ | _, all => all
  | _, _ => pack (coalesce (s.intervals.merge t.intervals fun i j => i.first ≤ j.first))

/-- The intervals common to two increasing lists. -/
def commonIntervals : List Interval → List Interval → List Interval
  | [], _ => []
  | _ :: _, [] => []
  | i :: is, j :: js =>
      let rest :=
        if i.last < j.last then commonIntervals is (j :: js) else commonIntervals (i :: is) js
      if (i.overlap j).isProper then i.overlap j :: rest else rest
termination_by is js => is.length + js.length

def inter (s t : CharSet) : CharSet :=
  match s, t with
  | empty, _ | _, empty => empty
  | all, _ => t
  | _, all => s
  | _, _ => pack (commonIntervals s.intervals t.intervals)

/-- How far an interval has been cut. -/
structure Cut where
  /-- What is left of it up to here. -/
  pieces : List Interval
  /-- Where the next piece starts. This is not a unit, as it may lie behind the largest one. -/
  first : Nat
  /-- What has not been cut out yet. -/
  others : List Interval

namespace Cut

/-- The pieces, and the one up to the end of the interval. -/
def piecesTo (cut : Cut) (last : CodeUnit) : List Interval :=
  cut.pieces ++ if cut.first ≤ last.toNat then [⟨cut.first.toUInt16, last⟩] else []

/-- The cut with further pieces in front. -/
def prepend (cut : Cut) (pieces : List Interval) : Cut :=
  { cut with pieces := pieces ++ cut.pieces }

@[simp]
theorem piecesTo_prepend (cut : Cut) (pieces : List Interval) (last : CodeUnit) :
    (cut.prepend pieces).piecesTo last = pieces ++ cut.piecesTo last := List.append_assoc ..

end Cut

/-- What there is from `first` on before an interval. -/
def pieceBefore (first : Nat) (j : Interval) : List Interval :=
  if first < j.first.toNat then [⟨first.toUInt16, j.first - 1⟩] else []

/-- Cuts an increasing list out of the interval from `first` to `last`. An interval that ends
together with it is used up by this, and one that goes on is not. -/
def cutOut (last : CodeUnit) (first : Nat) : List Interval → Cut
  | [] => ⟨[], first, []⟩
  | j :: js =>
      if j.last.toNat < first then cutOut last first js
      else if last < j.first then ⟨[], first, j :: js⟩
      else if last < j.last then ⟨pieceBefore first j, j.last.toNat + 1, j :: js⟩
      else (cutOut last (j.last.toNat + 1) js).prepend (pieceBefore first j)

/-- The intervals left of an increasing list when those of another are cut out of it. -/
def remainingIntervals : List Interval → List Interval → List Interval
  | [], _ => []
  | i :: is, js =>
      let cut := cutOut i.last i.first.toNat js
      cut.piecesTo i.last ++ remainingIntervals is cut.others

def diff (s t : CharSet) : CharSet :=
  match s, t with
  | empty, _ | _, all => empty
  | _, empty => s
  | _, _ => pack (remainingIntervals s.intervals t.intervals)

def compl (s : CharSet) : CharSet := all.diff s

def isSubset (s t : CharSet) : Bool := (s.diff t).isEmpty

end LexTags.CharSet
