import LexTags.Pattern.Basic

/-!
# Witnesses

Sample texts of a pattern, for testing what is made of it. Each set of units is represented
by its smallest member, and repetitions are unfolded at most twice. A limit bounds every
list on the way, so that the work stays bounded too.
-/

namespace LexTags.Pattern

/-- A sample text. -/
structure Witness where
  text : Text
  /-- The text stands for the rest of the input, so nothing can follow it. -/
  closed : Bool
deriving DecidableEq

/-- A witness continued by another. -/
def Witness.followedBy (head tail : Witness) : Witness := ⟨head.text ++ tail.text, tail.closed⟩

/-- The first `limit` continuations of the heads that are not closed, head by head. -/
def Witness.product (limit : Nat) (heads tails : List Witness) : List Witness :=
  match heads with
  | [] => []
  | head :: heads =>
      let row := if head.closed then [] else (tails.take limit).map head.followedBy
      row ++ product (limit - row.length) heads tails

/-- At most `limit` witnesses of a pattern. -/
def sample (limit : Nat) : Pattern → List Witness
  | epsilon => [⟨[], false⟩].take limit
  | eof => [⟨[], true⟩].take limit
  | chars set => (set.witness?.toList.map fun c => ⟨[c], false⟩).take limit
  | alt l r => (l.sample limit ++ r.sample limit).take limit
  | seq a b => Witness.product limit (a.sample limit) (b.sample limit)
  | star p =>
      let once := p.sample limit
      (⟨[], false⟩ :: once ++ Witness.product limit once once).take limit
  | bind _ p => p.sample limit

/-- At most `limit` texts that the pattern matches, not always distinct. -/
def witnesses (p : Pattern) (limit : Nat) : List Text :=
  (p.sample limit).map Witness.text

end LexTags.Pattern
