import LexTags.Proofs.Sweep

/-!
# The leaves of an expression

The constructors that simplify merge equal sides of an alternation, drop an empty part of a
sequence and take a repetition of a repetition for one, and the passes of the layout drop tags.
None of this is seen by someone who reads the leaves from left to right: the list of leaves
forgets how the nodes are put together, and an empty expression has no leaf to begin with.

Of the leaves, those that ask the pool for a set matter by themselves. They are the units of
the expression, and no pass touches them.
-/

namespace LexTags.Tagged

/-- What stands at the leaves, from left to right; the empty expression has none. -/
def leaves : Tagged → List Tagged
  | epsilon => []
  | alt l r => l.leaves ++ r.leaves
  | seq a b => a.leaves ++ b.leaves
  | star p => p.leaves
  | p => [p]

/-- Which set of the pool a leaf asks for, and whether it is for the end of the input. -/
def unit? : Tagged → Option (Bool × Nat)
  | chars id => some (false, id)
  | eof id => some (true, id)
  | _ => none

/-- The leaves that ask for a set, from left to right. -/
def units (p : Tagged) : List (Bool × Nat) := p.leaves.filterMap unit?

variable {a b l r p q : Tagged}

theorem leaves_append : (a ++ b).leaves = a.leaves ++ b.leaves := by
  by_cases ha : a = epsilon
  · rw [ha, epsilon_append]
    rfl
  · by_cases hb : b = epsilon
    · rw [hb, append_epsilon]
      exact (List.append_nil _).symm
    · rw [append_of_ne ha hb, leaves]

theorem leaves_many : (many p).leaves = p.leaves := by
  cases p <;> rfl

theorem units_alt : (alt l r).units = l.units ++ r.units := List.filterMap_append

theorem units_seq : (seq a b).units = a.units ++ b.units := List.filterMap_append

theorem units_append : (a ++ b).units = a.units ++ b.units := by
  rw [units, leaves_append, List.filterMap_append]
  rfl

theorem units_many : (many p).units = p.units := by
  rw [units, leaves_many]
  rfl

/-- Leaving out tags leaves the units. -/
theorem units_of_pruned {gone : List Boundary} (h : Layout.Pruned gone p q) :
    q.units = p.units := by
  induction h with
  | same p => rfl
  | tag _ => rfl
  | seq _ _ iha ihb =>
      rw [units_append, iha, ihb, units_seq]

end LexTags.Tagged
