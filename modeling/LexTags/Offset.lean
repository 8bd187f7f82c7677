/-!
# Offsets and positions

An offset inside an expression is a number of 32 bits and a position in a text one of 64.
Both are natural numbers here, and the sums that could leave the range are partial.

The numbers of sets, clauses and cells have 32 bits as well, but they come from counting, and no
count is checked. Up to `maxOffset` sets in a pool, clauses in an entry and cells in a clause this
makes no difference, since no number reaches the count that it belongs to.
-/

namespace LexTags

def maxOffset : Nat := 0xFFFFFFFF

/-- The largest position in a text. -/
def maxPosition : Nat := 0xFFFFFFFFFFFFFFFF

/-- The sum of two offsets, if it is one. -/
def addOffset? (a b : Nat) : Option Nat :=
  if a + b ≤ maxOffset then some (a + b) else none

@[simp]
theorem addOffset?_eq_some_iff {a b n : Nat} :
    addOffset? a b = some n ↔ n = a + b ∧ n ≤ maxOffset := by
  unfold addOffset?
  split <;> simp <;> omega

/-- The offset behind a part of the given size, if the size is known. -/
def advance? (offset : Nat) (size? : Option Nat) : Option Nat :=
  size?.bind (addOffset? offset)

/-- The size of an alternation: the one that both operands have. -/
def commonSize? (left right : Option Nat) : Option Nat :=
  if left = right then left else none

/-- The size of a sequence: the sum of the sizes of its operands. -/
def totalSize? (first second : Option Nat) : Option Nat :=
  first.bind fun n => advance? n second

/-- An alternation has a size only if both operands have it. -/
theorem eq_some_of_commonSize? {left right : Option Nat} {n : Nat}
    (h : commonSize? left right = some n) : left = some n ∧ right = some n := by
  unfold commonSize? at h
  split at h
  · next heq => exact ⟨h, heq ▸ h⟩
  · cases h

/-- A sequence has a size only if both operands have one, and then it is their sum. -/
theorem eq_add_of_totalSize? {first second : Option Nat} {n : Nat}
    (h : totalSize? first second = some n) :
    ∃ a b, first = some a ∧ second = some b ∧ n = a + b := by
  obtain ⟨a, ha, h⟩ := Option.bind_eq_some_iff.1 h
  obtain ⟨b, hb, h⟩ := Option.bind_eq_some_iff.1 h
  exact ⟨a, b, ha, hb, (addOffset?_eq_some_iff.1 h).1⟩

/-- Whether a part of the given size is longer than what remains. -/
def isTooLong (size? : Option Nat) (remaining : Nat) : Bool :=
  size?.any (remaining < ·)

end LexTags
