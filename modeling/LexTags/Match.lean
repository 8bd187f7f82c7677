import LexTags.Collection.OrderedMap
import LexTags.CodeUnit
import LexTags.Offset

/-!
# Matches

A match of a prefix of a text: what was captured on the way, where the prefix ends, and
whether the end of the input was part of it. What is captured, and under which keys, is left
to the kind of expression.

The matchers enumerate matches rather than search for one, so they have to bound
repetition: a body is taken zero times, once and twice.
-/

namespace LexTags

/-- A stretch of a text, from `start` up to but not including `stop`. -/
structure Span where
  start : Nat
  stop : Nat
deriving DecidableEq, Inhabited

/-- One way to match a prefix of a text. -/
structure Match (κ υ : Type) where
  /-- What was captured; a later capture replaces an earlier one of the same key. -/
  captured : OrderedMap κ υ
  stop : Nat
  /-- The end of the input was matched. -/
  reachedEof : Bool
deriving DecidableEq

namespace Match

variable {κ υ : Type}

def bare (stop : Nat) (reachedEof : Bool) : Match κ υ := ⟨.empty, stop, reachedEof⟩

variable [DecidableEq κ]

/-- A match continued by another, which started where it stops. -/
def followedBy (head tail : Match κ υ) : Match κ υ :=
  { tail with captured := head.captured.extend tail.captured }

def capture (m : Match κ υ) (key : κ) (value : υ) : Match κ υ :=
  { m with captured := m.captured.insert key value }

end Match

/-- What a log of captures leaves under a key: its last entry. -/
def lastOf? {κ υ : Type} [DecidableEq κ] (log : List (κ × υ)) (key : κ) : Option υ :=
  (log.reverse.find? (·.1 = key)).map Prod.snd

/-- What the first of the matches that stop at `length` captured. -/
def firstWhole? {κ υ : Type} (length : Nat) (ms : List (Match κ υ)) :
    Option (OrderedMap κ υ) :=
  (ms.find? (·.stop = length)).map Match.captured

end LexTags
