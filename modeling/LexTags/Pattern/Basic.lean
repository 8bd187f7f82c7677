import LexTags.CharSet.Printer
import LexTags.Offset

/-!
# Patterns

A pattern is a regular expression over code units in which parts can be named. Three facts
about a pattern are computed from its tree: the length of what it matches, where all matches
have the same one; whether it names anything; and whether it matches the empty text without
asking for the end of the input. They are kept at each node, so asking for one costs nothing.

Besides the constructors, which build a node as it is, there are `append`, `either` and
`many`, which leave out what changes nothing: an empty operand of a sequence, a second equal
operand of an alternation, a repetition of the empty pattern.
-/

namespace LexTags

/-- A regular expression with named parts. -/
inductive Pattern where
  | epsilon
  /-- Matches the end of the input, and consumes nothing. -/
  | eof
  | chars (set : CharSet)
  | alt (left right : Pattern)
  | seq (first second : Pattern)
  | star (body : Pattern)
  | bind (name : String) (body : Pattern)
with
  /-- The length of every match, if they all have the same one and it is an offset. -/
  @[computed_field] size? : Pattern → Option Nat
    | .epsilon => some 0
    | .eof => some 0
    | .chars _ => some 1
    | .alt l r => commonSize? l.size? r.size?
    | .seq a b => totalSize? a.size? b.size?
    | .star _ => none
    | .bind _ p => p.size?
  @[computed_field] hasBindings : Pattern → Bool
    | .epsilon => false
    | .eof => false
    | .chars _ => false
    | .alt l r => l.hasBindings || r.hasBindings
    | .seq a b => a.hasBindings || b.hasBindings
    | .star p => p.hasBindings
    | .bind _ _ => true
  /-- The empty text is matched wherever it stands. -/
  @[computed_field] nullable : Pattern → Bool
    | .epsilon => true
    | .eof => false
    | .chars _ => false
    | .alt l r => l.nullable || r.nullable
    | .seq a b => a.nullable && b.nullable
    | .star _ => true
    | .bind _ p => p.nullable
deriving DecidableEq, Inhabited

namespace Pattern

/-- One pattern after the other, where the empty pattern adds nothing. -/
def append : Pattern → Pattern → Pattern
  | epsilon, b => b
  | a, epsilon => a
  | a, b => seq a b

instance : Append Pattern := ⟨append⟩

/-- One pattern or the other, where equal ones count once. -/
def either (l r : Pattern) : Pattern :=
  if l = r then l else alt l r

/-- A pattern any number of times, where the empty one stays as it is. -/
def many : Pattern → Pattern
  | epsilon => epsilon
  | p => star p

/-- The units of a string, one after the other. -/
def literal (s : String) : Pattern :=
  (Text.encode s).foldl (fun p c => p ++ chars (.single c)) epsilon

/-- The printed form of a pattern. -/
def render : Pattern → String
  | epsilon => "ε"
  | eof => "eof"
  | chars set => toString set
  | alt l r => "(" ++ l.render ++ "|" ++ r.render ++ ")"
  | seq a b => a.render ++ b.render
  | star p => "(" ++ p.render ++ ")*"
  | bind name p => "(" ++ p.render ++ " as " ++ name ++ ")"

instance : ToString Pattern := ⟨render⟩

@[simp]
theorem epsilon_append (b : Pattern) : epsilon ++ b = b := by
  cases b <;> rfl

@[simp]
theorem append_epsilon (a : Pattern) : a ++ epsilon = a := by
  cases a <;> rfl

/-- Two patterns that are not empty stand in a sequence node. -/
theorem append_of_ne {a b : Pattern} (ha : a ≠ epsilon) (hb : b ≠ epsilon) :
    a ++ b = seq a b := by
  cases a <;> cases b <;> first | rfl | contradiction

@[simp]
theorem either_self (p : Pattern) : either p p = p := if_pos rfl

theorem either_of_ne {l r : Pattern} (h : l ≠ r) : either l r = alt l r := if_neg h

theorem many_of_ne {p : Pattern} (h : p ≠ epsilon) : many p = star p := by
  cases p <;> first | rfl | contradiction

end Pattern

end LexTags
