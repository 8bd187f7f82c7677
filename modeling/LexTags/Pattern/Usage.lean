import LexTags.Collection.OrderedSet
import LexTags.Pattern.Basic

/-!
# How names are used

The usage of a pattern says of each name it binds whether some matches leave it unbound,
whether one match can bind it more than once, and whether what it binds is always a single
unit. Each of these is a set of names in the order in which a reader meets them, a binding
before its body. The sets follow the tree: an alternation makes optional what only one side
binds, a sequence makes repeated what both sides bind, and a repetition makes everything
both.
-/

namespace LexTags

/-- What is known of the names that a pattern binds. -/
structure Usage where
  bound : OrderedSet String
  /-- Names that some matches leave unbound. -/
  optional : OrderedSet String
  /-- Names that one match can bind more than once. -/
  repeated : OrderedSet String
  /-- Names with a binding whose body has size 1. -/
  unitSized : OrderedSet String
  /-- Names with a binding whose body has another size, or none. -/
  otherSized : OrderedSet String
deriving DecidableEq

namespace Usage

/-- The usage of a pattern without names. -/
def none : Usage := ⟨.empty, .empty, .empty, .empty, .empty⟩

instance : Inhabited Usage := ⟨none⟩

/-- Names whose every binding covers one unit, so that its start tells all. -/
def charNames (u : Usage) : OrderedSet String := u.unitSized \ u.otherSized

/-- One match can bind the name more than once. -/
def isRepeated (u : Usage) (name : String) : Bool := name ∈ u.repeated

/-- The names of both operands, with the optional and repeated ones still to be added. -/
def merge (u v : Usage) : Usage where
  bound := u.bound ∪ v.bound
  optional := u.optional ∪ v.optional
  repeated := u.repeated ∪ v.repeated
  unitSized := u.unitSized ∪ v.unitSized
  otherSized := u.otherSized ∪ v.otherSized

/-- The usage of an alternation: what only one side binds becomes optional. -/
def alternation (u v : Usage) : Usage :=
  { u.merge v with optional := u.bound.symmDiff v.bound ∪ (u.optional ∪ v.optional) }

/-- The usage of a sequence: what both sides bind becomes repeated. -/
def sequence (u v : Usage) : Usage :=
  { u.merge v with repeated := (u.bound ∩ v.bound) ∪ (u.repeated ∪ v.repeated) }

/-- The usage of a repetition: every name may be missing and may come again. -/
def repetition (u : Usage) : Usage :=
  { u with optional := u.bound, repeated := u.bound }

/-- The usage of a binding around a body of the given size. A name that the body binds too
becomes repeated. -/
def binding (name : String) (size? : Option Nat) (u : Usage) : Usage where
  bound := u.bound.pushFront name
  optional := u.optional
  repeated := if name ∈ u.bound then u.repeated.insert name else u.repeated
  unitSized := if size? = some 1 then u.unitSized.insert name else u.unitSized
  otherSized := if size? = some 1 then u.otherSized else u.otherSized.insert name

end Usage

/-- How the names of a pattern are used. -/
def Pattern.usage : Pattern → Usage
  | epsilon => .none
  | eof => .none
  | chars _ => .none
  | alt l r => l.usage.alternation r.usage
  | seq a b => a.usage.sequence b.usage
  | star p => p.usage.repetition
  | bind name p => p.usage.binding name p.size?

end LexTags
