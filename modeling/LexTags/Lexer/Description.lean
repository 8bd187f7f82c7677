import LexTags.Pattern.Basic

/-!
# Lexer descriptions

A lexer has entries, and an entry has clauses: patterns with an action each. Code is not
read here. Actions, types, arguments and what surrounds the entries are given by the places
where the code stands in the description.
-/

namespace LexTags

/-- A place in the source of the description, by byte offsets. -/
structure Location where
  start : UInt32
  stop : UInt32
deriving DecidableEq, Inhabited

instance : ToString Location where
  toString l := s!"{l.start}..{l.stop}"

/-- Who can call an entry. -/
inductive Visibility where
  | exposed
  | hidden
deriving DecidableEq

instance : ToString Visibility where
  toString
    | .exposed => "public"
    | .hidden => "private"

/-- A pattern, and the place of the code to run when it has matched. -/
structure Clause where
  pattern : Pattern
  action : Location
deriving DecidableEq

/-- A rule of the lexer. Of two clauses that match the same text the first one wins. -/
structure Entry where
  name : String
  returnType : Location
  visibility : Visibility := .exposed
  /-- The shortest match counts, not the longest. -/
  shortest : Bool := false
  args? : Option Location := none
  clauses : List Clause := []
deriving DecidableEq

structure Lexer where
  imports : List Location := []
  /-- Where the code before the entries stands. -/
  header? : Option Location := none
  entries : List Entry := []
  footer? : Option Location := none
deriving DecidableEq

end LexTags
