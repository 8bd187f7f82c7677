import LexTags.Json.Value
import LexTags.Lexer.Description

/-!
# Reading JSON

What is read is what is written, with some latitude: a record may have members that it does
not know, and may also be given as the array of its fields; a field that can be absent may
be missing; the name of a form may be the only key of an object whose value is `null`. The
record inside a binding is the exception, and has to be an object.

A value of the wrong shape is one failure, whatever is wrong with it. The other is a list of
intervals that is none of a set, which is noticed only after all of the list has been read.
-/

namespace LexTags.Json

inductive DecodeError where
  | shape
  | charSet (cause : CharSet.Error)
deriving DecidableEq

abbrev Decoder (α : Type) := Json → Except DecodeError α

/-- The value of a member, if there is one; of two with one key the last counts. -/
def member? (key : String) (members : List (String × Json)) : Option Json :=
  (members.reverse.find? (·.1 = key)).map Prod.snd

/-- A member is smaller than the list that it is found in. -/
theorem sizeOf_lt_of_member? {key : String} {members : List (String × Json)} {j : Json}
    (h : member? key members = some j) : sizeOf j < sizeOf members := by
  obtain ⟨e, he, rfl⟩ := Option.map_eq_some_iff.1 h
  have hmem : e ∈ members := List.mem_reverse.1 (List.mem_of_find?_eq_some he)
  have hlt := List.sizeOf_lt_of_mem hmem
  have hpair : sizeOf e.2 < sizeOf e := by
    cases e
    simp only [Prod.mk.sizeOf_spec]
    omega
  omega

/-- The fields of a record with the given names. In an array none is missing. -/
def fields? (names : List String) : Json → Option (List (Option Json))
  | obj members => some (names.map fun name => member? name members)
  | arr items => if items.length = names.length then some (items.map some) else none
  | _ => none

def required {α : Type} (decode : Decoder α) : Option Json → Except DecodeError α
  | some j => decode j
  | none => .error .shape

def nullable {α : Type} (decode : Decoder α) : Decoder (Option α)
  | null => .ok none
  | j => some <$> decode j

def optional {α : Type} (decode : Decoder α) : Option Json → Except DecodeError (Option α)
  | some j => nullable decode j
  | none => .ok none

/-- An integer from 0 to `limit`. -/
def toNat (limit : Nat) : Decoder Nat
  | num (.ofNat n) 0 => if n ≤ limit then .ok n else .error .shape
  | _ => .error .shape

def toBool : Decoder Bool
  | bool b => .ok b
  | _ => .error .shape

def toStr : Decoder String
  | str s => .ok s
  | _ => .error .shape

def toList {α : Type} (decode : Decoder α) : Decoder (List α)
  | arr items => items.mapM decode
  | _ => .error .shape

def toUnit : Decoder CodeUnit := fun j => return (← toNat 0xFFFF j).toUInt16

/-- A byte offset in a description. -/
def toOffset : Decoder UInt32 := fun j => return (← toNat maxOffset j).toUInt32

def toInterval : Decoder Interval := fun j =>
  match fields? ["first", "last"] j with
  | some [first, last] => return ⟨← required toUnit first, ← required toUnit last⟩
  | _ => .error .shape

def toCharSet : Decoder CharSet := fun j => do
  match CharSet.ofIntervals (← toList toInterval j) with
  | .ok s => return s
  | .error cause => throw (.charSet cause)

/-- A pattern, with its nodes as they are written. -/
def toPattern : Decoder Pattern
  | str "epsilon" => .ok .epsilon
  | str "eof" => .ok .eof
  | obj [("epsilon", null)] => .ok .epsilon
  | obj [("eof", null)] => .ok .eof
  | obj [("characters", set)] => return .chars (← toCharSet set)
  | obj [("alternate", arr [l, r])] => return .alt (← toPattern l) (← toPattern r)
  | obj [("sequence", arr [a, b])] => return .seq (← toPattern a) (← toPattern b)
  | obj [("repetition", p)] => return .star (← toPattern p)
  | obj [("binding", obj members)] => do
      let name ← required toStr (member? "name" members)
      match _h : member? "inner" members with
      | some p => return .bind name (← toPattern p)
      | none => throw .shape
  | _ => .error .shape
termination_by j => sizeOf j
decreasing_by
  all_goals simp only [arr.sizeOf_spec, obj.sizeOf_spec, List.cons.sizeOf_spec,
    List.nil.sizeOf_spec, Prod.mk.sizeOf_spec]
  all_goals try have := sizeOf_lt_of_member? _h
  all_goals omega

def toLocation : Decoder Location := fun j =>
  match fields? ["start", "end"] j with
  | some [start, stop] => return ⟨← required toOffset start, ← required toOffset stop⟩
  | _ => .error .shape

def toVisibility : Decoder Visibility
  | str "public" => .ok .exposed
  | str "private" => .ok .hidden
  | obj [("public", null)] => .ok .exposed
  | obj [("private", null)] => .ok .hidden
  | _ => .error .shape

def toClause : Decoder Clause := fun j =>
  match fields? ["regular", "action"] j with
  | some [pattern, action] =>
      return ⟨← required toPattern pattern, ← required toLocation action⟩
  | _ => .error .shape

def toEntry : Decoder Entry := fun j =>
  match fields? ["visibility", "name", "shortest", "return_type", "args", "clauses"] j with
  | some [visibility, name, shortest, returnType, args, clauses] =>
      return {
        visibility := ← required toVisibility visibility
        name := ← required toStr name
        shortest := ← required toBool shortest
        returnType := ← required toLocation returnType
        args? := ← optional toLocation args
        clauses := ← required (toList toClause) clauses }
  | _ => .error .shape

def toLexer : Decoder Lexer := fun j =>
  match fields? ["imports", "header", "entries", "footer"] j with
  | some [imports, header, entries, footer] =>
      return {
        imports := ← required (toList toLocation) imports
        header? := ← optional toLocation header
        entries := ← required (toList toEntry) entries
        footer? := ← optional toLocation footer }
  | _ => .error .shape

end LexTags.Json
