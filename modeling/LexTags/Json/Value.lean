/-!
# JSON values

The values that descriptions are read from and results are written to. An object keeps its
members in order. A number keeps the digits behind its decimal point, because a field that
holds an integer refuses `1.0`.
-/

namespace LexTags

inductive Json where
  | null
  | bool (value : Bool)
  /-- The number `digits / 10 ^ places`, written with that many decimal places. -/
  | num (digits : Int) (places : Nat)
  | str (value : String)
  | arr (items : List Json)
  | obj (members : List (String × Json))

namespace Json

instance : Inhabited Json := ⟨null⟩

def nat (n : Nat) : Json := num n 0

/-- A value that may be absent. -/
def ofOption {α : Type} (f : α → Json) : Option α → Json
  | none => null
  | some a => f a

/-- An object with the entries of a list. -/
def ofEntries {α : Type} (f : α → Json) (entries : List (String × α)) : Json :=
  obj (entries.map fun e => (e.1, f e.2))

end Json

end LexTags
