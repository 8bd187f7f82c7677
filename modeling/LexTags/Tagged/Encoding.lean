import LexTags.Pattern.Usage
import LexTags.Tagged.Basic

/-!
# Encoding a pattern

A pattern becomes a tagged expression by putting tags around the body of each binding and a
pool index in place of each set. Every place gets an index of its own, equal sets included,
so the indices of an expression number its units from left to right. The end of the input
takes part in the numbering with the set that holds it alone.

A name whose bindings all cover one unit gets no closing tags.
-/

namespace LexTags

/-- The sets pooled so far, each at its index. -/
abbrev Pool := Array CharSet

/-- Adds a set to the pool, and gives its index. -/
def poolSet (set : CharSet) : StateM Pool Nat := fun pool => (pool.size, pool.push set)

/-- Tags the expression of a body as the binding of `name` in the clause of `action`. -/
def Tagged.bound (charNames : OrderedSet String) (action : Nat) (name : String)
    (body : Tagged) : Tagged :=
  let start : Tagged := .tag ⟨.opening name, action⟩
  if name ∈ charNames then start ++ body
  else start ++ (body ++ .tag ⟨.closing name, action⟩)

/-- The tagged expression of a pattern in which no binding stands inside one of its name;
`charNames` are the names that get no closing tag. -/
def Pattern.encode (charNames : OrderedSet String) (action : Nat) :
    Pattern → StateM Pool Tagged
  | epsilon => pure .epsilon
  | eof => return .eof (← poolSet .eof)
  | chars set => return .chars (← poolSet set)
  | alt l r => return .either (← l.encode charNames action) (← r.encode charNames action)
  | seq a b => return (← a.encode charNames action) ++ (← b.encode charNames action)
  | star p => return .many (← p.encode charNames action)
  | bind name p => return .bound charNames action name (← p.encode charNames action)

end LexTags
