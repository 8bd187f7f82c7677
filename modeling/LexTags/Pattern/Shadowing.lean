import LexTags.Collection.OrderedSet
import LexTags.Pattern.Basic

/-!
# Shadowed bindings

After a match a name stands for the text of its outermost binding, so a binding inside
another one of the same name is never seen. `withoutShadowed` drops such bindings and keeps
their bodies. What names nothing is left as it is, node for node; the rest of the tree is
put together again with the constructors that simplify.
-/

namespace LexTags.Pattern

/-- Drops the bindings that stand inside one of the same name. The state holds the names of the
bindings around the pattern: a binding puts its name in, and takes it out behind its body. -/
def strip (p : Pattern) : StateM (OrderedSet String) Pattern := do
  if !p.hasBindings then return p
  match p with
  | epsilon | eof | chars _ => return p
  | alt l r =>
      let l ← l.strip
      let r ← r.strip
      return either l r
  | seq a b =>
      let a ← a.strip
      let b ← b.strip
      return a ++ b
  | star q =>
      let q ← q.strip
      return many q
  | bind name q =>
      if name ∈ (← get) then q.strip
      else
        modify (·.insert name)
        let q ← q.strip
        modify (·.swapRemove name)
        return bind name q

/-- The pattern without the bindings that stand inside one of the same name. -/
def withoutShadowed (p : Pattern) : Pattern := (p.strip.run .empty).1

end LexTags.Pattern
