import LexTags.Address

/-!
# Tagged expressions

The form of a clause that a matcher is built from. Bindings have become tags, which match
the empty text and mark a boundary; sets of units have become indices into a pool; and an
action says which clause has matched once it is reached.

As with patterns, size, tags, actions and nullability are computed from the tree and kept at
its nodes, and the constructors `append`, `either` and `many` leave out what changes nothing.
Here `many` also leaves a repetition alone, since repeating it again matches no more.
-/

namespace LexTags

/-- A boundary, as it is marked for the clause of an action. -/
structure Tag where
  boundary : Boundary
  action : Nat
deriving DecidableEq

instance : ToString Tag where
  toString t := toString t.boundary

/-- A regular expression with tags and actions, over a pool of sets. -/
inductive Tagged where
  | epsilon
  /-- Matches one unit of a pooled set. -/
  | chars (id : Nat)
  /-- Matches the end of the input, whose set is pooled as well. -/
  | eof (id : Nat)
  | tag (t : Tag)
  | action (id : Nat)
  | alt (left right : Tagged)
  | seq (first second : Tagged)
  | star (body : Tagged)
with
  /-- The length of every match, if they all have the same one and it is an offset. -/
  @[computed_field] size? : Tagged → Option Nat
    | .epsilon => some 0
    | .chars _ => some 1
    | .eof _ => some 0
    | .tag _ => some 0
    | .action _ => some 0
    | .alt l r => commonSize? l.size? r.size?
    | .seq a b => totalSize? a.size? b.size?
    | .star _ => none
  @[computed_field] hasTags : Tagged → Bool
    | .epsilon => false
    | .chars _ => false
    | .eof _ => false
    | .tag _ => true
    | .action _ => false
    | .alt l r => l.hasTags || r.hasTags
    | .seq a b => a.hasTags || b.hasTags
    | .star p => p.hasTags
  @[computed_field] hasActions : Tagged → Bool
    | .epsilon => false
    | .chars _ => false
    | .eof _ => false
    | .tag _ => false
    | .action _ => true
    | .alt l r => l.hasActions || r.hasActions
    | .seq a b => a.hasActions || b.hasActions
    | .star p => p.hasActions
  /-- The empty text is matched wherever it stands. -/
  @[computed_field] nullable : Tagged → Bool
    | .epsilon => true
    | .chars _ => false
    | .eof _ => false
    | .tag _ => true
    | .action _ => true
    | .alt l r => l.nullable || r.nullable
    | .seq a b => a.nullable && b.nullable
    | .star _ => true
deriving DecidableEq, Inhabited

namespace Tagged

/-- The tags, from left to right. -/
def tags : Tagged → List Tag
  | tag t => [t]
  | alt l r => l.tags ++ r.tags
  | seq a b => a.tags ++ b.tags
  | star p => p.tags
  | _ => []

/-- One expression after the other, where the empty one adds nothing. -/
def append : Tagged → Tagged → Tagged
  | epsilon, b => b
  | a, epsilon => a
  | a, b => seq a b

instance : Append Tagged := ⟨append⟩

/-- One expression or the other, where equal ones count once. -/
def either (l r : Tagged) : Tagged :=
  if l = r then l else alt l r

/-- An expression any number of times, where the empty one and a repetition stay as they
are. -/
def many : Tagged → Tagged
  | epsilon => epsilon
  | star p => star p
  | p => star p

/-- The printed form of an expression. -/
def render : Tagged → String
  | epsilon => "ε"
  | chars id => s!"[{id}]"
  | eof id => s!"[{id}EOF]"
  | tag t => toString t
  | action id => "\x7b" ++ toString id ++ "\x7d"
  | alt l r => "(" ++ l.render ++ "|" ++ r.render ++ ")"
  | seq a b => a.render ++ b.render
  | star p => "(" ++ p.render ++ ")*"

instance : ToString Tagged := ⟨render⟩

@[simp]
theorem epsilon_append (b : Tagged) : epsilon ++ b = b := by
  cases b <;> rfl

@[simp]
theorem append_epsilon (a : Tagged) : a ++ epsilon = a := by
  cases a <;> rfl

/-- Two expressions that are not empty stand in a sequence node. -/
theorem append_of_ne {a b : Tagged} (ha : a ≠ epsilon) (hb : b ≠ epsilon) :
    a ++ b = seq a b := by
  cases a <;> cases b <;> first | rfl | contradiction

@[simp]
theorem either_self (p : Tagged) : either p p = p := if_pos rfl

theorem either_of_ne {l r : Tagged} (h : l ≠ r) : either l r = alt l r := if_neg h

/-- There are tags exactly where there is one to list. -/
theorem hasTags_eq (p : Tagged) : p.hasTags = !p.tags.isEmpty := by
  induction p with
  | alt l r hl hr => rw [hasTags, tags, hl, hr]; cases l.tags <;> simp
  | seq a b ha hb => rw [hasTags, tags, ha, hb]; cases a.tags <;> simp
  | star p ih => simp [hasTags, tags, ih]
  | _ => rfl

end Tagged

end LexTags
