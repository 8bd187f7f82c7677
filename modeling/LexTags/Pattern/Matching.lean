import LexTags.Match
import LexTags.Pattern.Basic

/-!
# Matching a pattern

`matchesFrom` lists the ways in which a pattern matches a prefix of what remains of a text,
with the stretch bound to each name. The order is that of a backtracking matcher: the left
operand of an alternation first, and shorter repetitions before longer ones.

The text is an array here, for access by position.

Nothing follows the end of the input. After a first part that has reached it, a sequence
goes on only by leaving its second part out, and strict matching forbids even that.
-/

namespace LexTags.Pattern

/-- The matches of a sequence, from those of its first part and, for each place where one
stops, those of its second. -/
def followed (strict secondNullable : Bool) (heads : List (Match String Span))
    (tails : Nat → List (Match String Span)) : List (Match String Span) :=
  heads.flatMap fun head =>
    if head.reachedEof then if !strict && secondNullable then [head] else []
    else (tails head.stop).map head.followedBy

/-- The ways to match a prefix of `text` from position `i` on, repetitions being unfolded
at most twice. A pattern that is known to be longer than what remains has none. -/
def matchesFrom (text : Array CodeUnit) (strict : Bool) (p : Pattern) (i : Nat) :
    List (Match String Span) :=
  if isTooLong p.size? (text.size - i) then []
  else
    match p with
    | epsilon => [.bare i false]
    | eof => if i = text.size then [.bare i true] else []
    | chars set => if text[i]?.any set.contains then [.bare (i + 1) false] else []
    | alt l r => l.matchesFrom text strict i ++ r.matchesFrom text strict i
    | seq a b =>
        followed strict b.nullable (a.matchesFrom text strict i) (b.matchesFrom text strict)
    | star q =>
        let once := q.matchesFrom text strict i
        let twice :=
          if isTooLong (seq q q).size? (text.size - i) then []
          else followed strict q.nullable once (q.matchesFrom text strict)
        .bare i false :: once ++ twice
    | bind name q =>
        (q.matchesFrom text strict i).map fun m => m.capture name ⟨i, m.stop⟩

/-- The bindings of the first strict match of the whole text. -/
def firstMatch? (p : Pattern) (text : Text) : Option (OrderedMap String Span) :=
  firstWhole? text.length (p.matchesFrom text.toArray true 0)

end LexTags.Pattern
