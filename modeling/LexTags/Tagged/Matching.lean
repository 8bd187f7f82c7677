import LexTags.Match
import LexTags.Tagged.Encoding

/-!
# Matching a tagged expression

The counterpart of matching a pattern, for the expression that a matcher is built from. What
is captured is the position of each tag that was crossed; a later crossing replaces an
earlier one, in the way a cell is overwritten.

Behind the end of the input only tags and actions are crossed, one after the other: no other
expression matches there, not even an empty one.
-/

namespace LexTags.Tagged

/-- The matches of a sequence, from those of its first part and, for each place where one
stops, those of its second. -/
def followed (heads : List (Match Tag Nat)) (tails : Nat → Bool → List (Match Tag Nat)) :
    List (Match Tag Nat) :=
  heads.flatMap fun head => (tails head.stop head.reachedEof).map head.followedBy

/-- A zero-width expression, which is crossed behind the end of the input too. -/
def isMark : Tagged → Bool
  | tag _ => true
  | action _ => true
  | _ => false

/-- The ways to match a prefix of `text` from position `i` on, repetitions being unfolded
at most twice; `atEof` says that the end of the input lies behind. -/
def matchesFrom (pool : Pool) (text : Array CodeUnit) (p : Tagged) (i : Nat) (atEof : Bool) :
    List (Match Tag Nat) :=
  if isTooLong p.size? (text.size - i) then []
  else if atEof && !p.isMark then []
  else
    match p with
    | epsilon => [.bare i false]
    | chars id =>
        match pool[id]?, text[i]? with
        | some set, some c => if set.contains c then [.bare (i + 1) false] else []
        | _, _ => []
    | eof _ => if i = text.size then [.bare i true] else []
    | tag t => [(Match.bare i atEof).capture t i]
    | action _ => [.bare i atEof]
    | alt l r => l.matchesFrom pool text i atEof ++ r.matchesFrom pool text i atEof
    | seq a b => followed (a.matchesFrom pool text i atEof) (b.matchesFrom pool text)
    | star q =>
        let once := q.matchesFrom pool text i atEof
        let twice :=
          if isTooLong (seq q q).size? (text.size - i) then []
          else followed once (q.matchesFrom pool text)
        .bare i false :: once ++ twice

/-- The positions recorded by the first match of the whole text. -/
def firstMatch? (pool : Pool) (p : Tagged) (text : Text) : Option (OrderedMap Tag Nat) :=
  firstWhole? text.length (p.matchesFrom pool text.toArray 0 false)

end LexTags.Tagged
