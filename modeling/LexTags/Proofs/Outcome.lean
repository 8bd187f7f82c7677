import LexTags.Proofs.Encoding
import LexTags.Proofs.Matching

/-!
# The two matchers in one vocabulary

A match of a pattern has captured spans, and a match of its encoding positions of tags. Both
come down to the same thing: where the match stops, whether it has reached the end of the
input, and which boundaries it has crossed where. In these terms the lists of the two
matchers are put together in the same way, and only the bindings differ, which are nodes on
one side and tags on the other.

Behind the end of the input both matchers stop, but by different rules: the one for patterns
does not go on at all, the other one crosses marks. The two agree on a sequence as long as
its second part is not a mark by itself.
-/

namespace LexTags

/-- What a match comes to, in terms of boundaries. -/
structure Outcome where
  stop : Nat
  reachedEof : Bool
  crossed : Boundary → Option Nat

namespace Outcome

theorem ext' {o o' : Outcome} (hstop : o.stop = o'.stop) (heof : o.reachedEof = o'.reachedEof)
    (hcrossed : ∀ b, o.crossed b = o'.crossed b) : o = o' := by
  obtain ⟨stop, eof, crossed⟩ := o
  obtain ⟨stop', eof', crossed'⟩ := o'
  obtain rfl : stop = stop' := hstop
  obtain rfl : eof = eof' := heof
  obtain rfl : crossed = crossed' := funext hcrossed
  rfl

/-- An outcome that crosses nothing. -/
def bare (stop : Nat) (reachedEof : Bool) : Outcome := ⟨stop, reachedEof, fun _ => none⟩

/-- An outcome continued by another. -/
def followedBy (head tail : Outcome) : Outcome :=
  ⟨tail.stop, tail.reachedEof, fun b => (tail.crossed b).or (head.crossed b)⟩

/-- The outcomes continued by others, where the end of the input is not behind. -/
def thenAll (heads : List Outcome) (tails : Nat → List Outcome) : List Outcome :=
  heads.flatMap fun head =>
    if head.reachedEof then [] else (tails head.stop).map head.followedBy

/-- The outcome with one more crossing at its end. -/
def cross (b : Boundary) (o : Outcome) : Outcome :=
  { o with crossed := fun b' => if b' = b then some o.stop else o.crossed b' }

/-- The outcome with a crossing before its start, which a later one replaces. -/
def after (b : Boundary) (i : Nat) (o : Outcome) : Outcome :=
  { o with crossed := fun b' => (o.crossed b').or (if b' = b then some i else none) }

end Outcome

namespace Pattern

variable {charNames : OrderedSet String} {text : Array CodeUnit} {p a b l r : Pattern} {i : Nat}

/-- The boundaries that spans have, where names in `charNames` are not closed. -/
def endOf? (charNames : OrderedSet String) (span? : String → Option Span) (b : Boundary) :
    Option Nat :=
  match b.side with
  | .opening => (span? b.name).map Span.start
  | .closing => if b.name ∈ charNames then none else (span? b.name).map Span.stop

/-- What a match of a pattern comes to. -/
def outcome (charNames : OrderedSet String) (m : Match String Span) : Outcome :=
  ⟨m.stop, m.reachedEof, endOf? charNames m.captured.get?⟩

/-- What the matches of a pattern come to, in order. -/
def outcomes (charNames : OrderedSet String) (text : Array CodeUnit) (p : Pattern) (i : Nat) :
    List Outcome :=
  (p.matchesFrom text true i).map (outcome charNames)

theorem outcome_bare (stop : Nat) (reachedEof : Bool) :
    outcome charNames (.bare stop reachedEof) = .bare stop reachedEof := by
  refine Outcome.ext' rfl rfl fun b => ?_
  show endOf? charNames _ b = none
  rw [endOf?]
  cases b.side with
  | opening => rfl
  | closing => exact ite_self _

theorem outcome_followedBy (head tail : Match String Span) :
    outcome charNames (head.followedBy tail) =
      (outcome charNames head).followedBy (outcome charNames tail) := by
  refine Outcome.ext' rfl rfl fun b => ?_
  show endOf? charNames _ b = (endOf? charNames _ b).or (endOf? charNames _ b)
  rw [endOf?, endOf?, endOf?, Match.followedBy]
  cases b.side with
  | opening => rw [OrderedMap.get?_extend, Option.map_or]
  | closing =>
      dsimp only
      split
      · rfl
      · rw [OrderedMap.get?_extend, Option.map_or]

theorem map_followed {secondNullable : Bool} {heads : List (Match String Span)}
    {tails : Nat → List (Match String Span)} :
    (followed true secondNullable heads tails).map (outcome charNames) =
      Outcome.thenAll (heads.map (outcome charNames))
        fun j => (tails j).map (outcome charNames) := by
  rw [followed, List.map_flatMap, Outcome.thenAll, List.flatMap_map]
  congr 1
  funext head
  show List.map _ (if head.reachedEof then _ else _) = if head.reachedEof then _ else _
  cases head.reachedEof with
  | true => rfl
  | false =>
      simp only [Bool.false_eq_true, if_false, List.map_map, Function.comp_def,
        outcome_followedBy]
      rfl

theorem outcomes_epsilon : epsilon.outcomes charNames text i = [.bare i false] := by
  rw [outcomes, matchesFrom]
  exact congrArg (fun o => [o]) (outcome_bare i false)

theorem outcomes_eof :
    eof.outcomes charNames text i = if i = text.size then [.bare i true] else [] := by
  have hlist : eof.matchesFrom text true i = if i = text.size then [.bare i true] else [] := by
    rw [matchesFrom]
    rfl
  rw [outcomes, hlist]
  split
  · exact congrArg (fun o => [o]) (outcome_bare i true)
  · rfl

theorem outcomes_chars {set : CharSet} :
    (chars set).outcomes charNames text i =
      if text[i]?.any set.contains then [.bare (i + 1) false] else [] := by
  have hlist : (chars set).matchesFrom text true i =
      if text[i]?.any set.contains then [.bare (i + 1) false] else [] := by
    rw [matchesFrom]
    refine ite_isTooLong fun m hm k hk => ?_
    cases hk
    split at hm
    · next hc =>
        have hlt : i < text.size := Decidable.byContradiction fun hge => by
          simp [Array.getElem?_eq_none (Nat.not_lt.1 hge)] at hc
        omega
    · cases hm
  rw [outcomes, hlist]
  split
  · exact congrArg (fun o => [o]) (outcome_bare (i + 1) false)
  · rfl

theorem outcomes_alt (hi : i ≤ text.size) :
    (alt l r).outcomes charNames text i =
      l.outcomes charNames text i ++ r.outcomes charNames text i := by
  rw [outcomes, matchesFrom_alt hi, List.map_append]
  rfl

theorem outcomes_seq (hi : i ≤ text.size) :
    (seq a b).outcomes charNames text i =
      Outcome.thenAll (a.outcomes charNames text i) (b.outcomes charNames text) := by
  rw [outcomes, matchesFrom_seq hi, map_followed]
  rfl

theorem outcomes_star (hi : i ≤ text.size) :
    (star p).outcomes charNames text i =
      .bare i false :: p.outcomes charNames text i ++
        Outcome.thenAll (p.outcomes charNames text i) (p.outcomes charNames text) := by
  rw [outcomes, matchesFrom_star hi, List.map_append, List.map_cons, map_followed,
    outcome_bare]
  rfl

end Pattern

namespace Tagged

variable {pool : Pool} {text : Array CodeUnit} {action : Nat} {p a b l r : Tagged} {i : Nat}

/-- What a match of an expression comes to, if all tags are those of one action. -/
def outcome (action : Nat) (m : Match Tag Nat) : Outcome :=
  ⟨m.stop, m.reachedEof, fun b => m.captured.get? ⟨b, action⟩⟩

/-- What the matches of an expression come to, in order. -/
def outcomes (pool : Pool) (action : Nat) (text : Array CodeUnit) (p : Tagged) (i : Nat) :
    List Outcome :=
  (p.matchesFrom pool text i false).map (outcome action)

theorem outcome_followedBy (head tail : Match Tag Nat) :
    outcome action (head.followedBy tail) =
      (outcome action head).followedBy (outcome action tail) := by
  refine Outcome.ext' rfl rfl fun b => ?_
  exact OrderedMap.get?_extend

/-- A sequence whose second part is no mark does not go on behind the end of the input. -/
theorem map_followed {heads : List (Match Tag Nat)} (hb : b.isMark = false) :
    (followed heads (b.matchesFrom pool text)).map (outcome action) =
      Outcome.thenAll (heads.map (outcome action)) (b.outcomes pool action text) := by
  rw [followed, List.map_flatMap, Outcome.thenAll, List.flatMap_map]
  congr 1
  funext head
  show List.map _ (List.map _ (b.matchesFrom pool text head.stop head.reachedEof)) =
    if head.reachedEof then _ else _
  cases head.reachedEof with
  | true => rw [matchesFrom_of_not_isMark hb]; rfl
  | false =>
      simp only [Bool.false_eq_true, if_false, List.map_map, Function.comp_def,
        outcome_followedBy, outcomes]
      rfl

theorem outcomes_epsilon : epsilon.outcomes pool action text i = [.bare i false] := by
  rw [outcomes, matchesFrom_epsilon]
  rfl

theorem outcomes_eof {id : Nat} :
    (eof id).outcomes pool action text i =
      if i = text.size then [.bare i true] else [] := by
  have hlist : (eof id).matchesFrom pool text i false =
      if i = text.size then [.bare i true] else [] := by
    rw [matchesFrom]
    rfl
  rw [outcomes, hlist]
  split <;> rfl

theorem outcomes_chars {id : Nat} {set : CharSet} (hset : pool[id]? = some set) :
    (chars id).outcomes pool action text i =
      if text[i]?.any set.contains then [.bare (i + 1) false] else [] := by
  have hlist : (chars id).matchesFrom pool text i false =
      if text[i]?.any set.contains then [.bare (i + 1) false] else [] := by
    rw [matchesFrom, Bool.false_and, if_neg Bool.false_ne_true, hset]
    cases hc : text[i]? with
    | none => exact ite_self _
    | some c =>
        refine ite_isTooLong fun m hm k hk => ?_
        cases hk
        obtain ⟨hlt, -⟩ := Array.getElem?_eq_some_iff.1 hc
        omega
  rw [outcomes, hlist]
  split <;> rfl

theorem outcomes_alt (hi : i ≤ text.size) :
    (alt l r).outcomes pool action text i =
      l.outcomes pool action text i ++ r.outcomes pool action text i := by
  rw [outcomes, matchesFrom_alt hi, List.map_append]
  rfl

theorem outcomes_seq (hb : b.isMark = false) (hi : i ≤ text.size) :
    (seq a b).outcomes pool action text i =
      Outcome.thenAll (a.outcomes pool action text i) (b.outcomes pool action text) := by
  rw [outcomes, matchesFrom_seq hi, map_followed hb]
  rfl

theorem outcomes_star (hp : p.isMark = false) (hi : i ≤ text.size) :
    (star p).outcomes pool action text i =
      .bare i false :: p.outcomes pool action text i ++
        Outcome.thenAll (p.outcomes pool action text i) (p.outcomes pool action text) := by
  rw [outcomes, matchesFrom_star hi, List.map_append, List.map_cons, map_followed hp]
  rfl

theorem get?_capture {m : Match Tag Nat} {o b : Boundary} :
    (m.capture ⟨o, action⟩ i).captured.get? ⟨b, action⟩ =
      if b = o then some i else m.captured.get? ⟨b, action⟩ := by
  rw [Match.capture, OrderedMap.get?_insert]
  by_cases hb : b = o <;> simp [hb]

/-- A tag at the end is crossed wherever the match before it stops. -/
theorem outcomes_seq_tag {o : Boundary} (hi : i ≤ text.size) :
    (seq a (tag ⟨o, action⟩)).outcomes pool action text i =
      (a.outcomes pool action text i).map (Outcome.cross o) := by
  rw [outcomes, matchesFrom_seq hi, followed, List.map_flatMap, outcomes, List.map_map,
    List.map_eq_flatMap]
  congr 1
  funext head
  rw [matchesFrom_tag]
  refine congrArg (fun x => [x]) (Outcome.ext' rfl rfl fun b => ?_)
  show (head.captured.extend _).get? ⟨b, action⟩ =
    if b = o then some head.stop else head.captured.get? ⟨b, action⟩
  rw [OrderedMap.get?_extend, get?_capture]
  by_cases hb : b = o <;> simp [hb, Match.bare]

/-- A tag at the start is crossed there. -/
theorem outcomes_tag_seq {o : Boundary} (hi : i ≤ text.size) :
    (seq (tag ⟨o, action⟩) b).outcomes pool action text i =
      (b.outcomes pool action text i).map (Outcome.after o i) := by
  rw [outcomes, matchesFrom_seq hi, matchesFrom_tag, followed, List.flatMap_singleton,
    List.map_map, outcomes, List.map_map]
  refine List.map_congr_left fun m _ => Outcome.ext' rfl rfl fun b => ?_
  show (OrderedMap.extend _ m.captured).get? ⟨b, action⟩ =
    (m.captured.get? ⟨b, action⟩).or (if b = o then some i else none)
  rw [OrderedMap.get?_extend, get?_capture]
  rfl

theorem outcomes_tag {o : Boundary} :
    (tag ⟨o, action⟩).outcomes pool action text i = [(Outcome.bare i false).cross o] := by
  rw [outcomes, matchesFrom_tag]
  refine congrArg (fun x => [x]) (Outcome.ext' rfl rfl fun b => ?_)
  exact get?_capture

theorem stop_le_of_mem_outcomes {o : Outcome} (hi : i ≤ text.size)
    (ho : o ∈ p.outcomes pool action text i) : o.stop ≤ text.size := by
  obtain ⟨m, hm, rfl⟩ := List.mem_map.1 ho
  exact (finds_of_mem_matchesFrom p hi hm).stop_le

/-- A boundary without tags is not crossed. -/
theorem crossed_eq_none {o : Outcome} (hi : i ≤ text.size)
    (ho : o ∈ p.outcomes pool action text i) {b : Boundary}
    (hb : ∀ t ∈ p.tags, t.boundary ≠ b) : o.crossed b = none := by
  obtain ⟨m, hm, rfl⟩ := List.mem_map.1 ho
  obtain ⟨log, hr, hget⟩ := finds_of_mem_matchesFrom p hi hm
  refine (hget _).trans (lastOf?_eq_none_iff.2 fun e he heb => ?_)
  exact hb _ (hr.mem_tags he) (congrArg Tag.boundary heb)

end Tagged

end LexTags
