import LexTags.Proofs.EncodedTags
import LexTags.Proofs.Outcome
import LexTags.Proofs.Repeats

/-!
# The two matchers agree on a pattern and its encoding

The encoding leaves out nodes that change no match, and with them the agreement of the two
matchers would be lost: two repetitions that become one are unfolded less often, and what is
left of a sequence may cross a mark that the sequence does not. `KeepsShape` says that this
does not happen below the node that it is asked of. Then the lists of outcomes are put
together alike, node by node, and differ only where two sides of an alternation have become
one, which repeats members of the list.

A binding has two tags around its body or, for a name of one unit, a tag before a body that
is not empty. So no encoding is a mark, which is what the rules for the end of the input are
sensitive to.
-/

namespace LexTags

namespace Outcome

theorem sameFirsts_thenAll {heads heads' : List Outcome} {tails tails' : Nat → List Outcome}
    (h : SameFirsts heads heads')
    (htails : ∀ o ∈ heads, SameFirsts (tails o.stop) (tails' o.stop)) :
    SameFirsts (thenAll heads tails) (thenAll heads' tails') := by
  refine h.flatMap fun o ho => ?_
  cases o.reachedEof with
  | true => exact .refl _
  | false => exact (htails o ho).map

end Outcome

namespace Pattern

variable {charNames : OrderedSet String} {action n : Nat}

/-- The encoding from the given number on merges no nodes, except for equal sides of an
alternation: no part of a sequence and no body of a repetition becomes empty, and no body
of a repetition becomes a repetition. -/
def KeepsShape (charNames : OrderedSet String) (action : Nat) : Pattern → Nat → Prop
  | alt l r, n =>
      l.KeepsShape charNames action n ∧ r.KeepsShape charNames action (n + l.leaves.length)
  | seq a b, n =>
      (a.encodeFrom charNames action n ≠ .epsilon ∧
        b.encodeFrom charNames action (n + a.leaves.length) ≠ .epsilon) ∧
      a.KeepsShape charNames action n ∧ b.KeepsShape charNames action (n + a.leaves.length)
  | star p, n =>
      (p.encodeFrom charNames action n ≠ .epsilon ∧
        ∀ q, p.encodeFrom charNames action n ≠ .star q) ∧
      p.KeepsShape charNames action n
  | bind _ p, n => p.KeepsShape charNames action n
  | _, _ => True

/-- Every binding of a name in `charNames` covers one unit. -/
def FitsUnits (charNames : OrderedSet String) : Pattern → Prop
  | alt l r => l.FitsUnits charNames ∧ r.FitsUnits charNames
  | seq a b => a.FitsUnits charNames ∧ b.FitsUnits charNames
  | star p => p.FitsUnits charNames
  | bind name p => (name ∈ charNames → p.size? = some 1) ∧ p.FitsUnits charNames
  | _ => True

theorem fitsUnits_of_notMem (p : Pattern)
    (h : ∀ name ∈ charNames, name ∉ p.usage.otherSized) : p.FitsUnits charNames := by
  induction p with
  | epsilon | eof | chars _ => trivial
  | alt l r ihl ihr =>
      simp only [usage, Usage.alternation, Usage.merge, OrderedSet.mem_union, not_or] at h
      exact ⟨ihl fun n hn => (h n hn).1, ihr fun n hn => (h n hn).2⟩
  | seq a b iha ihb =>
      simp only [usage, Usage.sequence, Usage.merge, OrderedSet.mem_union, not_or] at h
      exact ⟨iha fun n hn => (h n hn).1, ihb fun n hn => (h n hn).2⟩
  | star p ih => exact ih h
  | bind name p ih =>
      simp only [mem_otherSized_bind, not_or, not_and, Decidable.not_not] at h
      exact ⟨fun hn => (h name hn).2 rfl, ih fun n hn => (h n hn).1⟩

theorem fitsUnits_usage (p : Pattern) : p.FitsUnits p.usage.charNames :=
  fitsUnits_of_notMem p fun _ hn => (mem_charNames_iff.1 hn).2

theorem append_eq_epsilon {a b : Tagged} (h : a ++ b = .epsilon) :
    a = .epsilon ∧ b = .epsilon := by
  by_cases ha : a = .epsilon
  · rw [ha, Tagged.epsilon_append] at h
    exact ⟨ha, h⟩
  · by_cases hb : b = .epsilon
    · rw [hb, Tagged.append_epsilon] at h
      exact absurd h ha
    · rw [Tagged.append_of_ne ha hb] at h
      cases h

theorem bound_ne_epsilon {name : String} {body : Tagged} :
    Tagged.bound charNames action name body ≠ .epsilon := by
  intro h
  have htags := @tags_bound charNames action name body
  rw [h] at htags
  cases htags

/-- A pattern whose encoding is empty has size 0, if it has a size. -/
theorem size?_of_encodeFrom_eq (p : Pattern)
    (h : p.encodeFrom charNames action n = .epsilon) {k : Nat} (hk : p.size? = some k) :
    k = 0 := by
  induction p generalizing n k with
  | epsilon => exact (Option.some.inj hk).symm
  | eof | chars _ | star _ _ => first | cases h | cases hk
  | alt l r ihl _ =>
      rw [encodeFrom] at h
      refine ihl (n := n) ?_ (eq_some_of_commonSize? hk).1
      by_cases hlr : l.encodeFrom charNames action n =
          r.encodeFrom charNames action (n + l.leaves.length)
      · rwa [← hlr, Tagged.either_self] at h
      · rw [Tagged.either_of_ne hlr] at h
        cases h
  | seq a b iha ihb =>
      obtain ⟨ha, hb⟩ := append_eq_epsilon h
      obtain ⟨j, m, hj, hm, rfl⟩ := eq_add_of_totalSize? hk
      rw [iha ha hj, ihb hb hm]
  | bind name p _ => exact absurd h bound_ne_epsilon

theorem tag_append {t : Tag} {b : Tagged} (hb : b ≠ .epsilon) :
    Tagged.tag t ++ b = .seq (.tag t) b :=
  Tagged.append_of_ne (fun h => nomatch h) hb

/-- A binding opens with its tag. What closes it is not needed for bodies of size 1. -/
theorem bound_eq_seq {name : String} {body : Tagged} (hunit : name ∈ charNames → body ≠ .epsilon) :
    Tagged.bound charNames action name body =
      .seq (.tag ⟨.opening name, action⟩)
        (if name ∈ charNames then body else body ++ .tag ⟨.closing name, action⟩) := by
  rw [Tagged.bound]
  split
  · next hname => exact tag_append (hunit hname)
  · exact tag_append fun he => Tagged.noConfusion (append_eq_epsilon he).2

/-- A body of size 1 has an encoding that is not empty. -/
theorem encodeFrom_ne_epsilon_of_size {p : Pattern} (h : p.size? = some 1) :
    p.encodeFrom charNames action n ≠ .epsilon := fun he =>
  absurd (size?_of_encodeFrom_eq p he h) Nat.one_ne_zero

theorem isMark_append {a b : Tagged} (ha : a.isMark = false) (hb : b.isMark = false) :
    (a ++ b).isMark = false := by
  by_cases hae : a = .epsilon
  · rw [hae, Tagged.epsilon_append, hb]
  · by_cases hbe : b = .epsilon
    · rw [hbe, Tagged.append_epsilon, ha]
    · rw [Tagged.append_of_ne hae hbe]
      rfl

theorem isMark_many (p : Tagged) : (Tagged.many p).isMark = false := by
  cases p <;> rfl

theorem many_of_ne_star {p : Tagged} (hne : p ≠ .epsilon) (hstar : ∀ q, p ≠ .star q) :
    Tagged.many p = .star p := by
  cases p with
  | epsilon => exact absurd rfl hne
  | star q => exact absurd rfl (hstar q)
  | _ => rfl

/-- No encoding is a mark by itself. -/
theorem isMark_encodeFrom (p : Pattern) (hp : p.FitsUnits charNames) :
    (p.encodeFrom charNames action n).isMark = false := by
  induction p generalizing n with
  | epsilon | eof | chars _ => rfl
  | alt l r ihl ihr =>
      rw [encodeFrom]
      by_cases hlr : l.encodeFrom charNames action n =
          r.encodeFrom charNames action (n + l.leaves.length)
      · rw [← hlr, Tagged.either_self]
        exact ihl hp.1
      · rw [Tagged.either_of_ne hlr]
        rfl
  | seq a b iha ihb => exact isMark_append (iha hp.1) (ihb hp.2)
  | star p _ => exact isMark_many _
  | bind name p _ =>
      rw [encodeFrom, bound_eq_seq fun hname => encodeFrom_ne_epsilon_of_size (hp.1 hname)]
      rfl

/-! ## The binding node -/

variable {pool : Pool} {text : Array CodeUnit} {i : Nat}

/-- What a binding adds to an outcome of its body. -/
def enclose (charNames : OrderedSet String) (name : String) (i : Nat) (o : Outcome) : Outcome :=
  { o with
    crossed := fun b =>
      if b.name = name then
        match b.side with
        | .opening => some i
        | .closing => if name ∈ charNames then none else some o.stop
      else o.crossed b }

theorem outcomes_bind {name : String} {p : Pattern} (hi : i ≤ text.size) :
    (bind name p).outcomes charNames text i =
      (p.outcomes charNames text i).map (enclose charNames name i) := by
  rw [outcomes, matchesFrom_bind hi, outcomes, List.map_map, List.map_map]
  refine List.map_congr_left fun m _ => Outcome.ext' rfl rfl fun b => ?_
  obtain ⟨n, side⟩ := b
  show endOf? charNames (m.captured.insert name ⟨i, m.stop⟩).get? ⟨n, side⟩ =
    if n = name then _ else endOf? charNames m.captured.get? ⟨n, side⟩
  rw [endOf?, endOf?]
  cases side with
  | opening =>
      dsimp only
      rw [OrderedMap.get?_insert]
      by_cases hn : n = name <;> simp [hn]
  | closing =>
      dsimp only
      rw [OrderedMap.get?_insert]
      by_cases hn : n = name
      · subst hn
        simp [outcome]
      · simp [hn]

/-- An encoding does not cross the boundaries of other names than those of its pattern. -/
theorem crossed_eq_none {p : Pattern} {o : Outcome} (hi : i ≤ text.size)
    (ho : o ∈ (p.encodeFrom charNames action n).outcomes pool action text i) {b : Boundary}
    (hb : b.name ∉ p.names) : o.crossed b = none := by
  refine Tagged.crossed_eq_none hi ho fun t ht hbt => hb ?_
  exact hbt ▸ (mem_tags_encodeFrom ht).2.1

theorem outcomes_append_tag {a : Tagged} {o : Boundary} (hi : i ≤ text.size) :
    (a ++ .tag ⟨o, action⟩).outcomes pool action text i =
      (a.outcomes pool action text i).map (Outcome.cross o) := by
  by_cases ha : a = .epsilon
  · rw [ha, Tagged.epsilon_append, Tagged.outcomes_tag, Tagged.outcomes_epsilon]
    rfl
  · have htag : Tagged.tag ⟨o, action⟩ ≠ .epsilon := fun h => nomatch h
    rw [Tagged.append_of_ne ha htag, Tagged.outcomes_seq_tag hi]

theorem after_eq_enclose {name : String} {o : Outcome} (hname : name ∈ charNames)
    (hopen : o.crossed (.opening name) = none) (hclose : o.crossed (.closing name) = none) :
    o.after (.opening name) i = enclose charNames name i o := by
  refine Outcome.ext' rfl rfl fun b => ?_
  obtain ⟨m, side⟩ := b
  show (o.crossed ⟨m, side⟩).or (if _ then _ else none) = if m = name then _ else _
  by_cases hm : m = name
  · subst hm
    cases side with
    | opening =>
        rw [show o.crossed ⟨m, .opening⟩ = none from hopen]
        simp [Boundary.opening]
    | closing =>
        rw [show o.crossed ⟨m, .closing⟩ = none from hclose]
        simp [Boundary.opening, hname]
  · simp [Boundary.opening, hm]

theorem after_cross_eq_enclose {name : String} {o : Outcome} (hname : name ∉ charNames)
    (hopen : o.crossed (.opening name) = none) :
    (o.cross (.closing name)).after (.opening name) i = enclose charNames name i o := by
  refine Outcome.ext' rfl rfl fun b => ?_
  obtain ⟨m, side⟩ := b
  show ((o.cross (.closing name)).crossed ⟨m, side⟩).or (if _ then _ else none) =
    if m = name then _ else _
  by_cases hm : m = name
  · subst hm
    cases side with
    | opening =>
        have hcrossed : (o.cross (.closing m)).crossed ⟨m, .opening⟩ = none :=
          (if_neg (fun h => nomatch h)).trans hopen
        rw [hcrossed]
        simp [Boundary.opening]
    | closing => simp [Outcome.cross, Boundary.opening, Boundary.closing, hname]
  · simp [Outcome.cross, Boundary.opening, Boundary.closing, hm]

/-- The tags of a binding enclose the outcomes of its body. -/
theorem outcomes_bound {name : String} {p : Pattern} (hi : i ≤ text.size)
    (hname : name ∉ p.names) (hunit : name ∈ charNames → p.size? = some 1) :
    ((bind name p).encodeFrom charNames action n).outcomes pool action text i =
      ((p.encodeFrom charNames action n).outcomes pool action text i).map
        (enclose charNames name i) := by
  have hopen : ∀ o ∈ (p.encodeFrom charNames action n).outcomes pool action text i,
      o.crossed (.opening name) = none := fun o ho => crossed_eq_none hi ho hname
  have hclose : ∀ o ∈ (p.encodeFrom charNames action n).outcomes pool action text i,
      o.crossed (.closing name) = none := fun o ho => crossed_eq_none hi ho hname
  rw [encodeFrom, bound_eq_seq fun hchar => encodeFrom_ne_epsilon_of_size (hunit hchar),
    Tagged.outcomes_tag_seq hi]
  split
  · next hchar =>
      exact List.map_congr_left fun o ho => after_eq_enclose hchar (hopen o ho) (hclose o ho)
  · next hchar =>
      rw [outcomes_append_tag hi, List.map_map]
      exact List.map_congr_left fun o ho => after_cross_eq_enclose hchar (hopen o ho)

/-! ## The whole pattern -/

/-- The matchers list the same outcomes up to repeats. -/
theorem outcomes_encodeFrom (p : Pattern) (hp : p.Unshadowed) (hfits : p.FitsUnits charNames)
    (hshape : p.KeepsShape charNames action n) (hpool : Holds pool n p.leaves)
    (hi : i ≤ text.size) :
    SameFirsts ((p.encodeFrom charNames action n).outcomes pool action text i)
      (p.outcomes charNames text i) := by
  induction p generalizing n i with
  | epsilon =>
      rw [encodeFrom, Tagged.outcomes_epsilon, outcomes_epsilon]
      exact .refl _
  | eof =>
      rw [encodeFrom, Tagged.outcomes_eof, outcomes_eof]
      exact .refl _
  | chars set =>
      have hset : pool[n]? = some set := hpool 0 set rfl
      rw [encodeFrom, Tagged.outcomes_chars hset, outcomes_chars]
      exact .refl _
  | alt l r ihl ihr =>
      have hl := ihl hp.1 hfits.1 hshape.1 hpool.left hi
      have hr := ihr hp.2 hfits.2 hshape.2 hpool.right hi
      rw [encodeFrom, outcomes_alt hi]
      by_cases hlr : l.encodeFrom charNames action n =
          r.encodeFrom charNames action (n + l.leaves.length)
      · rw [← hlr] at hr
        rw [← hlr, Tagged.either_self]
        exact (SameFirsts.append_of_subset fun _ ho => ho).symm.trans (hl.append hr)
      · rw [Tagged.either_of_ne hlr, Tagged.outcomes_alt hi]
        exact hl.append hr
  | seq a b iha ihb =>
      obtain ⟨⟨hane, hbne⟩, hashape, hbshape⟩ := hshape
      rw [encodeFrom, Tagged.append_of_ne hane hbne,
        Tagged.outcomes_seq (isMark_encodeFrom b hfits.2) hi, outcomes_seq hi]
      refine Outcome.sameFirsts_thenAll (iha hp.1 hfits.1 hashape hpool.left hi) fun o ho => ?_
      exact ihb hp.2 hfits.2 hbshape hpool.right (Tagged.stop_le_of_mem_outcomes hi ho)
  | star p ih =>
      obtain ⟨⟨hne, hstar⟩, hshape⟩ := hshape
      rw [encodeFrom, many_of_ne_star hne hstar,
        Tagged.outcomes_star (isMark_encodeFrom p hfits) hi, outcomes_star hi]
      have honce := ih hp hfits hshape hpool hi
      refine (SameFirsts.append (SameFirsts.refl [_]) honce).append ?_
      refine Outcome.sameFirsts_thenAll honce fun o ho => ?_
      exact ih hp hfits hshape hpool (Tagged.stop_le_of_mem_outcomes hi ho)
  | bind name p ih =>
      rw [outcomes_bound hi hp.1 hfits.1, outcomes_bind hi]
      exact (ih hp.2 hfits.2 hshape hpool hi).map

end Pattern

/-! ## Spans -/

/-- The span that positions of tags leave a name with, which covers one unit if the name is
in `charNames`. -/
def markedSpan? (charNames : OrderedSet String) (action : Nat) (markers : OrderedMap Tag Nat)
    (name : String) : Option Span :=
  (markers.get? ⟨.opening name, action⟩).bind fun start =>
    if name ∈ charNames then some ⟨start, start + 1⟩
    else (markers.get? ⟨.closing name, action⟩).map fun stop => ⟨start, stop⟩

/-- A match of a pattern as its end, whether it has reached the end of the input, and the
span of each name. -/
def Match.reading (m : Match String Span) : Nat × Bool × (String → Option Span) :=
  (m.stop, m.reachedEof, m.captured.get?)

/-- A match of an encoding read in the same way. -/
def Match.markedReading (charNames : OrderedSet String) (action : Nat) (m : Match Tag Nat) :
    Nat × Bool × (String → Option Span) :=
  (m.stop, m.reachedEof, markedSpan? charNames action m.captured)

/-- The span of each name, from the boundaries. -/
def Outcome.reading (charNames : OrderedSet String) (o : Outcome) :
    Nat × Bool × (String → Option Span) :=
  (o.stop, o.reachedEof, fun name =>
    (o.crossed (.opening name)).bind fun start =>
      if name ∈ charNames then some ⟨start, start + 1⟩
      else (o.crossed (.closing name)).map fun stop => ⟨start, stop⟩)

namespace Pattern

variable {text : Array CodeUnit} {p : Pattern} {i : Nat}

theorem reading_outcome {m : Match String Span} (h : Finds text p i m) :
    (outcome p.usage.charNames m).reading p.usage.charNames = m.reading := by
  refine Prod.ext rfl (Prod.ext rfl (funext fun name => ?_))
  obtain ⟨log, hr, hget⟩ := h
  show Option.bind (Option.map _ (m.captured.get? name)) _ = m.captured.get? name
  cases hspan : m.captured.get? name with
  | none => rfl
  | some span =>
      by_cases hname : name ∈ p.usage.charNames
      · rw [hget] at hspan
        have hstop := hr.stop_of_unit (mem_charNames_iff.1 hname).2 (mem_of_lastOf? hspan)
        show (if name ∈ p.usage.charNames then some _ else _) = _
        rw [if_pos hname, ← hstop]
      · show (if name ∈ p.usage.charNames then _ else
          Option.map _ (endOf? _ _ (.closing name))) = _
        rw [if_neg hname]
        show Option.map _ (if name ∈ p.usage.charNames then _ else
          Option.map _ (m.captured.get? name)) = _
        rw [if_neg hname, hspan]
        rfl

theorem map_reading (hi : i ≤ text.size) :
    (p.outcomes p.usage.charNames text i).map (Outcome.reading p.usage.charNames) =
      (p.matchesFrom text true i).map Match.reading := by
  rw [outcomes, List.map_map]
  exact List.map_congr_left fun m hm => reading_outcome (finds_of_mem_matchesFrom p hi hm)

/-- The matches of a pattern and of its encoding are the same, in the same order, once
repeated ones are dropped. -/
theorem sameFirsts_matchesFrom_encode (p : Pattern) (action : Nat) (pool : Pool)
    (hp : p.Unshadowed) (hshape : p.KeepsShape p.usage.charNames action pool.size) :
    let encoded := (p.encode p.usage.charNames action).run pool
    (∀ (text : Array CodeUnit) (i : Nat), i ≤ text.size →
      SameFirsts
        ((encoded.1.matchesFrom encoded.2 text i false).map
          (Match.markedReading p.usage.charNames action))
        ((p.matchesFrom text true i).map Match.reading)) ∧
    ∀ text : Text,
      (encoded.1.firstMatch? encoded.2 text).map (markedSpan? p.usage.charNames action) =
        (p.firstMatch? text).map OrderedMap.get? := by
  have hreadings : ∀ (text : Array CodeUnit) (i : Nat), i ≤ text.size →
      SameFirsts
        (((p.encodeFrom p.usage.charNames action pool.size).matchesFrom
          (pool ++ p.leaves.toArray) text i false).map
            (Match.markedReading p.usage.charNames action))
        ((p.matchesFrom text true i).map Match.reading) := by
    intro text i hi
    have hout := outcomes_encodeFrom p hp (fitsUnits_usage p) hshape
      (holds_append pool p.leaves) hi
    have hmap := @SameFirsts.map _ _ _ _ (Outcome.reading p.usage.charNames) hout
    rw [map_reading hi, Tagged.outcomes, List.map_map] at hmap
    exact hmap
  intro encoded
  have henc : encoded = _ := encode_run p pool
  rw [henc]
  refine ⟨hreadings, fun text => ?_⟩
  have hfind := (hreadings text.toArray 0 (Nat.zero_le _)).find? fun r => r.1 = text.length
  rw [List.find?_map, List.find?_map] at hfind
  have hspans := congrArg (Option.map fun r => r.2.2) hfind
  rw [Option.map_map, Option.map_map] at hspans
  rw [Tagged.firstMatch?, firstMatch?, firstWhole?, firstWhole?, Option.map_map, Option.map_map]
  exact hspans

/-- In `(x:a)*` the name has the span of the last round, read off either match. -/
theorem sameFirsts_matchesFrom_encode_rounds :
    let p := star (bind "x" (chars (.single 97)))
    let encoded := (p.encode p.usage.charNames 0).run #[]
    p.Unshadowed ∧ p.KeepsShape p.usage.charNames 0 0 ∧
      (encoded.1.firstMatch? encoded.2 [97, 97]).bind
        (fun markers => markedSpan? p.usage.charNames 0 markers "x") = some ⟨1, 2⟩ := by
  have hp : (star (bind "x" (chars (.single 97)))).Unshadowed := ⟨List.not_mem_nil, trivial⟩
  have hshape : (star (bind "x" (chars (.single 97)))).KeepsShape
      (star (bind "x" (chars (.single 97)))).usage.charNames 0 0 :=
    ⟨⟨bound_ne_epsilon, fun q h => nomatch h⟩, trivial⟩
  have hspans := (sameFirsts_matchesFrom_encode _ 0 #[] hp hshape).2 [97, 97]
  have hspan := congrArg (Option.bind · fun spans => spans "x") hspans
  rw [Option.bind_map] at hspan
  exact ⟨hp, hshape, hspan.trans rfl⟩

end Pattern

end LexTags
