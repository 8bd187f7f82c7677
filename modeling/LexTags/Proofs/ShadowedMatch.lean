import LexTags.Proofs.Construction
import LexTags.Proofs.Pruning

/-!
# The first match without the shadowed bindings

Dropping shadowed bindings leaves the spans of each match as they are, but not the list of
matches. A binding of the empty text can come down to nothing and its sequence to what stands
before it; and behind the end of the input strict matching goes on with nothing at all, so the
binding has held up what its sequence lets through once it is gone. Besides, equal
alternatives become one and their matches come once, which no search can tell.

So an outcome may be added, but only one that has reached the end of the input, and none is
lost. `FindsAlike` says this of two lists in terms of all searches at once, and each node of a
pattern respects it. Where a sequence goes on behind an outcome, what has reached the end of
the input is dead; so what is added below the first part of a sequence is gone again, and only
the end of the pattern matters. This is where `holdsUp` looks.
-/

namespace LexTags

namespace Outcome

/-- Every search finds the same in both lists, except that in the second one it may stop
earlier, if there are `late` ones, at an outcome that has reached the end of the input. -/
def FindsAlike (late : Prop) (xs ys : List Outcome) : Prop :=
  ∀ q : Outcome → Bool, ys.find? q = xs.find? q ∨
    late ∧ ∃ o, ys.find? q = some o ∧ o.reachedEof = true

variable {late late' : Prop} {xs ys zs xs' ys' heads heads' : List Outcome}
  {tails tails' : Nat → List Outcome}

theorem FindsAlike.of_eq (h : ∀ q, ys.find? q = xs.find? q) : FindsAlike late xs ys :=
  fun q => .inl (h q)

theorem FindsAlike.mono (hlate : late → late') (h : FindsAlike late xs ys) :
    FindsAlike late' xs ys :=
  fun q => (h q).imp_right fun ⟨hl, ho⟩ => ⟨hlate hl, ho⟩

theorem FindsAlike.eq_of_not (h : FindsAlike late xs ys) (hlate : ¬late) (q : Outcome → Bool) :
    ys.find? q = xs.find? q :=
  (h q).resolve_right fun hl => hlate hl.1

/-- What is not told apart from the second list may take its place. -/
theorem FindsAlike.trans_eq (h : FindsAlike late xs ys) (hzs : ∀ q, zs.find? q = ys.find? q) :
    FindsAlike late xs zs := by
  intro q
  rw [hzs q]
  exact h q

theorem FindsAlike.eq_trans (h : FindsAlike late ys zs) (hxs : ∀ q, ys.find? q = xs.find? q) :
    FindsAlike late xs zs := by
  intro q
  rw [← hxs q]
  exact h q

theorem FindsAlike.append (h : FindsAlike late xs ys) (h' : FindsAlike late xs' ys') :
    FindsAlike late (xs ++ xs') (ys ++ ys') := by
  intro q
  rw [List.find?_append, List.find?_append]
  rcases h q with heq | ⟨hl, o, ho, heof⟩
  · rw [heq]
    cases xs.find? q with
    | none => exact h' q
    | some o => exact .inl rfl
  · rw [ho]
    exact .inr ⟨hl, o, rfl, heof⟩

theorem FindsAlike.map {f : Outcome → Outcome} (hf : ∀ o, (f o).reachedEof = o.reachedEof)
    (h : FindsAlike late xs ys) : FindsAlike late (xs.map f) (ys.map f) := by
  intro q
  rw [List.find?_map, List.find?_map]
  rcases h (q ∘ f) with heq | ⟨hl, o, ho, heof⟩
  · exact .inl (congrArg _ heq)
  · exact .inr ⟨hl, f o, congrArg _ ho, (hf o).trans heof⟩

/-- No outcome is lost. -/
theorem FindsAlike.isSome (h : FindsAlike late xs ys) {q : Outcome → Bool}
    (hsome : (xs.find? q).isSome) : (ys.find? q).isSome := by
  rcases h q with heq | ⟨_, o, ho, _⟩
  · rw [heq, hsome]
  · rw [ho]
    rfl

/-- A search that does not stop at the end of the input finds what it did before. -/
theorem FindsAlike.find? (h : FindsAlike late xs ys) {q : Outcome → Bool}
    (hfirst : ∀ o, ys.find? q = some o → o.reachedEof = false) : ys.find? q = xs.find? q := by
  refine (h q).resolve_right fun ⟨_, o, ho, heof⟩ => ?_
  rw [hfirst o ho] at heof
  cases heof

/-- Among the outcomes that have not reached the end of the input nothing is added. -/
theorem FindsAlike.pending (h : FindsAlike late xs ys) (q : Outcome → Bool) :
    (pending ys).find? q = (pending xs).find? q := by
  rw [Outcome.pending, Outcome.pending, List.find?_filter, List.find?_filter]
  refine h.find? fun o ho => ?_
  have hq := List.find?_some ho
  simp only [Bool.not_eq_true', decide_eq_true_eq] at hq
  exact hq.1

/-- What a list has beyond its pending outcomes has reached the end of the input. -/
theorem FindsAlike.of_pending (h : ∀ o ∈ ys, o.reachedEof = true → late) :
    FindsAlike late (Outcome.pending ys) ys := by
  intro q
  rw [Outcome.pending]
  induction ys with
  | nil => exact .inl rfl
  | cons o ys ih =>
      have hrest := ih fun o' ho' => h o' (List.mem_cons_of_mem _ ho')
      cases hq : q o with
      | false =>
          rw [List.find?_cons_of_neg (by simp [hq])]
          cases ho : o.reachedEof with
          | true => rwa [List.filter_cons_of_neg (by simp [ho])]
          | false =>
              rwa [List.filter_cons_of_pos (by simp [ho]), List.find?_cons_of_neg (by simp [hq])]
      | true =>
          rw [List.find?_cons_of_pos hq]
          cases ho : o.reachedEof with
          | true => exact .inr ⟨h o List.mem_cons_self ho, o, rfl, ho⟩
          | false =>
              rw [List.filter_cons_of_pos (by simp [ho]), List.find?_cons_of_pos hq]
              exact .inl rfl

/-- Lists in which every search finds the same may be put together from the same parts. -/
theorem find?_flatMap_congr (h : ∀ q, ys.find? q = xs.find? q) (f : Outcome → List Outcome)
    (q : Outcome → Bool) : (ys.flatMap f).find? q = (xs.flatMap f).find? q := by
  have hfind : ∀ zs : List Outcome, (zs.flatMap f).find? q =
      (zs.find? fun o => ((f o).find? q).isSome).bind fun o => (f o).find? q := by
    intro zs
    induction zs with
    | nil => rfl
    | cons o zs ih =>
        rw [List.flatMap_cons, List.find?_append, ih, List.find?_cons]
        cases hfo : (f o).find? q with
        | none => rfl
        | some _ => exact hfo.symm
  rw [hfind, hfind, h]

theorem FindsAlike.thenAll_tails
    (htails : ∀ o ∈ heads, FindsAlike late (tails o.stop) (tails' o.stop)) :
    FindsAlike late (thenAll heads tails) (thenAll heads tails') := by
  induction heads with
  | nil => exact .of_eq fun _ => rfl
  | cons o heads ih =>
      refine FindsAlike.append ?_ (ih fun o' ho' => htails o' (List.mem_cons_of_mem _ ho'))
      show FindsAlike late (if o.reachedEof then _ else _) (if o.reachedEof then _ else _)
      split
      · exact .of_eq fun _ => rfl
      · exact (htails o List.mem_cons_self).map fun _ => rfl

theorem exists_of_mem_thenAll {o : Outcome} (h : o ∈ thenAll heads tails) :
    ∃ head ∈ heads, ∃ tail ∈ tails head.stop, tail.reachedEof = o.reachedEof := by
  obtain ⟨head, hhead, ho⟩ := List.mem_flatMap.1 h
  split at ho
  · cases ho
  · obtain ⟨tail, htail, rfl⟩ := List.mem_map.1 ho
    exact ⟨head, hhead, tail, htail, rfl⟩

/-- What is added among the heads is not continued, so only what is added behind them counts. -/
theorem FindsAlike.thenAll (h : FindsAlike late' heads heads')
    (htails : ∀ o ∈ heads', FindsAlike late (tails o.stop) (tails' o.stop)) :
    FindsAlike late (thenAll heads tails) (thenAll heads' tails') := by
  refine (FindsAlike.thenAll_tails htails).eq_trans fun q => ?_
  rw [← thenAll_pending, ← @thenAll_pending heads]
  exact find?_flatMap_congr h.pending _ q

end Outcome

open Outcome (FindsAlike)

namespace Pattern

variable {charNames : OrderedSet String} {text : Array CodeUnit} {p a b l r : Pattern}
  {name : String} {enclosing : List String} {i : Nat}

/-! ## Outcomes of what the simplifying constructors build -/

theorem stop_le_of_mem_outcomes {o : Outcome} (hi : i ≤ text.size)
    (ho : o ∈ p.outcomes charNames text i) : o.stop ≤ text.size := by
  obtain ⟨m, hm, rfl⟩ := List.mem_map.1 ho
  exact (finds_of_mem_matchesFrom p hi hm).stop_le

theorem find?_outcomes_either (hi : i ≤ text.size) (q : Outcome → Bool) :
    ((either l r).outcomes charNames text i).find? q =
      (l.outcomes charNames text i ++ r.outcomes charNames text i).find? q := by
  by_cases hlr : l = r
  · rw [hlr, either_self, List.find?_append, Option.or_self]
  · rw [either_of_ne hlr, outcomes_alt hi]

theorem outcomes_append (hi : i ≤ text.size) (hb : b ≠ epsilon) :
    (a ++ b).outcomes charNames text i =
      Outcome.thenAll (a.outcomes charNames text i) (b.outcomes charNames text) := by
  by_cases ha : a = epsilon
  · rw [ha, epsilon_append, outcomes_epsilon, Outcome.thenAll_bare]
  · rw [append_of_ne ha hb, outcomes_seq hi]

theorem find?_outcomes_many (hi : i ≤ text.size) (q : Outcome → Bool) :
    ((many p).outcomes charNames text i).find? q =
      ((star p).outcomes charNames text i).find? q := by
  by_cases hp : p = epsilon
  · have hrounds : ([Outcome.bare i false] ++ [Outcome.bare i false] ++
        [Outcome.bare i false]).find? q = [Outcome.bare i false].find? q := by
      rw [List.find?_append, List.find?_append, Option.or_self, Option.or_self]
    rw [hp, outcomes_star hi, outcomes_epsilon, Outcome.thenAll_bare, outcomes_epsilon]
    exact (congrArg (List.find? q) outcomes_epsilon).trans hrounds.symm
  · rw [many_of_ne hp]

/-! ## The end of a pattern -/

/-- Some strict match may end with the end of the input behind it. -/
def reachesEof : Pattern → Bool
  | eof => true
  | alt l r => l.reachesEof || r.reachesEof
  | seq _ b => b.reachesEof
  | star p => p.reachesEof
  | bind _ p => p.reachesEof
  | _ => false

/-- At the end of the pattern, something stands behind what can reach the end of the input,
and comes down to nothing when bindings of enclosing names are dropped. -/
def holdsUp (enclosing : List String) : Pattern → Bool
  | alt l r => l.holdsUp enclosing || r.holdsUp enclosing
  | seq a b =>
      if (seq a b).hasBindings ∧ b.stripUnder enclosing = epsilon then
        (a.stripUnder enclosing).reachesEof
      else b.holdsUp enclosing
  | star p => p.holdsUp enclosing
  | bind name p =>
      if name ∈ enclosing then p.holdsUp enclosing else p.holdsUp (name :: enclosing)
  | _ => false

theorem reachesEof_of_mem_outcomes (hi : i ≤ text.size) {o : Outcome}
    (ho : o ∈ p.outcomes charNames text i) (heof : o.reachedEof = true) :
    p.reachesEof = true := by
  induction p generalizing i o with
  | epsilon =>
      rw [outcomes_epsilon] at ho
      obtain rfl := List.mem_singleton.1 ho
      cases heof
  | eof => rfl
  | chars set =>
      rw [outcomes_chars] at ho
      split at ho
      · obtain rfl := List.mem_singleton.1 ho
        cases heof
      · cases ho
  | alt l r ihl ihr =>
      rw [outcomes_alt hi] at ho
      rw [reachesEof, Bool.or_eq_true]
      exact (List.mem_append.1 ho).imp (ihl hi · heof) (ihr hi · heof)
  | seq a b _ ihb =>
      rw [outcomes_seq hi] at ho
      obtain ⟨head, hhead, tail, htail, htaileof⟩ := Outcome.exists_of_mem_thenAll ho
      exact ihb (stop_le_of_mem_outcomes hi hhead) htail (htaileof.trans heof)
  | star p ih =>
      rw [outcomes_star hi] at ho
      rcases List.mem_append.1 ho with hhead | htwice
      · rcases List.mem_cons.1 hhead with rfl | honce
        · cases heof
        · exact ih hi honce heof
      · obtain ⟨head, hhead, tail, htail, htaileof⟩ := Outcome.exists_of_mem_thenAll htwice
        exact ih (stop_le_of_mem_outcomes hi hhead) htail (htaileof.trans heof)
  | bind name p ih =>
      rw [outcomes_bind hi] at ho
      obtain ⟨inner, hinner, rfl⟩ := List.mem_map.1 ho
      exact ih hi hinner heof

/-! ## Outside of the enclosing bindings -/

/-- The boundaries of the names. -/
def endsOf (names : List String) : List Boundary :=
  names.flatMap fun n => [.opening n, .closing n]

theorem mem_endsOf_iff {names : List String} {e : Boundary} :
    e ∈ endsOf names ↔ e.name ∈ names := by
  obtain ⟨n, side⟩ := e
  rw [endsOf, List.mem_flatMap]
  constructor
  · rintro ⟨m, hm, he⟩
    rcases List.mem_pair.1 he with heq | heq
    · cases heq
      exact hm
    · cases heq
      exact hm
  · intro hn
    cases side with
    | opening => exact ⟨n, hn, List.mem_cons_self⟩
    | closing => exact ⟨n, hn, List.mem_cons_of_mem _ List.mem_cons_self⟩

/-- The outcomes without what is bound to names in `enclosing`, which enclosing bindings
replace. -/
def outcomesOutside (enclosing : List String) (text : Array CodeUnit) (p : Pattern) (i : Nat) :
    List Outcome :=
  (p.outcomes .empty text i).map (Outcome.without (endsOf enclosing))

theorem map_without_bare {gone : List Boundary} {eof : Bool} :
    [Outcome.bare i eof].map (Outcome.without gone) = [.bare i eof] :=
  congrArg (fun o => [o]) (Outcome.without_eq_self fun _ _ => rfl)

theorem without_enclose_of_mem {o : Outcome} (hname : name ∈ enclosing) :
    (enclose .empty name i o).without (endsOf enclosing) = o.without (endsOf enclosing) := by
  refine Outcome.ext' rfl rfl fun e => ?_
  show (if e ∈ endsOf enclosing then none else if e.name = name then _ else o.crossed e) =
    if e ∈ endsOf enclosing then none else o.crossed e
  split
  · rfl
  · next he =>
      have hne : e.name ≠ name := fun heq => he (mem_endsOf_iff.2 (heq ▸ hname))
      rw [if_neg hne]

theorem without_enclose_of_notMem {o : Outcome} (hname : name ∉ enclosing) :
    (enclose .empty name i o).without (endsOf enclosing) =
      enclose .empty name i (o.without (endsOf (name :: enclosing))) := by
  refine Outcome.ext' rfl rfl fun e => ?_
  show (if e ∈ endsOf enclosing then none else if e.name = name then _ else o.crossed e) =
    if e.name = name then _ else if e ∈ endsOf (name :: enclosing) then none else o.crossed e
  simp only [mem_endsOf_iff]
  by_cases he : e.name = name
  · rw [if_neg (he ▸ hname), if_pos he, if_pos he]
    rfl
  · have hcons : e.name ∈ name :: enclosing ↔ e.name ∈ enclosing :=
      List.mem_cons.trans (or_iff_right he)
    simp only [if_neg he, hcons]

theorem outcomesOutside_bind (hi : i ≤ text.size) :
    outcomesOutside enclosing text (bind name p) i =
      if name ∈ enclosing then outcomesOutside enclosing text p i
      else (outcomesOutside (name :: enclosing) text p i).map (enclose .empty name i) := by
  rw [outcomesOutside, outcomes_bind hi, List.map_map]
  split
  · next h => exact List.map_congr_left fun _ _ => without_enclose_of_mem h
  · next h =>
      rw [outcomesOutside, List.map_map]
      exact List.map_congr_left fun _ _ => without_enclose_of_notMem h

theorem outcomesOutside_alt (hi : i ≤ text.size) :
    outcomesOutside enclosing text (alt l r) i =
      outcomesOutside enclosing text l i ++ outcomesOutside enclosing text r i := by
  rw [outcomesOutside, outcomes_alt hi, List.map_append]
  rfl

theorem outcomesOutside_seq (hi : i ≤ text.size) :
    outcomesOutside enclosing text (seq a b) i =
      Outcome.thenAll (outcomesOutside enclosing text a i)
        (outcomesOutside enclosing text b) := by
  rw [outcomesOutside, outcomes_seq hi, Outcome.map_without_thenAll]
  rfl

theorem outcomesOutside_star (hi : i ≤ text.size) :
    outcomesOutside enclosing text (star p) i =
      .bare i false :: outcomesOutside enclosing text p i ++
        Outcome.thenAll (outcomesOutside enclosing text p i)
          (outcomesOutside enclosing text p) := by
  rw [outcomesOutside, outcomes_star hi, List.map_append, List.map_cons,
    Outcome.map_without_thenAll, Outcome.without_eq_self fun _ _ => rfl]
  rfl

/-! ## One node after the other -/

theorem find?_outcomes_stripUnder_alt (hi : i ≤ text.size) (q : Outcome → Bool) :
    (((alt l r).stripUnder enclosing).outcomes charNames text i).find? q =
      ((l.stripUnder enclosing).outcomes charNames text i ++
        (r.stripUnder enclosing).outcomes charNames text i).find? q := by
  rw [stripUnder]
  split
  · exact find?_outcomes_either hi q
  · next h =>
      rw [hasBindings, Bool.or_eq_true, not_or, Bool.not_eq_true, Bool.not_eq_true] at h
      rw [stripUnder_of_not_hasBindings h.1, stripUnder_of_not_hasBindings h.2, outcomes_alt hi]

theorem find?_outcomes_stripUnder_star (hi : i ≤ text.size) (q : Outcome → Bool) :
    (((star p).stripUnder enclosing).outcomes charNames text i).find? q =
      ((star (p.stripUnder enclosing)).outcomes charNames text i).find? q := by
  rw [stripUnder]
  split
  · exact find?_outcomes_many hi q
  · next h => rw [stripUnder_of_not_hasBindings (Bool.eq_false_iff.2 h)]

/-- A sequence stays one unless its second part comes down to nothing. -/
theorem outcomes_stripUnder_seq (hi : i ≤ text.size)
    (h : ¬((seq a b).hasBindings ∧ b.stripUnder enclosing = epsilon)) :
    ((seq a b).stripUnder enclosing).outcomes charNames text i =
      Outcome.thenAll ((a.stripUnder enclosing).outcomes charNames text i)
        ((b.stripUnder enclosing).outcomes charNames text) := by
  rw [stripUnder]
  split
  · next hb => exact outcomes_append hi fun he => h ⟨hb, he⟩
  · next hb =>
      rw [hasBindings, Bool.or_eq_true, not_or, Bool.not_eq_true, Bool.not_eq_true] at hb
      rw [stripUnder_of_not_hasBindings hb.1, stripUnder_of_not_hasBindings hb.2, outcomes_seq hi]

/-- Behind a part that has come down to nothing stands what has not reached the end of the
input; that is all that the sequence has let through. -/
theorem find?_outcomesOutside_seq (hi : i ≤ text.size)
    (ha : FindsAlike (a.holdsUp enclosing = true) (outcomesOutside enclosing text a i)
      ((a.stripUnder enclosing).outcomes .empty text i))
    (hb : ∀ j ≤ text.size, FindsAlike (b.holdsUp enclosing = true)
      (outcomesOutside enclosing text b j) (epsilon.outcomes .empty text j))
    (q : Outcome → Bool) :
    (Outcome.pending ((a.stripUnder enclosing).outcomes .empty text i)).find? q =
      (outcomesOutside enclosing text (seq a b) i).find? q := by
  have htails : ∀ o ∈ (a.stripUnder enclosing).outcomes .empty text i,
      FindsAlike False (outcomesOutside enclosing text b o.stop) [.bare o.stop false] := by
    intro o ho
    have hrest := hb o.stop (stop_le_of_mem_outcomes hi ho)
    rw [outcomes_epsilon] at hrest
    refine .of_eq fun q => hrest.find? fun o' ho' => ?_
    rw [List.mem_singleton.1 (List.mem_of_find?_eq_some ho')]
    rfl
  have hall : FindsAlike False
      (Outcome.thenAll (outcomesOutside enclosing text a i) (outcomesOutside enclosing text b))
      (Outcome.thenAll ((a.stripUnder enclosing).outcomes .empty text i)
        fun j => [.bare j false]) := ha.thenAll htails
  rw [← outcomesOutside_seq hi, ← Outcome.thenAll_pending, Outcome.thenAll_pending_bare] at hall
  exact hall.eq_of_not id q

/-- What is bound outside of the enclosing bindings is found alike once the shadowed bindings
are dropped. -/
theorem findsAlike_stripUnder (p : Pattern) (enclosing : List String) (hi : i ≤ text.size) :
    FindsAlike (p.holdsUp enclosing = true) (outcomesOutside enclosing text p i)
      ((p.stripUnder enclosing).outcomes .empty text i) := by
  induction p generalizing enclosing i with
  | epsilon =>
      rw [stripUnder_of_not_hasBindings rfl, outcomesOutside, outcomes_epsilon, map_without_bare]
      exact .of_eq fun _ => rfl
  | eof =>
      rw [stripUnder_of_not_hasBindings rfl, outcomesOutside, outcomes_eof]
      split
      · rw [map_without_bare]
        exact .of_eq fun _ => rfl
      · exact .of_eq fun _ => rfl
  | chars set =>
      rw [stripUnder_of_not_hasBindings rfl, outcomesOutside, outcomes_chars]
      split
      · rw [map_without_bare]
        exact .of_eq fun _ => rfl
      · exact .of_eq fun _ => rfl
  | alt l r ihl ihr =>
      have hl := (ihl enclosing hi).mono (Or.inl (b := r.holdsUp enclosing = true))
      have hr := (ihr enclosing hi).mono (Or.inr (a := l.holdsUp enclosing = true))
      rw [holdsUp, Bool.or_eq_true, outcomesOutside_alt hi]
      exact (hl.append hr).trans_eq (find?_outcomes_stripUnder_alt hi)
  | seq a b iha ihb =>
      by_cases h : (seq a b).hasBindings ∧ b.stripUnder enclosing = epsilon
      · have hb : ∀ j ≤ text.size, FindsAlike (b.holdsUp enclosing = true)
            (outcomesOutside enclosing text b j) (epsilon.outcomes .empty text j) :=
          fun j hj => h.2 ▸ ihb enclosing hj
        rw [holdsUp, if_pos h, stripUnder, if_pos h.1, h.2, append_epsilon]
        exact (FindsAlike.of_pending fun o ho => reachesEof_of_mem_outcomes hi ho).eq_trans
          (find?_outcomesOutside_seq hi (iha enclosing hi) hb)
      · rw [holdsUp, if_neg h, outcomesOutside_seq hi, outcomes_stripUnder_seq hi h]
        exact (iha enclosing hi).thenAll fun o ho =>
          ihb enclosing (stop_le_of_mem_outcomes hi ho)
  | star p ih =>
      have hp := ih enclosing hi
      have hrounds := hp.thenAll fun o ho => ih enclosing (stop_le_of_mem_outcomes hi ho)
      have hnone : FindsAlike (p.holdsUp enclosing = true) [.bare i false] [.bare i false] :=
        .of_eq fun _ => rfl
      rw [outcomesOutside_star hi]
      refine FindsAlike.trans_eq ?_ (find?_outcomes_stripUnder_star hi)
      rw [outcomes_star hi]
      exact (hnone.append hp).append hrounds
  | bind name p ih =>
      rw [outcomesOutside_bind hi, stripUnder, holdsUp]
      split
      · exact ih enclosing hi
      · rw [outcomes_bind hi]
        exact (ih (name :: enclosing) hi).map fun _ => rfl

/-! ## The first match -/

/-- The first strict match of the whole text, if there is one, does not need the end of the
input. -/
def StaysShort (text : Text) (p : Pattern) : Prop :=
  ∀ m, (p.matchesFrom text.toArray true 0).find? (·.stop = text.length) = some m →
    m.reachedEof = false

variable {input : Text}

theorem StaysShort.outcome (h : p.StaysShort input) {o : Outcome}
    (ho : (p.outcomes charNames input.toArray 0).find? (·.stop = input.length) = some o) :
    o.reachedEof = false := by
  rw [outcomes, List.find?_map] at ho
  obtain ⟨m, hm, rfl⟩ := Option.map_eq_some_iff.1 ho
  exact h m hm

/-- Where both ends of every span are kept, the spans are read off again. -/
theorem reading_outcome_empty (m : Match String Span) :
    (outcome .empty m).reading .empty = m.reading := by
  refine Prod.ext rfl (Prod.ext rfl (funext fun name => ?_))
  show Option.bind (Option.map _ (m.captured.get? name)) (fun start =>
    Option.map _ (Option.map _ (m.captured.get? name))) = m.captured.get? name
  cases m.captured.get? name <;> rfl

theorem map_get?_firstMatch? :
    (p.firstMatch? input).map OrderedMap.get? =
      ((p.outcomes .empty input.toArray 0).find? (·.stop = input.length)).map
        fun o => (o.reading .empty).2.2 := by
  rw [firstMatch?, firstWhole?, outcomes, List.find?_map, Option.map_map, Option.map_map]
  refine congrArg (Option.map · _) (funext fun m => ?_)
  exact (congrArg (·.2.2) (reading_outcome_empty m)).symm

theorem outcomesOutside_nil : outcomesOutside [] text p i = p.outcomes .empty text i := by
  refine (List.map_congr_left fun o _ => ?_).trans (List.map_id _)
  exact Outcome.without_eq_self fun _ he => nomatch he

/-- Dropping the shadowed bindings loses no match. The first one has the same spans as before,
unless it has reached the end of the input, and something at the end of the pattern has come
down to nothing behind what can reach it. -/
theorem firstMatch_withoutShadowed (p : Pattern) (input : Text) :
    ((p.firstMatch? input).isSome → (p.withoutShadowed.firstMatch? input).isSome) ∧
    (p.withoutShadowed.StaysShort input ∨ p.holdsUp [] = false →
      (p.withoutShadowed.firstMatch? input).map OrderedMap.get? =
        (p.firstMatch? input).map OrderedMap.get?) := by
  have hfinds := findsAlike_stripUnder p [] (Nat.zero_le input.toArray.size)
  rw [outcomesOutside_nil, ← withoutShadowed_eq] at hfinds
  constructor
  · intro hsome
    rw [← Option.isSome_map, map_get?_firstMatch?, Option.isSome_map] at hsome ⊢
    exact hfinds.isSome hsome
  · intro hfirst
    rw [map_get?_firstMatch?, map_get?_firstMatch?]
    refine congrArg _ ?_
    rcases hfirst with hshort | hclear
    · exact hfinds.find? fun o ho => hshort.outcome ho
    · exact hfinds.eq_of_not (by simp [hclear]) _

/-- In `(x:a(x:b))` nothing reaches the end of the input, and `x` has the span of both units
whether or not the inner binding is dropped. -/
theorem firstMatch_withoutShadowed_word :
    let p := bind "x" (seq (chars (.single 97)) (bind "x" (chars (.single 98))))
    p.withoutShadowed = bind "x" (seq (chars (.single 97)) (chars (.single 98))) ∧
      (p.firstMatch? [97, 98]).bind (·.get? "x") = some ⟨0, 2⟩ ∧
      (p.withoutShadowed.firstMatch? [97, 98]).map OrderedMap.get? =
        (p.firstMatch? [97, 98]).map OrderedMap.get? :=
  ⟨rfl, rfl, (firstMatch_withoutShadowed _ _).2 (.inr rfl)⟩

/-- In `(x:eof(x:))` the inner binding holds up the match of the empty text, until it is
dropped. In `(x:(eof|y:)(x:))` it does so for the first match only, and the next one binds
`y`. -/
theorem firstMatch_withoutShadowed_ne :
    let p := bind "x" (seq eof (bind "x" epsilon))
    let r := bind "x" (seq (alt eof (bind "y" epsilon)) (bind "x" epsilon))
    (p.Built ∧ p.firstMatch? [] = none ∧
      (p.withoutShadowed.firstMatch? []).map OrderedMap.entries = some [("x", ⟨0, 0⟩)]) ∧
    r.Built ∧
      (r.firstMatch? []).map OrderedMap.entries = some [("y", ⟨0, 0⟩), ("x", ⟨0, 0⟩)] ∧
      (r.withoutShadowed.firstMatch? []).map OrderedMap.entries = some [("x", ⟨0, 0⟩)] := by
  have hx : (bind "x" epsilon).Built := .bind "x" .epsilon
  have hy : (bind "y" epsilon).Built := .bind "y" .epsilon
  exact ⟨⟨.bind "x" (Built.eof.append hx), rfl, rfl⟩,
    .bind "x" ((Built.eof.either hy).append hx), rfl, rfl⟩

end Pattern

end LexTags
