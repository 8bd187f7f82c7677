import LexTags.Proofs.FirstMatch
import LexTags.Proofs.ReadBack
import LexTags.Proofs.Sampling

/-!
# Certification raises no alarm

A sample of a pattern is matched by the pattern, so also by its encoding, and by what the
layout has left of it. The three matches that are found first have the same outcome, except
for the crossings of boundaries that are resolved. From there on only the layout counts: its
addresses lead to the spans of the names, and its tags are all in use.

Both matchers are bounded, and the bounds are felt in two places. A repetition of a repetition
is one repetition in the encoding, and unfolded less often than it was sampled. And behind the
end of the input a tag is crossed where a binding is not. The two conditions on the pattern
keep clear of these.
-/

namespace LexTags

open Layout

variable {text : Text} {pool : Pool} {action n : Nat}

/-! ## The three matches -/

/-- The first outcome that takes the whole text is that of the match that is found. -/
theorem Pattern.exists_firstMatch? {p : Pattern} {charNames : OrderedSet String} {o : Outcome}
    (h : (p.outcomes charNames text.toArray 0).find? (·.stop = text.length) = some o) :
    ∃ bindings log, p.firstMatch? text = some bindings ∧ p.Reads text 0 text.length log ∧
      (∀ name, bindings.get? name = lastOf? log name) ∧
      ∀ b, o.crossed b = endOf? charNames bindings.get? b := by
  obtain ⟨m, hm, hstop, rfl, hfirst⟩ := exists_firstWhole? (fun _ => rfl) h
  obtain ⟨log, hr, hget⟩ := finds_of_mem_matchesFrom p (Nat.zero_le _) hm
  exact ⟨m.captured, log, hfirst, hstop ▸ hr, hget, fun _ => rfl⟩

/-- A text is matched by a pattern, by its encoding, and by what a layout has left of that,
and the three matches tell the same. -/
structure MatchedAlike (p : Pattern) (clause : Tagged) (l : Layout) (gone : List Boundary)
    (action : Nat) (pool : Pool) (text : Text) (bindings : OrderedMap String Span)
    (markers : OrderedMap Tag Nat) (log : List (String × Span)) (crossed : List (Tag × Nat)) :
    Prop where
  source : p.firstMatch? text = some bindings
  left : l.regular.firstMatch? pool text = some markers
  reads : p.Reads text 0 text.length log
  spans : ∀ name, bindings.get? name = lastOf? log name
  crosses : clause.Reads pool text 0 text.length crossed
  marks : Marks p.usage.charNames log crossed
  records : Records action (withoutCrossings gone crossed) markers

/-- A name whose boundaries are crossed is bound. -/
theorem MatchedAlike.mem_keys {p : Pattern} {clause : Tagged} {l : Layout}
    {gone : List Boundary} {bindings : OrderedMap String Span} {markers : OrderedMap Tag Nat}
    {log : List (String × Span)} {crossed : List (Tag × Nat)}
    (h : MatchedAlike p clause l gone action pool text bindings markers log crossed)
    {e : Tag × Nat} (he : e ∈ crossed)
    (hside : e.1.boundary.side = .closing → e.1.boundary.name ∉ p.usage.charNames) :
    e.1.boundary.name ∈ bindings.keys := by
  refine Decidable.byContradiction fun hkey => ?_
  have hnone := OrderedMap.get?_eq_none_of_notMem hkey
  rw [h.spans] at hnone
  obtain ⟨hopen, hclose⟩ := h.marks e.1.boundary.name
  rw [hnone] at hopen hclose
  cases hs : e.1.boundary.side with
  | opening =>
      refine lastCrossing?_eq_none_iff.1 hopen e he ?_
      rw [Boundary.opening, ← hs]
  | closing =>
      refine lastCrossing?_eq_none_iff.1 (hclose (hside hs)) e he ?_
      rw [Boundary.closing, ← hs]

namespace Layout

open Pattern

variable {p : Pattern} {l : Layout} {events : List Event} {os : List Boundary}

/-- What a layout has left of an encoding has the outcomes of the pattern, but for the
boundaries that are resolved. -/
theorem Settled.sameFirsts_outcomes
    (h : Settled p.usage (p.encodeFrom p.usage.charNames action n) l events os)
    (hp : p.Unshadowed) (hnodes : p.KeepsNodes p.usage.charNames) (htail : p.tailClear = true)
    (hpool : Holds pool n p.leaves) {input : Array CodeUnit} {i : Nat} (hi : i ≤ input.size) :
    SameFirsts (l.regular.outcomes pool action input i)
      ((p.outcomes p.usage.charNames input i).map
        (Outcome.without (resolvedBoundaries events))) := by
  have hkept := h.notMem_resolved (describes_encodeFrom p action n)
  rw [Tagged.outcomes_of_pruned h.pruned (tailClear_encodeFrom hnodes htail)
    (hasActions_encodeFrom p) (fun x hx => (mem_tags_encodeFrom hx).1) hkept hi]
  exact (outcomes_encodeFrom p hp hnodes.fitsUnits hnodes.keepsShape hpool hi).map

/-- A text that the pattern matches is matched alike. -/
theorem Settled.exists_matchedAlike
    (h : Settled p.usage (p.encodeFrom p.usage.charNames action n) l events os)
    (hp : p.Unshadowed) (hnodes : p.KeepsNodes p.usage.charNames) (htail : p.tailClear = true)
    (hpool : Holds pool n p.leaves)
    (htaken : ∃ o ∈ p.outcomes p.usage.charNames text.toArray 0, o.stop = text.length) :
    ∃ bindings markers log crossed,
      MatchedAlike p (p.encodeFrom p.usage.charNames action n) l (resolvedBoundaries events)
        action pool text bindings markers log crossed := by
  have hzero : 0 ≤ text.toArray.size := Nat.zero_le _
  have haction : ∀ x ∈ (p.encodeFrom p.usage.charNames action n).tags, x.action = action :=
    fun x hx => (mem_tags_encodeFrom hx).1
  have hwhole : ∃ o, (p.outcomes p.usage.charNames text.toArray 0).find?
      (·.stop = text.length) = some o := by
    obtain ⟨o, ho, hstop⟩ := htaken
    exact Option.isSome_iff_exists.1 (List.find?_isSome.2 ⟨o, ho, decide_eq_true hstop⟩)
  obtain ⟨o, ho⟩ := hwhole
  have hencoded : ((p.encodeFrom p.usage.charNames action n).outcomes pool action
      text.toArray 0).find? (·.stop = text.length) = some o := by
    rw [← ho]
    exact (outcomes_encodeFrom p hp hnodes.fitsUnits hnodes.keepsShape hpool hzero).find? _
  have hleft : (l.regular.outcomes pool action text.toArray 0).find? (·.stop = text.length) =
      some (o.without (resolvedBoundaries events)) := by
    rw [(h.sameFirsts_outcomes hp hnodes htail hpool hzero).find?, List.find?_map]
    exact congrArg (Option.map _) ho
  obtain ⟨bindings, log, hsource, hr, hspans, hends⟩ := exists_firstMatch? ho
  obtain ⟨_, markers, crossed, -, hregular, hcrosses, hcrossed, -, hrecords⟩ :=
    Tagged.exists_firstMatches h.pruned haction hencoded hleft
  refine ⟨bindings, markers, log, crossed, hsource, hregular, hr, hspans, hcrosses, ?_, hrecords⟩
  intro name
  rw [← hcrossed, ← hcrossed, hends, hends, ← hspans]
  exact ⟨rfl, fun hname => if_neg hname⟩

/-- A text that is matched alike passes the check. -/
theorem Settled.check_eq_ok {bindings : OrderedMap String Span} {markers : OrderedMap Tag Nat}
    {log : List (String × Span)} {crossed : List (Tag × Nat)}
    (h : Settled p.usage (p.encodeFrom p.usage.charNames action n) l events os)
    (hm : MatchedAlike p (p.encodeFrom p.usage.charNames action n) l
      (resolvedBoundaries events) action pool text bindings markers log crossed)
    (hlength : text.length ≤ maxPosition) : l.check pool p text = .ok () := by
  have hkept : ∀ e ∈ withoutCrossings (resolvedBoundaries events) crossed,
      e.1.boundary ∉ resolvedBoundaries events := fun e he => (mem_withoutCrossings.1 he).2
  have hbinds := binds_of_recovers h hm.reads hm.marks
    (h.recovers_of_describes (describes_encodeFrom p action n) hm.crosses)
  have hcells : ∀ c q, l.cellsAfter (withoutCrossings (resolvedBoundaries events) crossed) c =
      some q → ∃ x, (Reading.ofMarkers l text markers).recorded? c = some x ∧ x.position = q :=
    fun c q hq => h.exists_recorded_of_cellsAfter hm.records hkept hq
  have hfound : ∀ e ∈ bindings.entries,
      (Reading.ofMarkers l text markers).checkBinding e.1 e.2 = .ok () := by
    intro e he
    have hlast := (hm.spans e.1).symm.trans (OrderedMap.get?_eq_some_iff.2 he)
    have hbounds : e.2.start ≤ e.2.stop ∧ e.2.stop ≤ text.length :=
      (hm.reads.span_bounds (mem_of_lastOf? hlast)).2
    obtain ⟨c, hc, hleads, hleads', hunit⟩ := hbinds.bound hlast
    refine Reading.checkBinding_eq_ok_iff.2 ⟨c, e.2, hc, Reading.span_eq_ok_iff.2
      ⟨?_, fun a ha => ?_, hunit, hbounds⟩, rfl⟩
    · exact Reading.position_eq_ok hcells hleads (by omega)
    · exact Reading.position_eq_ok hcells (hleads' a ha) (by omega)
  have hunused : (Reading.ofMarkers l text markers).unusedTags bindings.keys = [] := by
    refine h.unusedTags_eq_nil hm.records hkept fun e he => ?_
    have hcrossed := (mem_withoutCrossings.1 he).1
    obtain ⟨-, hname, hside⟩ := mem_tags_encodeFrom (hm.crosses.mem_tags hcrossed)
    exact ⟨hm.mem_keys hcrossed hside, mem_bound_iff.2 hname, hside⟩
  rw [check_eq hm.source hm.left, forM_eq_ok.2 hfound]
  exact if_pos (List.isEmpty_iff.2 hunused)

end Layout

/-! ## Certification -/

namespace Pattern

open Layout

/-- What is certified is the layout that the compilation leaves, with its pool. -/
theorem certify_run (config : Config) (p : Pattern) (count : Nat) (s : Session) :
    ((p.certify config count).run.run s).1 =
      match (Session.compileClause config 0 p).run.run s with
      | (.error cause, _) => .error (.clause cause)
      | (.ok layout, s') => layout.certify s'.pool p count := by
  rw [certify]
  generalize Session.compileClause config 0 p = compiled
  obtain ⟨r, s', hr⟩ : ∃ r s', compiled.run.run s = (r, s') := ⟨_, _, rfl⟩
  rw [hr]
  simp only [ExceptT.run_bind, ExceptT.run_adapt, StateT.run_bind, StateT.run_map, hr]
  cases r <;> rfl

/-- No clause of a pattern is found faulty if no repetition of it is repeated again, and
nothing that can end at the end of the input is followed, at its end, by bindings of the empty
text alone. -/
theorem certify_eq_ok (config : Config) (p : Pattern) (count : Nat) (s : Session)
    (hbuilt : p.Built) (hstars : p.withoutShadowed.starsApart = true)
    (htail : p.withoutShadowed.tailClear = true)
    (hlength : ∀ text ∈ p.withoutShadowed.samples count, text.length ≤ maxPosition) :
    ((p.certify config count).run.run s).1 = .ok () := by
  have hreduced : p.withoutShadowed.Reduced := hbuilt.reduced.withoutShadowed
  have hnodes := hreduced.keepsNodes hstars (fitsUnits_usage p.withoutShadowed)
  have hunshadowed := unshadowed_withoutShadowed p
  have hpool := holds_append s.pool p.withoutShadowed.leaves
  have hd := describes_encodeFrom p.withoutShadowed 0 s.pool.size
  obtain ⟨layout, trace, events, os, hlayout, hsettled⟩ := hd.layout config.optimise
  have hcompile := Session.compileClause_run config 0 p s
  rw [hlayout] at hcompile
  have hcertify : layout.certify (s.pool ++ p.withoutShadowed.leaves.toArray) p count =
      .ok () := by
    refine forM_eq_ok.2 fun text htext => ?_
    obtain ⟨_, _, _, _, hm⟩ := hsettled.exists_matchedAlike hunshadowed hnodes htail hpool
      (exists_outcome_of_mem_samples hreduced htext)
    exact hsettled.check_eq_ok hm (hlength text htext)
  rw [certify_run, hcompile]
  exact hcertify

/-- The word before a semicolon is found in each of the first samples. -/
theorem certify_eq_ok_word :
    ((certify ⟨true⟩ (seq (bind "w" (star (chars (.single 97)))) (chars (.single 59))) 3).run.run
      default).1 = .ok () := by
  have hbuilt : (seq (bind "w" (star (chars (.single 97)))) (chars (.single 59))).Built :=
    .append (.bind "w" (.many (.chars (CharSet.canonical_single 97))))
      (.chars (CharSet.canonical_single 59))
  exact certify_eq_ok ⟨true⟩ _ 3 default hbuilt rfl rfl (by decide)

/-- Each condition is needed: `((x:a)*)*` is unfolded less often once it is encoded, and in
`(eof|x:)y:` the tags of `y` are resolved, so that the end of the input is matched first. -/
theorem certify_eq_error :
    ((star (star (bind "x" (chars (.single 97))))).Built ∧
      ((certify ⟨true⟩ (star (star (bind "x" (chars (.single 97))))) 4).run.run default).1 =
        .error (.optimisedMismatch "aaa" "(<x>[0])*")) ∧
    (seq (alt eof (bind "x" epsilon)) (bind "y" epsilon)).Built ∧
      ((certify ⟨true⟩ (seq (alt eof (bind "x" epsilon)) (bind "y" epsilon)) 1).run.run
        default).1 = .error (.unownedCell "" (.atCell 0)) := by
  have hrounds : (star (star (bind "x" (chars (.single 97))))).Built :=
    .many (.many (.bind "x" (.chars (CharSet.canonical_single 97))))
  have hend : (seq (alt eof (bind "x" epsilon)) (bind "y" epsilon)).Built :=
    .append (.either .eof (.bind "x" .epsilon)) (.bind "y" .epsilon)
  exact ⟨⟨hrounds, rfl⟩, hend, rfl⟩

end Pattern

end LexTags
