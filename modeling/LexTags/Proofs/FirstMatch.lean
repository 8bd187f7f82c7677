import LexTags.Proofs.Decoding
import LexTags.Proofs.Growth

/-!
# The first match survives the layout

What the matcher returns for a text is its first match of all of it. The layout changes the
expression but, as far as the end of the input lets it, not the match: the one that is found
is the one that was found before, without the crossings that have been left out, and those are
resolved by the addresses.

The reservation is about what has grown. If the first match of what is left has reached the end
of the input, it may be one that was held up before by a stretch of tags.
-/

namespace LexTags

open Layout

variable {text : Text} {pool : Pool} {action : Nat} {gone : List Boundary}

/-- The first outcome of a length is that of the first match of the length. -/
theorem exists_firstWhole? {κ υ : Type} {length : Nat} {ms : List (Match κ υ)}
    {outcome : Match κ υ → Outcome} (hstop : ∀ m, (outcome m).stop = m.stop) {o : Outcome}
    (h : (ms.map outcome).find? (·.stop = length) = some o) :
    ∃ m ∈ ms, m.stop = length ∧ outcome m = o ∧ firstWhole? length ms = some m.captured := by
  rw [List.find?_map] at h
  obtain ⟨m, hm, rfl⟩ := Option.map_eq_some_iff.1 h
  have hfind : ms.find? (·.stop = length) = some m := by
    refine Eq.trans ?_ hm
    congr 1
    funext m
    exact congrArg (fun stop => decide (stop = length)) (hstop m).symm
  have htest := List.find?_some hfind
  have hlength : m.stop = length := of_decide_eq_true htest
  exact ⟨m, List.mem_of_find?_eq_some hm, hlength, rfl,
    congrArg (Option.map Match.captured) hfind⟩

theorem lastCrossing?_eq_lastOf? {log : List (Tag × Nat)} (h : ∀ e ∈ log, e.1.action = action)
    (b : Boundary) : lastCrossing? log b = lastOf? log ⟨b, action⟩ := by
  refine lastOf?_map Tag.boundary ⟨b, action⟩ fun e he hb => ?_
  obtain ⟨⟨b', k⟩, _⟩ := e
  obtain rfl : k = action := h _ he
  obtain rfl : b' = b := hb
  rfl

theorem lastCrossing?_withoutCrossings_of_mem {log : List (Tag × Nat)} {b : Boundary}
    (hb : b ∈ gone) : lastCrossing? (withoutCrossings gone log) b = none := by
  refine lastCrossing?_eq_none_iff.2 fun e he heb => ?_
  exact (mem_withoutCrossings.1 he).2 (heb ▸ hb)

theorem Tagged.exists_firstMatch? {t : Tagged} {o : Outcome}
    (haction : ∀ x ∈ t.tags, x.action = action)
    (h : (t.outcomes pool action text.toArray 0).find? (·.stop = text.length) = some o) :
    ∃ markers log, t.firstMatch? pool text = some markers ∧
      t.Reads pool text 0 text.length log ∧ (∀ b, o.crossed b = lastCrossing? log b) ∧
      Records action log markers := by
  obtain ⟨m, hm, hstop, rfl, hfirst⟩ := exists_firstWhole? (fun _ => rfl) h
  obtain ⟨log, hr, hget⟩ := finds_of_mem_matchesFrom t (Nat.zero_le _) hm
  have hlog : ∀ e ∈ log, e.1.action = action := fun e he => haction _ (hr.mem_tags he)
  refine ⟨m.captured, log, hfirst, hstop ▸ hr, fun b => ?_, fun x => ?_⟩
  · rw [lastCrossing?_eq_lastOf? hlog]
    exact hget _
  · rw [hget]
    split
    · next hx => rw [lastCrossing?_eq_lastOf? hlog, ← hx]
    · next hx => exact lastOf?_eq_none_iff.2 fun e he hex => hx (hex ▸ hlog e he)

theorem Records.congr {marks marks' : List (Tag × Nat)} {markers : OrderedMap Tag Nat}
    (h : Records action marks markers)
    (hlast : ∀ b, lastCrossing? marks b = lastCrossing? marks' b) :
    Records action marks' markers := by
  intro t
  rw [h t, hlast]

/-- A first match without some crossings has recorded what is left of them. -/
theorem Tagged.exists_firstMatches {t t' : Tagged} {o : Outcome} (h : Pruned gone t t')
    (haction : ∀ x ∈ t.tags, x.action = action)
    (ho : (t.outcomes pool action text.toArray 0).find? (·.stop = text.length) = some o)
    (ho' : (t'.outcomes pool action text.toArray 0).find? (·.stop = text.length) =
      some (o.without gone)) :
    ∃ crossed marks log, t.firstMatch? pool text = some crossed ∧
      t'.firstMatch? pool text = some marks ∧ t.Reads pool text 0 text.length log ∧
      (∀ b, o.crossed b = lastCrossing? log b) ∧ Records action log crossed ∧
      Records action (withoutCrossings gone log) marks := by
  obtain ⟨crossed, log, hfirst, hr, hlast, hrecords⟩ := exists_firstMatch? haction ho
  obtain ⟨marks, log', hfirst', -, hlast', hrecords'⟩ := exists_firstMatch?
    (fun x hx => haction x (tags_of_pruned h x hx)) ho'
  refine ⟨crossed, marks, log, hfirst, hfirst', hr, hlast, hrecords, hrecords'.congr fun b => ?_⟩
  rw [← hlast']
  show (if b ∈ gone then none else o.crossed b) = _
  split
  · next hb => exact (lastCrossing?_withoutCrossings_of_mem hb).symm
  · next hb => rw [lastCrossing?_withoutCrossings hb, hlast]

/-- There is a match of the whole text if there is an outcome of its length. -/
theorem Tagged.isSome_firstMatch? {t : Tagged} (action : Nat) :
    (t.firstMatch? pool text).isSome =
      ((t.outcomes pool action text.toArray 0).find? (·.stop = text.length)).isSome := by
  rw [firstMatch?, firstWhole?, outcomes, List.find?_map, Option.isSome_map, Option.isSome_map]
  rfl

theorem Tagged.firstMatch?_eq_none {t : Tagged}
    (h : (t.outcomes pool action text.toArray 0).find? (·.stop = text.length) = none) :
    t.firstMatch? pool text = none := by
  have hsome := @isSome_firstMatch? text pool t action
  rw [h] at hsome
  exact Option.isNone_iff_eq_none.1 (Option.isSome_eq_false_iff.1 hsome)

/-- The first match of the whole text, if there is one, does not need the end of the input. -/
def Tagged.StaysShort (pool : Pool) (text : Text) (t : Tagged) : Prop :=
  ∀ m, (t.matchesFrom pool text.toArray 0 false).find? (·.stop = text.length) = some m →
    m.reachedEof = false

theorem Tagged.StaysShort.outcome {t : Tagged} (h : t.StaysShort pool text) {o : Outcome}
    (ho : (t.outcomes pool action text.toArray 0).find? (·.stop = text.length) = some o) :
    o.reachedEof = false := by
  rw [outcomes, List.find?_map] at ho
  obtain ⟨m, hm, rfl⟩ := Option.map_eq_some_iff.1 ho
  exact h m hm

namespace Layout

variable {usage : Usage} {clause : Tagged} {l : Layout} {events : List Event}
  {os : List Boundary}

/-- Each tag that a match of a clause has recorded is found through its address, with the
positions of a match of what is left in the cells. -/
def Resolves (l : Layout) (action : Nat) (text : Text) (crossed marks : OrderedMap Tag Nat) :
    Prop :=
  ∀ t p, crossed.get? t = some p → ∃ a, l.addresses.get? t.boundary = some a ∧
    a.LeadsTo 0 text.length
      (fun c => (l.cellOwner? c).bind fun b => marks.get? ⟨b, action⟩) p

/-- What is left is not resolved. -/
theorem Settled.notMem_resolved (h : Settled usage clause l events os)
    (hd : Describes usage clause) :
    ∀ x ∈ l.regular.tags, x.boundary ∉ resolvedBoundaries events :=
  fun x hx => h.decides.notMem hd.singlesOnce _ (mem_boundaries_spine.2 ⟨x, hx, rfl⟩)

theorem Settled.grown_outcomes (h : Settled usage clause l events os)
    (hd : Describes usage clause) (haction : ∀ x ∈ clause.tags, x.action = action) :
    Outcome.Grown (clause.tailKept l.regular.tags = false)
      ((clause.outcomes pool action text.toArray 0).map
        (Outcome.without (resolvedBoundaries events)))
      (l.regular.outcomes pool action text.toArray 0) :=
  Tagged.grown_outcomes_of_pruned h.pruned hd.no_actions haction (fun _ hx => hx)
    (h.notMem_resolved hd) (Nat.zero_le _)

/-- A text that the clause matches is matched by what is left of it. -/
theorem Settled.isSome_firstMatch? (h : Settled usage clause l events os)
    (hd : Describes usage clause) (haction : ∀ x ∈ clause.tags, x.action = action)
    (hsome : (clause.firstMatch? pool text).isSome) :
    (l.regular.firstMatch? pool text).isSome := by
  rw [Tagged.isSome_firstMatch? action, List.find?_isSome] at *
  obtain ⟨o, ho, hstop⟩ := hsome
  exact ⟨_, (h.grown_outcomes hd haction).subset _ (List.mem_map_of_mem ho), hstop⟩

/-- Where nothing that has grown comes first, the two first matches go together. -/
theorem Settled.firstMatch?_rel (h : Settled usage clause l events os)
    (hd : Describes usage clause) (haction : ∀ x ∈ clause.tags, x.action = action)
    (hfirst : l.regular.StaysShort pool text ∨ clause.tailKept l.regular.tags = true) :
    Option.Rel (l.Resolves action text) (clause.firstMatch? pool text)
      (l.regular.firstMatch? pool text) := by
  have hgrown := @Settled.grown_outcomes text pool action _ _ _ _ _ h hd haction
  have hfind : (l.regular.outcomes pool action text.toArray 0).find? (·.stop = text.length) =
      ((clause.outcomes pool action text.toArray 0).map
        (Outcome.without (resolvedBoundaries events))).find? (·.stop = text.length) := by
    rcases hfirst with hshort | htail
    · exact hgrown.find? fun o ho => hshort.outcome ho
    · rw [hgrown.eq_of_not (by simp [htail])]
  rw [List.find?_map] at hfind
  change _ = ((clause.outcomes pool action text.toArray 0).find? (·.stop = text.length)).map _
    at hfind
  cases ho : (clause.outcomes pool action text.toArray 0).find? (·.stop = text.length) with
  | none =>
      rw [Tagged.firstMatch?_eq_none ho, Tagged.firstMatch?_eq_none (hfind.trans (congrArg _ ho))]
      exact .none
  | some o =>
      obtain ⟨crossed, marks, log, hcrossed, hmarks, hr, -, hrecords, hleft⟩ :=
        Tagged.exists_firstMatches h.pruned haction ho (hfind.trans (congrArg _ ho))
      rw [hcrossed, hmarks]
      refine .some fun t p hp => ?_
      obtain ⟨rfl, hlast⟩ := hrecords.eq_some hp
      obtain ⟨a, ha, hleads⟩ := (h.recovers_of_describes hd hr).crossed hlast
      have hcells : l.cellsAfter (withoutCrossings (resolvedBoundaries events) log) =
          fun c => (l.cellOwner? c).bind fun b => marks.get? ⟨b, t.action⟩ := by
        funext c
        exact congrArg _ (funext fun b => hleft.get?.symm)
      exact ⟨a, ha, hcells ▸ hleads⟩

end Layout

namespace Pattern

open Layout

/-- Laying out the encoding of a pattern loses no match. It adds none, and all recorded tags are
resolved by the addresses, unless a stretch of tags behind what can end at the end of the input
is left with less than two of them and the first match of what is left has reached this end. -/
theorem firstMatch_layout (p : Pattern) (optimise : Bool) (action : Nat) (pool : Pool) :
    let names := p.withoutShadowed.usage
    let encoded := (p.withoutShadowed.encode names.charNames action).run pool
    ∃ layout trace, encoded.1.layout names optimise = .ok (layout, trace) ∧ ∀ text,
      ((encoded.1.firstMatch? encoded.2 text).isSome →
        (layout.regular.firstMatch? encoded.2 text).isSome) ∧
      (layout.regular.StaysShort encoded.2 text ∨
          encoded.1.tailKept layout.regular.tags = true →
        Option.Rel (layout.Resolves action text) (encoded.1.firstMatch? encoded.2 text)
          (layout.regular.firstMatch? encoded.2 text)) := by
  intro names encoded
  have hencoded : encoded.1 = p.withoutShadowed.encodeFrom names.charNames action pool.size :=
    congrArg Prod.fst (encode_run _ pool)
  have hd := describes_encodeFrom p.withoutShadowed action pool.size
  have haction : ∀ x ∈ encoded.1.tags, x.action = action := by
    rw [hencoded]
    exact fun x hx => (mem_tags_encodeFrom hx).1
  rw [← hencoded] at hd
  obtain ⟨layout, trace, events, os, hlayout, hsettled⟩ := hd.layout optimise
  exact ⟨layout, trace, hlayout, fun text => ⟨hsettled.isSome_firstMatch? hd haction,
    hsettled.firstMatch?_rel hd haction⟩⟩

/-- In `(x:a*)eof` no tag stands behind the end of the input, and the tags of `x` are resolved
by the ends of the match. -/
theorem firstMatch_layout_word :
    let p := (seq (bind "x" (star (chars (.single 97)))) eof).withoutShadowed
    let encoded := (p.encode p.usage.charNames 0).run #[]
    ∃ layout trace crossed marks, encoded.1.layout p.usage true = .ok (layout, trace) ∧
      encoded.1.firstMatch? encoded.2 [97, 97] = some crossed ∧
      crossed.entries = [(⟨.opening "x", 0⟩, 0), (⟨.closing "x", 0⟩, 2)] ∧
      layout.regular.firstMatch? encoded.2 [97, 97] = some marks ∧
      layout.Resolves 0 [97, 97] crossed marks := by
  have hencoded : ((seq (bind "x" (star (chars (.single 97)))) eof).withoutShadowed.encode
      (seq (bind "x" (star (chars (.single 97)))) eof).withoutShadowed.usage.charNames 0).run #[] =
        (.seq (.seq (.tag ⟨.opening "x", 0⟩) (.seq (.star (.chars 0))
          (.tag ⟨.closing "x", 0⟩))) (.eof 1), #[.single 97, .eof]) := rfl
  obtain ⟨layout, trace, hlayout, h⟩ :=
    firstMatch_layout (seq (bind "x" (star (chars (.single 97)))) eof) true 0 #[]
  have hleft : some (Tagged.seq (.star (.chars 0)) (.eof 1)) = some layout.regular :=
    congrArg (fun r => r.toOption.map fun done => done.1.regular) hlayout
  have hrel := (h [97, 97]).2 (.inr (Option.some.inj hleft ▸ rfl))
  have hmatch : ((Tagged.seq (.seq (.tag ⟨.opening "x", 0⟩)
      (.seq (.star (.chars 0)) (.tag ⟨.closing "x", 0⟩))) (.eof 1)).firstMatch?
        #[.single 97, .eof] [97, 97]).map OrderedMap.entries =
      some [(⟨.opening "x", 0⟩, 0), (⟨.closing "x", 0⟩, 2)] := by decide +kernel
  obtain ⟨crossed, hcrossed, hentries⟩ := Option.map_eq_some_iff.1 hmatch
  rw [hencoded, hcrossed] at hrel
  generalize hmarks : layout.regular.firstMatch? #[.single 97, .eof] [97, 97] = found at hrel
  cases hrel with
  | some hresolves =>
      exact ⟨layout, trace, crossed, _, hlayout, hcrossed, hentries, hmarks, hresolves⟩

/-- In `eof x:` the tags hold up the match of the empty text, until they are left out. In
`(eof|x:)y:` they let the match through that binds `x`, and when they are left out the first one
comes before it, which does not fill the cell of `x`. -/
theorem firstMatch_layout_ne :
    (let p := (seq eof (bind "x" epsilon)).withoutShadowed
      let encoded := (p.encode p.usage.charNames 0).run #[]
      ∃ layout trace, encoded.1.layout p.usage true = .ok (layout, trace) ∧
        encoded.1.firstMatch? encoded.2 [] = none ∧
        layout.regular.firstMatch? encoded.2 [] = some .empty) ∧
    (let p := (seq (alt eof (bind "x" epsilon)) (bind "y" epsilon)).withoutShadowed
      let encoded := (p.encode p.usage.charNames 0).run #[]
      ∃ layout trace crossed, encoded.1.layout p.usage true = .ok (layout, trace) ∧
        encoded.1.firstMatch? encoded.2 [] = some crossed ∧
        crossed.get? ⟨.opening "x", 0⟩ = some 0 ∧
        layout.regular.firstMatch? encoded.2 [] = some .empty ∧
        layout.addresses.get? (.opening "x") = some (.atCell 0) ∧
        layout.cellOwner? 0 = some (.opening "x")) :=
  ⟨⟨_, _, rfl, rfl, rfl⟩, _, _, _, rfl, rfl, rfl, rfl, rfl, rfl⟩

end Pattern

end LexTags
