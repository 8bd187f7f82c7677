import LexTags.Proofs.Decoding
import LexTags.Proofs.Sampling

/-!
# What certification tells

The outcome of a certification is read here for any layout, so also for one that no compilation
has made. Two things can be relied on. The samples are never at fault: there are no more witnesses
of a pattern than asked for, and the pattern matches each of them. And where no discrepancy is
found, each name that is bound in a sample has a capture whose addresses lead to a span of the
sample, with the text that the pattern binds.

It need not be the same span. What is compared is text, and if the text occurs more than once in
the sample, an address that leads to another occurrence passes. A text that occurs only once
pins its span down.
-/

namespace LexTags

variable {text : Text} {p : Pattern} {pool : Pool} {l : Layout} {bindings : OrderedMap String Span}
  {markers : OrderedMap Tag Nat} {s bound : Span} {name : String} {a : Address} {c : Capture}
  {i limit count : Nat} {witness regular : String}

/-! ## The samples -/

namespace Pattern

/-- Every witness is matched as a whole. -/
theorem isSome_firstMatch? (hsets : ∀ s ∈ p.leaves, s.Canonical)
    (h : text ∈ p.witnesses limit) : (p.firstMatch? text).isSome := by
  obtain ⟨o, ho, hstop⟩ :=
    exists_outcome_of_mem_witnesses .empty hsets h
  obtain ⟨m, hm, rfl⟩ := List.mem_map.1 ho
  rw [firstMatch?, firstWhole?, Option.isSome_map, List.find?_isSome]
  exact ⟨m, hm, decide_eq_true hstop⟩

/-- What is bound in a text is a span of it. -/
theorem bounds_of_firstMatch? (h : p.firstMatch? text = some bindings)
    (hbound : bindings.get? name = some bound) :
    bound.start ≤ bound.stop ∧ bound.stop ≤ text.length := by
  obtain ⟨m, hm, rfl⟩ := Option.map_eq_some_iff.1 h
  obtain ⟨log, hr, hget⟩ :=
    finds_of_mem_matchesFrom p (Nat.zero_le _) (List.mem_of_find?_eq_some hm)
  rw [hget] at hbound
  have hspan := hr.span_bounds (mem_of_lastOf? hbound)
  have hwhole := List.find?_some hm
  have hstop : m.stop = text.length := of_decide_eq_true hwhole
  exact ⟨hspan.2.1, hstop ▸ hspan.2.2⟩

end Pattern

/-! ## Where the source is blamed -/

namespace Reading

variable {r : Reading}

theorem position_ne_sourceMismatch :
    r.position a ≠ .error (.sourceMismatch witness regular) := by
  rw [position]
  intro h
  split at h
  · cases h
  · split at h
    · cases h
    · cases h

theorem span_ne_sourceMismatch : r.span c ≠ .error (.sourceMismatch witness regular) := by
  rw [span_eq]
  intro h
  rcases bind_eq_error.1 h with h | ⟨i, -, h⟩
  · exact position_ne_sourceMismatch h
  · rcases bind_eq_error.1 h with h | ⟨j, -, h⟩
    · cases hc : c.stop? with
      | none =>
          rw [hc] at h
          cases h
      | some a =>
          rw [hc] at h
          exact position_ne_sourceMismatch h
    · cases (ite_eq_error.1 h).2

theorem checkBinding_ne_sourceMismatch :
    r.checkBinding name bound ≠ .error (.sourceMismatch witness regular) := by
  intro h
  cases hc : r.layout.captures.get? name with
  | none =>
      rw [checkBinding, hc] at h
      cases h
  | some c =>
      rw [checkBinding_eq hc] at h
      rcases bind_eq_error.1 h with h | ⟨found, -, h⟩
      · exact span_ne_sourceMismatch h
      · cases (ite_eq_error.1 h).2

end Reading

namespace Layout

/-- The source is blamed for a text only if it does not match it. -/
theorem firstMatch?_of_check_eq_error
    (h : l.check pool p text = .error (.sourceMismatch witness regular)) :
    p.firstMatch? text = none := by
  cases hsource : p.firstMatch? text with
  | none => rfl
  | some bindings =>
      cases hleft : l.regular.firstMatch? pool text with
      | none =>
          rw [check, hsource, hleft] at h
          cases h
      | some markers =>
          rw [check_eq hsource hleft] at h
          rcases bind_eq_error.1 h with h | ⟨_, -, h⟩
          · obtain ⟨e, -, he⟩ := exists_of_forM_eq_error h
            exact absurd he Reading.checkBinding_ne_sourceMismatch
          · cases (ite_eq_error.1 h).2

end Layout

/-- There are no more witnesses of a pattern than asked for, and each is matched by it. So
whatever is certified, and with whatever pool, the source is not blamed. -/
theorem Pattern.witnesses_matched (p : Pattern) (hsets : ∀ s ∈ p.leaves, s.Built) :
    (∀ limit, (p.witnesses limit).length ≤ limit ∧
      ∀ text ∈ p.witnesses limit, (p.firstMatch? text).isSome) ∧
    ∀ (layout : Layout) (pool : Pool) (count : Nat) (witness regular : String),
      layout.certify pool p count ≠ .error (.sourceMismatch witness regular) := by
  have hcanonical : ∀ s ∈ p.leaves, s.Canonical := fun s hs => (hsets s hs).canonical
  refine ⟨fun limit => ⟨?_, fun text htext => isSome_firstMatch? hcanonical htext⟩,
    fun layout pool count witness regular h => ?_⟩
  · rw [witnesses, List.length_map]
    exact length_sample_le p limit
  · obtain ⟨text, htext, hfail⟩ := exists_of_forM_eq_error h
    have hmatched : (p.withoutShadowed.firstMatch? text).isSome :=
      isSome_firstMatch? (fun s hs => hcanonical s (mem_leaves_of_withoutShadowed hs))
        (mem_witnesses_of_mem_samples htext)
    rw [Layout.firstMatch?_of_check_eq_error hfail] at hmatched
    cases hmatched

/-- The witnesses of `(a*eof|εε)b*`, with a node that the simplifying constructors leave out: only
the second side of the alternation goes on. -/
theorem Pattern.witnesses_matched_raw :
    let p : Pattern := seq (alt (seq (star (chars (.single 97))) eof) (seq epsilon epsilon))
      (star (chars (.single 98)))
    (∀ s ∈ p.leaves, s.Built) ∧ p.witnesses 5 = [[], [98], [98, 98]] ∧
      (p.firstMatch? [98, 98]).isSome ∧
      (⟨.eof 0, .empty, 0, .empty⟩ : Layout).certify #[] p 3 ≠
        .error (.sourceMismatch "b" p.render) := by
  intro p
  have hsets : ∀ s ∈ p.leaves, s.Built := by
    intro s hs
    obtain rfl | rfl | rfl : s = .single 97 ∨ s = .eof ∨ s = .single 98 := by
      simpa [p, leaves] using hs
    · exact .single 97
    · exact .eof
    · exact .single 98
  obtain ⟨hmatched, hblame⟩ := witnesses_matched p hsets
  have hwitnesses : p.witnesses 5 = [[], [98], [98, 98]] := rfl
  refine ⟨hsets, hwitnesses, (hmatched 5).2 _ (hwitnesses ▸ ?_), hblame _ _ _ _ _⟩
  exact List.mem_cons_of_mem _ (List.mem_cons_of_mem _ List.mem_cons_self)

/-! ## Where no discrepancy is found -/

/-- The part of a text that a span covers. -/
def Text.between (t : Text) (s : Span) : Text := (t.drop s.start).take (s.stop - s.start)

theorem Text.length_between {t : Text} (h : s.stop ≤ t.length) :
    (t.between s).length = s.stop - s.start := by
  rw [between, List.length_take, List.length_drop]
  omega

/-- The position in a cell after a match: that of the first recorded tag whose boundary is found
at the cell itself. -/
def Layout.cellsIn (l : Layout) (markers : OrderedMap Tag Nat) (cell : Nat) : Option Nat :=
  if cell < l.cells then
    (markers.entries.find? fun e => l.addresses.get? e.1.boundary = some (.atCell cell)).map
      Prod.snd
  else none

/-- The addresses of a capture lead to the ends of a span, in a match of a whole text of this
length. -/
structure Capture.StandsFor (c : Capture) (length : Nat) (cells : Nat → Option Nat) (s : Span) :
    Prop where
  start : c.start.resolve? 0 length cells = some s.start
  stop : ∀ a, c.stop? = some a → a.resolve? 0 length cells = some s.stop
  /-- A capture without an address for its end covers one unit. -/
  unit : c.stop? = none → s.stop = s.start + 1
  le : s.start ≤ s.stop
  stop_le : s.stop ≤ length

theorem Reading.cellPosition?_ofMarkers (l : Layout) (text : Text) (markers : OrderedMap Tag Nat) :
    (ofMarkers l text markers).cellPosition? = l.cellsIn markers := by
  funext cell
  rw [cellPosition?, recorded?, Layout.cellsIn]
  show Option.map _ (if cell < l.cells then _ else none) = _
  split
  · rw [ofMarkers, List.find?_map, Option.map_map]
    rfl
  · rfl

theorem Reading.standsFor_of_span (h : (ofMarkers l text markers).span c = .ok s) :
    c.StandsFor text.length (l.cellsIn markers) s := by
  obtain ⟨hstart, hstop, hunit, hle, hlength⟩ := span_eq_ok_iff.1 h
  rw [← cellPosition?_ofMarkers l text markers]
  exact ⟨(position_eq_ok_iff.1 hstart).2, fun a ha => (position_eq_ok_iff.1 (hstop a ha)).2, hunit,
    hle, hlength⟩

namespace Layout

/-- A text passes only if both forms match it, and then each of its names passes. -/
theorem exists_of_check_eq_ok (h : l.check pool p text = .ok ()) :
    ∃ bindings markers, p.firstMatch? text = some bindings ∧
      l.regular.firstMatch? pool text = some markers ∧
      ∀ name bound, bindings.get? name = some bound →
        (Reading.ofMarkers l text markers).checkBinding name bound = .ok () := by
  cases hsource : p.firstMatch? text with
  | none =>
      rw [check, hsource] at h
      cases h
  | some bindings =>
      cases hleft : l.regular.firstMatch? pool text with
      | none =>
          rw [check, hsource, hleft] at h
          cases h
      | some markers =>
          rw [check_eq hsource hleft] at h
          obtain ⟨_, hnames, -⟩ := bind_eq_ok.1 h
          refine ⟨bindings, markers, rfl, rfl, fun name bound hbound => ?_⟩
          exact forM_eq_ok.1 hnames _ (OrderedMap.get?_eq_some_iff.1 hbound)

/-- Where no discrepancy is found, both forms match each sample, and each name that is bound in it
has a capture whose addresses lead to a span with the text that is bound. If no other span of
the sample has this text, it is the span that is bound. -/
theorem captures_of_certify (layout : Layout) (pool : Pool) (p : Pattern) (count : Nat)
    (h : layout.certify pool p count = .ok ()) :
    ∀ text ∈ (p.withoutShadowed.witnesses (4 * count)).eraseDups.take count,
      ∃ bindings markers, p.withoutShadowed.firstMatch? text = some bindings ∧
        layout.regular.firstMatch? pool text = some markers ∧
        ∀ name bound, bindings.get? name = some bound →
          ∃ capture found, layout.captures.get? name = some capture ∧
            capture.StandsFor text.length (layout.cellsIn markers) found ∧
            text.between found = text.between bound ∧
            found.stop - found.start = bound.stop - bound.start ∧
            ((∀ other : Span, other.start ≤ other.stop → other.stop ≤ text.length →
              text.between other = text.between bound → other = bound) → found = bound) := by
  intro text htext
  rw [← Pattern.samples_eq] at htext
  obtain ⟨bindings, markers, hsource, hleft, hnames⟩ :=
    exists_of_check_eq_ok (forM_eq_ok.1 h text htext)
  refine ⟨bindings, markers, hsource, hleft, fun name bound hbound => ?_⟩
  obtain ⟨capture, found, hcapture, hspan, hcut⟩ :=
    Reading.checkBinding_eq_ok_iff.1 (hnames name bound hbound)
  have hfound := Reading.standsFor_of_span hspan
  have htexts : text.between found = text.between bound := hcut
  have hlengths := congrArg List.length htexts
  rw [Text.length_between hfound.stop_le,
    Text.length_between (Pattern.bounds_of_firstMatch? hsource hbound).2] at hlengths
  exact ⟨capture, found, hcapture, hfound, htexts, hlengths,
    fun honly => honly found hfound.le hfound.stop_le htexts⟩

/-- In `(x:a)b` the start of `x` is the start of the match, and its end is one further. -/
theorem captures_of_certify_unit :
    let p : Pattern := .seq (.bind "x" (.chars (.single 97))) (.chars (.single 98))
    let layout : Layout :=
      ⟨.seq (.chars 0) (.chars 1), .ofList [("x", ⟨false, .afterStart 0, none⟩)], 0,
        .ofList [(.opening "x", .afterStart 0)]⟩
    layout.certify #[.single 97, .single 98] p 1 = .ok () ∧
      ∃ bindings markers, p.withoutShadowed.firstMatch? [97, 98] = some bindings ∧
        layout.regular.firstMatch? #[.single 97, .single 98] [97, 98] = some markers ∧
        ∃ capture, layout.captures.get? "x" = some capture ∧
          capture.StandsFor 2 (layout.cellsIn markers) ⟨0, 1⟩ := by
  intro p layout
  have hok : layout.certify #[.single 97, .single 98] p 1 = .ok () := rfl
  have hbound : (p.withoutShadowed.firstMatch? [97, 98]).map (·.get? "x") = some (some ⟨0, 1⟩) :=
    rfl
  obtain ⟨bindings, markers, hsource, hleft, hnames⟩ :=
    captures_of_certify layout _ p 1 hok [97, 98] List.mem_cons_self
  rw [hsource] at hbound
  obtain ⟨capture, found, hcapture, hfound, htext, hlength, -⟩ :=
    hnames "x" ⟨0, 1⟩ (Option.some.inj hbound)
  refine ⟨hok, bindings, markers, hsource, hleft, capture, hcapture, ?_⟩
  have hstart : found.start = 0 := by
    cases hcapture
    exact (Option.some.inj hfound.start).symm
  obtain ⟨start, stop⟩ := found
  obtain rfl : start = 0 := hstart
  obtain rfl : stop = 1 := hlength
  exact hfound

/-- In `a(x:a)` the two units have the same text. A layout with the start of `x` one unit too far
to the left passes, though its only span is not the one that is bound. -/
theorem certify_eq_ok_elsewhere :
    let p : Pattern := .seq (.chars (.single 97)) (.bind "x" (.chars (.single 97)))
    let layout : Layout :=
      ⟨.seq (.chars 0) (.chars 1), .ofList [("x", ⟨false, .afterStart 0, none⟩)], 0,
        .ofList [(.opening "x", .afterStart 1)]⟩
    let pool : Pool := #[.single 97, .single 97]
    layout.certify pool p 1 = .ok () ∧
      (p.withoutShadowed.witnesses 4).eraseDups.take 1 = [[97, 97]] ∧
      (p.withoutShadowed.firstMatch? [97, 97]).map (·.get? "x") = some (some ⟨1, 2⟩) ∧
      (layout.regular.firstMatch? pool [97, 97]).isSome ∧
      ∀ capture cells found, layout.captures.get? "x" = some capture →
        capture.StandsFor 2 cells found → found = ⟨0, 1⟩ := by
  refine ⟨rfl, rfl, rfl, rfl, ?_⟩
  rintro capture cells ⟨start, stop⟩ hcapture hfound
  cases hcapture
  have hstart : start = 0 := (Option.some.inj hfound.start).symm
  have hstop : stop = start + 1 := hfound.unit rfl
  rw [hstop, hstart]

end Layout

end LexTags
