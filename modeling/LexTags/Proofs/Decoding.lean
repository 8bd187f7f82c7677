import LexTags.Certification
import LexTags.Proofs.Compilation
import LexTags.Proofs.Steps

/-!
# Reading a match

What is certified of a layout is read off the tags that a match has recorded: a cell holds
the position of the recorded tag whose boundary is found at it. With the address of every
boundary in its place this is the position in the cell itself, because the boundaries that
share a cell with its owner have no tags left. So each capture is found where the layout says,
and each recorded tag is the owner of a cell that some capture counts from.
-/

namespace LexTags

variable {usage : Usage} {clause : Tagged} {l : Layout} {events : List Event}
  {os : List Boundary} {marks : List (Tag × Nat)} {markers : OrderedMap Tag Nat}
  {action c q : Nat} {b : Boundary} {a : Address} {w : Text}

/-- The tags of one action, each at the last crossing of its boundary. -/
def Records (action : Nat) (marks : List (Tag × Nat)) (markers : OrderedMap Tag Nat) : Prop :=
  ∀ t, markers.get? t = if t.action = action then lastCrossing? marks t.boundary else none

theorem Records.get? (h : Records action marks markers) :
    markers.get? ⟨b, action⟩ = lastCrossing? marks b :=
  (h _).trans (if_pos rfl)

theorem Records.eq_some (h : Records action marks markers) {t : Tag}
    (ht : markers.get? t = some q) :
    t.action = action ∧ lastCrossing? marks t.boundary = some q := by
  rw [h t] at ht
  split at ht
  · next haction => exact ⟨haction, ht⟩
  · cases ht

/-- The only member that passes a test is found. -/
theorem find?_eq_some_of_unique {α : Type} {p : α → Bool} {xs : List α} {x : α} (hx : x ∈ xs)
    (hp : p x = true) (hunique : ∀ y ∈ xs, p y = true → y = x) : xs.find? p = some x := by
  cases hfind : xs.find? p with
  | none => exact absurd hp (List.find?_eq_none.1 hfind x hx)
  | some y => rw [hunique y (List.mem_of_find?_eq_some hfind) (List.find?_some hfind)]

namespace Layout

/-- A boundary that is found somewhere, and was not resolved, owns a cell. -/
theorem Settled.mem_owners (h : Settled usage clause l events os)
    (ha : l.addresses.get? b = some a) (hb : b ∉ resolvedBoundaries events) : b ∈ os := by
  rcases h.other ha with hp | ⟨hown, -⟩
  · have hdecided := (placements_perm events).symm.subset (List.mem_map.2 ⟨_, hp, rfl⟩)
    rcases List.mem_append.1 hdecided with howner | hres
    · exact h.owners_subset b howner
    · exact absurd hres hb
  · exact hown

/-- At a cell, the only boundary that was not resolved is its owner. -/
theorem Settled.owner_of_atCell (h : Settled usage clause l events os)
    (ha : l.addresses.get? b = some (.atCell c)) (hb : b ∉ resolvedBoundaries events) :
    os[c]? = some b := by
  obtain ⟨c', hc', heq⟩ := h.atCell (h.mem_owners ha hb) ha
  cases heq
  exact hc'

theorem Settled.owner_of_cellsAfter (h : Settled usage clause l events os)
    (hkept : ∀ e ∈ marks, e.1.boundary ∉ resolvedBoundaries events)
    (hq : l.cellsAfter marks c = some q) :
    ∃ b, os[c]? = some b ∧ lastCrossing? marks b = some q := by
  obtain ⟨b, howner, hlast⟩ := Option.bind_eq_some_iff.1 hq
  obtain ⟨e, he, rfl⟩ := Option.map_eq_some_iff.1 howner
  have hcell : e.2 = .atCell c := by simpa using List.find?_some he
  have hget := OrderedMap.get?_eq_some_iff.2 (List.mem_of_find?_eq_some he)
  rw [hcell] at hget
  obtain ⟨t, ht, hmem⟩ := mem_of_lastCrossing? hlast
  exact ⟨e.1, h.owner_of_atCell hget (ht ▸ hkept _ hmem), hlast⟩

/-- The recorded tag of a cell is that of its owner. -/
theorem Settled.recorded?_eq (h : Settled usage clause l events os)
    (hrec : Records action marks markers)
    (hkept : ∀ e ∈ marks, e.1.boundary ∉ resolvedBoundaries events)
    (hc : os[c]? = some b) (hq : lastCrossing? marks b = some q) :
    (Reading.ofMarkers l w markers).recorded? c =
      some ⟨⟨b, action⟩, q, some (.atCell c)⟩ := by
  obtain ⟨hlt, -⟩ := List.getElem?_eq_some_iff.1 hc
  have haddress := (h.owner hc).2
  rw [Reading.recorded?]
  refine (if_pos (h.cells_eq ▸ hlt)).trans (find?_eq_some_of_unique ?_ (by simp) ?_)
  · have hentry := OrderedMap.get?_eq_some_iff.1 (hrec.get?.trans hq)
    refine List.mem_map.2 ⟨_, hentry, ?_⟩
    show Crossing.mk _ _ (l.addresses.get? b) = _
    rw [haddress]
  · intro y hy hcell
    obtain ⟨⟨t, pos⟩, hentry, rfl⟩ := List.mem_map.1 hy
    have hget : l.addresses.get? t.boundary = some (.atCell c) := by simpa using hcell
    obtain ⟨haction, hlast⟩ := hrec.eq_some (OrderedMap.get?_eq_some_iff.2 hentry)
    obtain ⟨s, hs, hmem⟩ := mem_of_lastCrossing? hlast
    have howner := h.owner_of_atCell hget (hs ▸ hkept _ hmem)
    rw [hc] at howner
    obtain rfl := Option.some.inj howner
    rw [hq] at hlast
    obtain rfl := Option.some.inj hlast
    subst haction
    show Crossing.mk t q (l.addresses.get? t.boundary) = _
    rw [hget]

theorem Settled.exists_recorded_of_cellsAfter (h : Settled usage clause l events os)
    (hrec : Records action marks markers)
    (hkept : ∀ e ∈ marks, e.1.boundary ∉ resolvedBoundaries events)
    (hq : l.cellsAfter marks c = some q) :
    ∃ x, (Reading.ofMarkers l w markers).recorded? c = some x ∧ x.position = q := by
  obtain ⟨b, hb, hlast⟩ := h.owner_of_cellsAfter hkept hq
  exact ⟨_, h.recorded?_eq hrec hkept hb hlast, rfl⟩

/-- Every recorded tag is one that a capture depends on. -/
theorem Settled.unusedTags_eq_nil (h : Settled usage clause l events os)
    (hrec : Records action marks markers)
    (hkept : ∀ e ∈ marks, e.1.boundary ∉ resolvedBoundaries events) {names : OrderedSet String}
    (hnames : ∀ e ∈ marks, e.1.boundary.name ∈ names ∧ e.1.boundary.name ∈ usage.bound ∧
      (e.1.boundary.side = .closing → e.1.boundary.name ∉ usage.charNames)) :
    (Reading.ofMarkers l w markers).unusedTags names = [] := by
  refine List.filter_eq_nil_iff.2 fun t ht => ?_
  obtain ⟨_, hx, rfl⟩ := List.mem_map.1 ht
  obtain ⟨⟨t, pos⟩, hentry, rfl⟩ := List.mem_map.1 hx
  obtain ⟨rfl, hlast⟩ := hrec.eq_some (OrderedMap.get?_eq_some_iff.2 hentry)
  obtain ⟨s, hs, hmem⟩ := mem_of_lastCrossing? hlast
  have hname := hnames _ hmem
  have hres := hkept _ hmem
  rw [hs] at hname hres
  obtain ⟨hin, hbound, hside⟩ := hname
  obtain ⟨capture, hcapture, a, ha, hget⟩ := h.exists_capture hbound hside
  obtain ⟨c, hc, rfl⟩ := h.atCell (h.mem_owners hget hres) hget
  have hrecorded := @Settled.recorded?_eq _ _ _ _ _ _ _ _ _ _ _ w h hrec hkept hc hlast
  have hused : t ∈ (Reading.ofMarkers l w markers).tagsOf t.boundary.name := by
    rw [Reading.tagsOf]
    simp only [Reading.ofMarkers]
    rw [hcapture]
    refine List.mem_filterMap.2 ⟨_, ha, ?_⟩
    show ((Reading.ofMarkers l w markers).recorded? c).map Crossing.tag = some t
    rw [hrecorded]
    rfl
  simpa using ⟨t.boundary.name, hin, hused⟩

end Layout

namespace Reading

variable {r : Reading} {cells : Nat → Option Nat} {p : Nat} {c : Capture} {s bound : Span}
  {name : String}

/-- An address is followed if its cell has an owner, to the position that it resolves to. -/
theorem position_eq_ok_iff :
    r.position a = .ok p ↔
      r.isUnowned a = false ∧ a.resolve? 0 r.text.length r.cellPosition? = some p := by
  rw [position]
  cases r.isUnowned a with
  | true =>
      refine ⟨fun h => ?_, fun h => ?_⟩
      · cases h
      · cases h.1
  | false =>
      rw [if_neg Bool.false_ne_true]
      cases a.resolve? 0 r.text.length r.cellPosition? with
      | none =>
          refine ⟨fun h => ?_, fun h => ?_⟩
          · cases h
          · cases h.2
      | some i => exact ⟨fun h => ⟨rfl, congrArg some (Except.ok.inj h)⟩,
          fun h => congrArg Except.ok (Option.some.inj h.2)⟩

/-- An address is followed to where it leads, if the cells are those of the reading. -/
theorem position_eq_ok
    (hcells : ∀ c q, cells c = some q → ∃ x, r.recorded? c = some x ∧ x.position = q)
    (h : a.LeadsTo 0 r.text.length cells p) (hp : p ≤ maxPosition) : r.position a = .ok p := by
  have hfollow : r.isUnowned a = false ∧
      a.locate? 0 r.text.length r.cellPosition? = some p := by
    obtain ⟨anchor, offset⟩ := a
    cases anchor with
    | matchStart | matchEnd => exact ⟨rfl, h.1⟩
    | cell c =>
        obtain ⟨q, hq, hoffset⟩ := Option.map_eq_some_iff.1 h.1
        obtain ⟨x, hx, rfl⟩ := hcells c q hq
        refine ⟨?_, ?_⟩
        · show (r.recorded? c).isNone = false
          rw [hx]
          rfl
        · show ((r.recorded? c).map Crossing.position).map (· + offset) = some p
          rw [hx]
          exact congrArg some hoffset
  exact position_eq_ok_iff.2 ⟨hfollow.1, (Address.leadsTo_of_locate? hfollow.2).2 hp⟩

theorem span_eq :
    r.span c = r.position c.start >>= fun i =>
      c.stop?.elim (.ok (i + 1)) r.position >>= fun j =>
        if i ≤ j ∧ j ≤ r.text.length then .ok ⟨i, j⟩
        else .error (.outOfBounds r.text.decode (c.stop?.getD c.start)) := by
  rw [span]
  cases c.stop? <;> rfl

/-- A capture stands for a span if both of its addresses are followed to the ends, and the span
lies in the text. -/
theorem span_eq_ok_iff :
    r.span c = .ok s ↔
      r.position c.start = .ok s.start ∧
      (∀ a, c.stop? = some a → r.position a = .ok s.stop) ∧
      (c.stop? = none → s.stop = s.start + 1) ∧
      s.start ≤ s.stop ∧ s.stop ≤ r.text.length := by
  rw [span_eq]
  constructor
  · intro h
    obtain ⟨i, hi, h⟩ := bind_eq_ok.1 h
    obtain ⟨j, hj, h⟩ := bind_eq_ok.1 h
    obtain ⟨hbounds, rfl⟩ := ite_eq_ok.1 h
    refine ⟨hi, fun a ha => ?_, fun hnone => ?_, hbounds⟩
    · rwa [ha] at hj
    · rw [hnone] at hj
      exact (Except.ok.inj hj).symm
  · rintro ⟨hi, hstop, hunit, hbounds⟩
    refine bind_eq_ok.2 ⟨s.start, hi, bind_eq_ok.2 ⟨s.stop, ?_, ite_eq_ok.2 ⟨hbounds, rfl⟩⟩⟩
    cases hc : c.stop? with
    | none => exact congrArg Except.ok (hunit hc).symm
    | some a => exact hstop a hc

theorem checkBinding_eq {c : Capture} (hc : r.layout.captures.get? name = some c) :
    r.checkBinding name bound = r.span c >>= fun s =>
      if checkBinding.cut r s = checkBinding.cut r bound then .ok ()
      else .error (.bindingMismatch r.text.decode name (checkBinding.cut r bound).decode
        (checkBinding.cut r s).decode) := by
  rw [checkBinding, hc]
  rfl

/-- A name passes if its capture stands for a span with the text that the pattern binds. -/
theorem checkBinding_eq_ok_iff :
    r.checkBinding name bound = .ok () ↔
      ∃ c s, r.layout.captures.get? name = some c ∧ r.span c = .ok s ∧
        checkBinding.cut r s = checkBinding.cut r bound := by
  cases hc : r.layout.captures.get? name with
  | none =>
      rw [checkBinding, hc]
      constructor
      · intro h
        cases h
      · rintro ⟨c, s, hc, -⟩
        cases hc
  | some c =>
      rw [checkBinding_eq hc, bind_eq_ok]
      constructor
      · rintro ⟨s, hs, h⟩
        exact ⟨c, s, rfl, hs, (ite_eq_ok.1 h).1⟩
      · rintro ⟨_, s, hc, hs, htext⟩
        cases hc
        exact ⟨s, hs, ite_eq_ok.2 ⟨htext, rfl⟩⟩

end Reading

/-- A text that both forms match passes if its names do, and if its tags are all in use. -/
theorem Layout.check_eq {pool : Pool} {p : Pattern} {bindings : OrderedMap String Span}
    (hsource : p.firstMatch? w = some bindings)
    (hleft : l.regular.firstMatch? pool w = some markers) :
    l.check pool p w =
      bindings.entries.forM (fun e => (Reading.ofMarkers l w markers).checkBinding e.1 e.2) >>=
        fun _ =>
          if ((Reading.ofMarkers l w markers).unusedTags bindings.keys).isEmpty then .ok ()
          else .error (.unusedTags w.decode (", ".intercalate
            (((Reading.ofMarkers l w markers).unusedTags bindings.keys).map toString))) := by
  rw [check, hsource, hleft]
  rfl

end LexTags
