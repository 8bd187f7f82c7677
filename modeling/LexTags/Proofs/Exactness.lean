import LexTags.Proofs.Layout

/-!
# A layout loses no position

After a match of what is left of a clause, each cell holds the last position of the boundary
that owns it. With these cells the address of a boundary leads to the place where the match
of the whole clause crossed it last, and to no place if it was not crossed.

This is stated for any usage that describes the clause: every marked name is known, a name of
one unit is not closed, and an open tag of a name that is not repeated is the only tag of its
boundary. The conditions are on where tags stand, so they can be met by a usage that was not
computed from a pattern.
-/

namespace LexTags

/-- The address stands for the position, and is resolved to it if it is within range. -/
def Address.LeadsTo (start stop : Nat) (cells : Nat → Option Nat) (a : Address) (p : Nat) :
    Prop :=
  a.locate? start stop cells = some p ∧
    (p ≤ maxPosition → a.resolve? start stop cells = some p)

theorem Address.leadsTo_of_locate? {start stop p : Nat} {cells : Nat → Option Nat}
    {a : Address} (h : a.locate? start stop cells = some p) : a.LeadsTo start stop cells p := by
  refine ⟨h, fun hle => ?_⟩
  rw [resolve?, h]
  exact if_pos (decide_eq_true hle)

namespace Layout

/-- The positions in the cells after a match, from the log of what is left of the clause. -/
def cellsAfter (l : Layout) (marks : List (Tag × Nat)) (cell : Nat) : Option Nat :=
  (l.cellOwner? cell).bind (lastCrossing? marks)

/-- The addresses of a layout lead to the last crossings of a match of the clause, with the
cells that the match of what is left of it has filled. -/
structure Recovers (l : Layout) (start stop : Nat) (log marks : List (Tag × Nat)) : Prop where
  crossed : ∀ {b p}, lastCrossing? log b = some p →
    ∃ a, l.addresses.get? b = some a ∧ a.LeadsTo start stop (l.cellsAfter marks) p
  uncrossed : ∀ {b a}, lastCrossing? log b = none → l.addresses.get? b = some a →
    a.locate? start stop (l.cellsAfter marks) = none

variable {usage : Usage} {clause : Tagged} {l : Layout} {events : List Event}
  {os : List Boundary} {pool : Pool} {w : Text} {i j : Nat} {log : List (Tag × Nat)}
  {b : Boundary} {a : Address}

/-- A cell holds the last position of its owner. -/
theorem Settled.cellsAfter_eq (h : Settled usage clause l events os) {c : Nat}
    (hc : os[c]? = some b) (hb : b ∉ resolvedBoundaries events) :
    l.cellsAfter (withoutCrossings (resolvedBoundaries events) log) c = lastCrossing? log b := by
  rw [cellsAfter, (h.owner hc).1]
  exact lastCrossing?_withoutCrossings hb

theorem Settled.atCell (h : Settled usage clause l events os) (hb : b ∈ os)
    (ha : l.addresses.get? b = some a) : ∃ c, os[c]? = some b ∧ a = .atCell c := by
  obtain ⟨c, hc⟩ := List.mem_iff_getElem?.1 hb
  have hget := (h.owner hc).2
  rw [ha] at hget
  exact ⟨c, hc, Option.some.inj hget⟩

/-- Where a boundary owns the cell it is found at, its address leads to its last crossing. -/
theorem Settled.locate?_of_mem (h : Settled usage clause l events os) (hb : b ∈ os)
    (hres : b ∉ resolvedBoundaries events) (ha : l.addresses.get? b = some a) :
    a.locate? i j (l.cellsAfter (withoutCrossings (resolvedBoundaries events) log)) =
      lastCrossing? log b := by
  obtain ⟨c, hc, rfl⟩ := h.atCell hb ha
  show (l.cellsAfter _ c).map (· + 0) = _
  rw [h.cellsAfter_eq hc hres]
  cases lastCrossing? log b <;> rfl

/-- A placed boundary is crossed in one place, and its address leads there. -/
theorem Settled.locate?_of_placed (h : Settled usage clause l events os)
    (hone : SinglesOnce usage clause.spine) (hr : clause.Reads pool w i j log)
    (hp : (b, a) ∈ placements events) :
    a.locate? i j (l.cellsAfter (withoutCrossings (resolvedBoundaries events) log)) =
      lastCrossing? log b := by
  have hlast : ∀ {b a c}, (b, a) ∈ placements events → c ∈ log → c.1.boundary = b →
      lastCrossing? log b = some c.2 := by
    intro b a c hp hc hcb
    have hb : b ∈ singles usage clause.spine :=
      h.placed_perm.subset (List.mem_map.2 ⟨_, hp, rfl⟩)
    refine lastCrossing?_of_unique hc hcb fun d hd hdb => ?_
    exact crossing_unique (Tagged.reads_iff_readsAll_spine.1 hr) hb (hone b hb) hd hdb hc hcb
  have hnodup := h.placed_perm.nodup_iff.2 hone.nodup
  obtain ⟨-, -, hdisj⟩ :=
    List.nodup_append.1 ((placements_perm events).nodup_iff.2 hnodup)
  obtain ⟨c, hc, hcb, hloc⟩ := h.decides.placed
    (l.cellsAfter (withoutCrossings (resolvedBoundaries events) log)) hr
    (fun o s hs c hc hcb => by
      obtain ⟨hplaced, howner⟩ := mem_placements_of_stored hs
      have hres : o ∉ resolvedBoundaries events := fun hmem => hdisj o howner o hmem rfl
      rw [h.locate?_of_mem (h.owners_subset o howner) hres (h.get?_placement _ hplaced)]
      exact hlast hplaced hc hcb) _ hp
  rw [hloc]
  exact (hlast hp hc hcb).symm

/-- Every address of a settled layout is exact. -/
theorem Settled.locate?_eq (h : Settled usage clause l events os)
    (hone : SinglesOnce usage clause.spine) (hr : clause.Reads pool w i j log)
    (ha : l.addresses.get? b = some a) :
    a.locate? i j (l.cellsAfter (withoutCrossings (resolvedBoundaries events) log)) =
      lastCrossing? log b := by
  rcases h.other ha with hp | ⟨hb, hnew⟩
  · exact h.locate?_of_placed hone hr hp
  · refine h.locate?_of_mem hb (fun hres => hnew ?_) ha
    exact (placements_perm events).subset (List.mem_append_right _ hres)

/-- Where every marked boundary has an address, a layout recovers every match. -/
theorem Settled.recovers (h : Settled usage clause l events os)
    (hone : SinglesOnce usage clause.spine)
    (hcover : ∀ t ∈ clause.tags, ∃ a, l.addresses.get? t.boundary = some a)
    (hr : clause.Reads pool w i j log) :
    l.Recovers i j log (withoutCrossings (resolvedBoundaries events) log) := by
  refine ⟨fun {b p} hp => ?_, fun hnone ha => ?_⟩
  · obtain ⟨t, rfl, ht⟩ := mem_of_lastCrossing? hp
    obtain ⟨a, ha⟩ := hcover t (hr.mem_tags ht)
    have hloc := h.locate?_eq hone hr ha
    rw [hp] at hloc
    exact ⟨a, ha, Address.leadsTo_of_locate? hloc⟩
  · rw [h.locate?_eq hone hr ha, hnone]

/-! ## Every marked boundary has an address -/

/-- Each boundary that can be marked is found at an address of its capture. -/
theorem Settled.exists_capture (h : Settled usage clause l events os)
    (hname : b.name ∈ usage.bound)
    (hside : b.side = .closing → b.name ∉ usage.charNames) :
    ∃ c, l.captures.get? b.name = some c ∧
      ∃ a ∈ c.start :: c.stop?.toList, l.addresses.get? b = some a := by
  obtain ⟨name, side⟩ := b
  rw [← h.captures_keys] at hname
  obtain ⟨e, he, rfl⟩ := List.mem_map.1 hname
  have hget := OrderedMap.get?_eq_some_iff.2 he
  have hcap := h.captures hget
  refine ⟨e.2, hget, ?_⟩
  cases side with
  | opening => exact ⟨_, List.mem_cons_self, hcap.start⟩
  | closing =>
      obtain ⟨a, hstop, ha⟩ := hcap.stop (hside rfl)
      exact ⟨a, List.mem_cons_of_mem _ (Option.mem_toList.2 hstop), ha⟩

theorem Settled.exists_address (h : Settled usage clause l events os)
    (hname : b.name ∈ usage.bound)
    (hside : b.side = .closing → b.name ∉ usage.charNames) :
    ∃ a, l.addresses.get? b = some a := by
  obtain ⟨_, -, a, -, ha⟩ := h.exists_capture hname hside
  exact ⟨a, ha⟩

theorem faultIn?_eq_none {printed : String} (p : Tagged) (hactions : p.hasActions = false)
    (hnames : ∀ t ∈ p.tags, t.boundary.name ∈ usage.bound) :
    faultIn? usage printed p = none := by
  induction p with
  | epsilon | chars _ | eof _ => rfl
  | action _ => cases hactions
  | tag t =>
      rw [faultIn?, if_pos (hnames t (List.mem_singleton_self t))]
  | alt l r ihl ihr =>
      rw [Tagged.hasActions, Bool.or_eq_false_iff] at hactions
      rw [faultIn?, ihl hactions.1 fun t ht => hnames t (List.mem_append_left _ ht),
        ihr hactions.2 fun t ht => hnames t (List.mem_append_right _ ht)]
      rfl
  | seq a b iha ihb =>
      rw [Tagged.hasActions, Bool.or_eq_false_iff] at hactions
      rw [faultIn?, iha hactions.1 fun t ht => hnames t (List.mem_append_left _ ht),
        ihb hactions.2 fun t ht => hnames t (List.mem_append_right _ ht)]
      rfl
  | star p ih => exact ih hactions hnames

theorem mem_singles_spine (p : Tagged) :
    b ∈ singles usage p.spine ↔
      ∃ t ∈ p.openTags, t.boundary = b ∧ usage.isRepeated b.name = false := by
  rw [singles, List.mem_filterMap]
  refine ⟨fun h => ?_, fun h => ?_⟩
  · obtain ⟨x, hx, hb⟩ := h
    rcases tag_cases usage x with hnot | ⟨t, rfl, ht⟩ | ⟨t, rfl, ht⟩
    · cases x with
      | tag t => exact absurd rfl (hnot t)
      | _ => cases hb
    · simp [ht] at hb
    · simp only [ht, Bool.false_eq_true, if_false, Option.some.injEq] at hb
      exact ⟨t, Tagged.mem_openTags_iff.2 hx, hb, hb ▸ ht⟩
  · obtain ⟨t, ht, rfl, hrep⟩ := h
    exact ⟨.tag t, Tagged.mem_openTags_iff.1 ht, by simp [hrep]⟩

theorem mem_boundaries_spine {p : Tagged} :
    b ∈ boundaries p.spine ↔ ∃ t ∈ p.tags, t.boundary = b := by
  rw [boundaries, Tagged.tags_spine, List.mem_map]

/-- Open tags that are the only ones of their boundary stand once on the spine. -/
theorem singlesOnce_spine (h : ∀ t ∈ clause.openTags, t.boundary.name ∉ usage.repeated →
    (clause.tags.map Tag.boundary).count t.boundary = 1) : SinglesOnce usage clause.spine := by
  intro b hb
  obtain ⟨t, ht, rfl, hrep⟩ := (mem_singles_spine clause).1 hb
  rw [boundaries, Tagged.tags_spine]
  exact h t ht (of_decide_eq_false hrep)

/-- A clause without actions that marks known names only has a layout. -/
theorem layout_eq_ok (optimise : Bool) (hactions : clause.hasActions = false)
    (hbound : ∀ t ∈ clause.tags, t.boundary.name ∈ usage.bound) :
    clause.layout usage optimise =
      let done := (compute usage optimise clause).run default
      .ok (done.1, done.2.trace) := by
  rw [Tagged.layout, faultIn?_eq_none clause hactions hbound]
  rfl

/-- What the layout asks of a clause and the usage of its names. -/
structure Describes (usage : Usage) (clause : Tagged) : Prop where
  no_actions : clause.hasActions = false
  bound : ∀ t ∈ clause.tags, t.boundary.name ∈ usage.bound
  closing : ∀ t ∈ clause.tags, t.boundary.side = .closing →
    t.boundary.name ∉ usage.charNames
  once : ∀ t ∈ clause.openTags, t.boundary.name ∉ usage.repeated →
    (clause.tags.map Tag.boundary).count t.boundary = 1

theorem Describes.singlesOnce (h : Describes usage clause) :
    SinglesOnce usage clause.spine :=
  singlesOnce_spine h.once

/-- A clause that the usage describes has a layout. -/
theorem Describes.layout_eq (h : Describes usage clause) (optimise : Bool) :
    clause.layout usage optimise =
      let done := (compute usage optimise clause).run default
      .ok (done.1, done.2.trace) :=
  layout_eq_ok optimise h.no_actions h.bound

/-- The layout can be accounted for. -/
theorem Describes.account (h : Describes usage clause) (optimise : Bool) :
    ∃ layout trace events more, clause.layout usage optimise = .ok (layout, trace) ∧
      Account usage clause layout events more := by
  obtain ⟨-, more, haccount⟩ := compute_account optimise h.singlesOnce
  exact ⟨_, _, _, more, h.layout_eq optimise, haccount⟩

theorem Describes.layout (h : Describes usage clause) (optimise : Bool) :
    ∃ layout trace events os, clause.layout usage optimise = .ok (layout, trace) ∧
      Settled usage clause layout events os := by
  obtain ⟨layout, trace, events, more, hlayout, haccount⟩ := h.account optimise
  exact ⟨layout, trace, events, _, hlayout, haccount.settled⟩

theorem Settled.recovers_of_describes (h : Settled usage clause l events os)
    (hd : Describes usage clause) (hr : clause.Reads pool w i j log) :
    l.Recovers i j log (withoutCrossings (resolvedBoundaries events) log) :=
  h.recovers hd.singlesOnce
    (fun t ht => h.exists_address (hd.bound t ht) (hd.closing t ht)) hr

/-- Laying out a clause that the usage describes keeps its matches in both directions, with
the last crossing of every boundary. -/
theorem layout_recovers (usage : Usage) (optimise : Bool) (clause : Tagged)
    (hactions : clause.hasActions = false)
    (hbound : ∀ t ∈ clause.tags, t.boundary.name ∈ usage.bound)
    (hclosing : ∀ t ∈ clause.tags, t.boundary.side = .closing →
      t.boundary.name ∉ usage.charNames)
    (honce : ∀ t ∈ clause.openTags, t.boundary.name ∉ usage.repeated →
      (clause.tags.map Tag.boundary).count t.boundary = 1) :
    ∃ layout trace, clause.layout usage optimise = .ok (layout, trace) ∧
      ∀ (pool : Pool) (w : Text) (i j : Nat),
        (∀ log, clause.Reads pool w i j log →
          ∃ marks, layout.regular.Reads pool w i j marks ∧ layout.Recovers i j log marks) ∧
        (∀ marks, layout.regular.Reads pool w i j marks →
          ∃ log, clause.Reads pool w i j log ∧ layout.Recovers i j log marks) := by
  have hd : Describes usage clause := ⟨hactions, hbound, hclosing, honce⟩
  obtain ⟨layout, trace, events, os, hlayout, hsettled⟩ := hd.layout optimise
  refine ⟨layout, trace, hlayout, fun pool w i j => ⟨fun log hr => ?_, fun marks hr => ?_⟩⟩
  · exact ⟨_, hsettled.decides.reads hr, hsettled.recovers_of_describes hd hr⟩
  · obtain ⟨log, hlog, rfl⟩ := hsettled.decides.exists_reads hr
    exact ⟨log, hlog, hsettled.recovers_of_describes hd hlog⟩

/-- In `a*<x>ba*` the tag can be placed neither by the start nor by the end, and its cell
leads to where it was crossed. -/
theorem layout_recovers_cell :
    ∃ layout trace marks,
      (Tagged.seq (.star (.chars 0))
          (.seq (.tag ⟨.opening "x", 0⟩) (.seq (.chars 1) (.star (.chars 0))))).layout
        ⟨⟨["x"], by decide⟩, .empty, .empty, ⟨["x"], by decide⟩, .empty⟩ true =
          .ok (layout, trace) ∧
      layout.regular.Reads #[.single 97, .single 98] [97, 98] 0 2 marks ∧
      layout.Recovers 0 2 [(⟨.opening "x", 0⟩, 1)] marks := by
  obtain ⟨layout, trace, hlayout, h⟩ := layout_recovers
    ⟨⟨["x"], by decide⟩, .empty, .empty, ⟨["x"], by decide⟩, .empty⟩ true
    (.seq (.star (.chars 0))
      (.seq (.tag ⟨.opening "x", 0⟩) (.seq (.chars 1) (.star (.chars 0)))))
    rfl (by decide) (by decide) (by decide)
  have hstar : Tagged.Reads #[.single 97, .single 98] [97, 98] (.star (.chars 0)) 0 1 [] :=
    .starCons (.chars rfl rfl (by decide)) (.starNil (by decide))
  have hunit : Tagged.Reads #[.single 97, .single 98] [97, 98] (.chars 1) 1 2 [] :=
    .chars rfl rfl (by decide)
  have hclause := Tagged.Reads.seq hstar
    (.seq (.tag (t := ⟨.opening "x", 0⟩) (by decide))
      (.seq hunit (.starNil (p := .chars 0) (by decide))))
  obtain ⟨marks, hr, hrec⟩ := (h _ _ 0 2).1 _ hclause
  exact ⟨layout, trace, marks, hlayout, hr, hrec⟩

end Layout

end LexTags
