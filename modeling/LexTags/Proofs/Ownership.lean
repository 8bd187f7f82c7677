import LexTags.Proofs.Compilation
import Mathlib.Data.Set.Function
import Mathlib.Order.Interval.Set.Defs

/-!
# Every cell has one owner

Addresses are entered by the two passes that count from the ends of the match, by the pass
that gives out cells, and last for the captures. All of them write into one map, and a layout
is only of use if they do not get in each other's way: each end of a bound name has an address,
each cell belongs to one boundary, and the boundaries that own cells are those that are still
marked, as only a mark fills a cell.

A boundary that is not marked any more has been decided on by a pass. If it is found by a cell
then the cell was given out by the same pass, so its owner is crossed in every match.
-/

namespace LexTags

namespace Layout

/-- The boundaries that are still marked. -/
def marked (l : Layout) : Set Boundary := {b | ∃ t ∈ l.regular.tags, t.boundary = b}

/-- Which boundaries a layout has addresses for, and how its cells are shared out. -/
structure WellAddressed (usage : Usage) (l : Layout) : Prop where
  captures_keys : l.captures.keys = usage.bound
  mem_keys : ∀ b, b ∈ l.addresses.keys ↔
    b.name ∈ usage.bound ∧ (b.side = .closing → b.name ∉ usage.charNames)
  /-- Each cell has one owner, and the owners are the boundaries that are still marked. -/
  bijOn : Set.BijOn l.cellOwner? (Set.Iio l.cells) (some '' l.marked)
  get?_owner : ∀ c b, l.cellOwner? c = some b → l.addresses.get? b = some (.atCell c)
  cellOwner?_of_le : ∀ c, l.cells ≤ c → l.cellOwner? c = none
  /-- What is not marked is found from an end of the match, or from a cell whose owner is
  crossed once in every match. -/
  unmarked : ∀ b a, l.addresses.get? b = some a → b ∉ l.marked →
    ∃ k, a = .afterStart k ∨ a = .beforeEnd k ∨ ∃ c, a = ⟨.cell c, k⟩ ∧
      ∃ t ∈ l.regular.openTags, l.cellOwner? c = some t.boundary ∧
        t.boundary.name ∉ usage.repeated

variable {usage : Usage} {clause : Tagged} {l : Layout} {events : List Event}
  {more : List Boundary} {b : Boundary} {a : Address}

theorem mem_marked : b ∈ l.marked ↔ b ∈ boundaries l.regular.spine :=
  mem_boundaries_spine.symm

/-- The map has an address for each end of a bound name, and for no other boundary. -/
theorem Account.mem_keys_iff (h : Account usage clause l events more)
    (hd : Describes usage clause) :
    b ∈ l.addresses.keys ↔
      b.name ∈ usage.bound ∧ (b.side = .closing → b.name ∉ usage.charNames) := by
  rw [h.mem_keys]
  refine ⟨fun hb => ?_, fun hb => .inr ⟨b.name, hb.1, rfl, hb.2⟩⟩
  rcases hb with hplaced | ⟨name, hname, rfl, hside⟩
  · obtain ⟨t, ht, rfl, -⟩ := (mem_singles_spine clause).1 (h.placed_perm.subset hplaced)
    have hmem := Tagged.mem_tags_of_mem_openTags ht
    exact ⟨hd.bound t hmem, hd.closing t hmem⟩
  · exact ⟨hname, hside⟩

/-- If the clause marks every boundary that is to have an address, the map has the boundaries
that are marked. -/
theorem Account.mem_keys_iff_boundaries (h : Account usage clause l events more)
    (hd : Describes usage clause)
    (hmarks : ∀ b : Boundary, b.name ∈ usage.bound →
      (b.side = .closing → b.name ∉ usage.charNames) → ∃ t ∈ clause.tags, t.boundary = b)
    (b : Boundary) : b ∈ l.addresses.keys ↔ b ∈ boundaries clause.spine := by
  rw [h.mem_keys_iff hd, mem_boundaries_spine]
  refine ⟨fun hb => hmarks b hb.1 hb.2, ?_⟩
  rintro ⟨t, ht, rfl⟩
  exact ⟨hd.bound t ht, hd.closing t ht⟩

/-- What owns a cell was not resolved. -/
theorem Account.notMem_resolved (h : Account usage clause l events more)
    (hone : SinglesOnce usage clause.spine) (hb : b ∈ owners events ++ more) :
    b ∉ resolvedBoundaries events := by
  intro hres
  rcases List.mem_append.1 hb with howner | hmore
  · have hnodup := (placements_perm events).nodup_iff.2 (h.placed_perm.nodup_iff.2 hone.nodup)
    exact (List.nodup_append.1 hnodup).2.2 b howner b hres rfl
  · have hplaced := (placements_perm events).subset (List.mem_append_right _ hres)
    have hnodup := l.addresses.keys.nodup
    rw [h.keys] at hnodup
    exact (List.nodup_append.1 hnodup).2.2 b hplaced b hmore rfl

/-- Cells belong to the boundaries that are still marked, if the clause marks the boundaries
that have addresses. -/
theorem Account.mem_owners_iff (h : Account usage clause l events more)
    (hone : SinglesOnce usage clause.spine)
    (hkeys : ∀ b, b ∈ l.addresses.keys ↔ b ∈ boundaries clause.spine) :
    b ∈ owners events ++ more ↔ b ∈ l.marked := by
  rw [mem_marked]
  refine ⟨fun hb => ?_, fun hb => ?_⟩
  · have hkey : b ∈ l.addresses.keys.toList := by
      rw [h.keys]
      rcases List.mem_append.1 hb with howner | hmore
      · exact List.mem_append_left _
          ((placements_perm events).subset (List.mem_append_left _ howner))
      · exact List.mem_append_right _ hmore
    have hclause := h.decides.left_perm.symm.subset ((hkeys b).1 hkey)
    exact (List.mem_append.1 hclause).resolve_left (h.notMem_resolved hone hb)
  · have hclause := h.decides.left_perm.subset (List.mem_append_right _ hb)
    have hkey : b ∈ l.addresses.keys.toList := (hkeys b).2 hclause
    rw [h.keys] at hkey
    rcases List.mem_append.1 hkey with hplaced | hmore
    · have hdecided := (placements_perm events).symm.subset hplaced
      exact List.mem_append_left _
        ((List.mem_append.1 hdecided).resolve_right (h.decides.notMem hone b hb))
    · exact List.mem_append_right _ hmore

/-- A boundary that a pass gives a cell is marked by an open tag, and by no other. -/
theorem Account.exists_openTag (h : Account usage clause l events more)
    (hone : SinglesOnce usage clause.spine) (hb : b ∈ owners events) :
    ∃ t ∈ l.regular.openTags, t.boundary = b ∧ b.name ∉ usage.repeated := by
  have hplaced := (placements_perm events).subset (List.mem_append_left _ hb)
  have hsingle := h.decides.singles_perm.symm.subset (h.placed_perm.subset hplaced)
  have hleft := (List.mem_append.1 hsingle).resolve_left
    (h.notMem_resolved hone (List.mem_append_left _ hb))
  obtain ⟨t, ht, rfl, hrep⟩ := (mem_singles_spine l.regular).1 hleft
  exact ⟨t, ht, rfl, of_decide_eq_false hrep⟩

/-- A cell that has not been given out belongs to nobody. -/
theorem Account.cellOwner?_eq_none (h : Account usage clause l events more) {c : Nat}
    (hc : l.cells ≤ c) : l.cellOwner? c = none := by
  rw [cellOwner?, Option.map_eq_none_iff, List.find?_eq_none]
  intro e he heq
  have hanchor : e.2.anchor = .cell c := by
    rw [of_decide_eq_true heq]
    rfl
  exact absurd hc (Nat.not_le.2 (h.lt_cells he hanchor))

theorem Account.exists_owner (h : Account usage clause l events more) {c : Nat}
    (hc : c < l.cells) :
    ∃ b ∈ owners events ++ more, l.cellOwner? c = some b ∧
      l.addresses.get? b = some (.atCell c) := by
  rw [h.settled.cells_eq] at hc
  have howner := List.getElem?_eq_getElem hc
  exact ⟨_, List.getElem_mem hc, h.settled.owner howner⟩

/-- The owner of a cell is found there. -/
theorem Account.get?_of_cellOwner? (h : Account usage clause l events more) {c : Nat}
    (hc : l.cellOwner? c = some b) : l.addresses.get? b = some (.atCell c) := by
  have hlt : c < l.cells := by
    refine Nat.lt_of_not_le fun hle => ?_
    rw [h.cellOwner?_eq_none hle] at hc
    cases hc
  obtain ⟨o, -, ho, hget⟩ := h.exists_owner hlt
  rw [hc] at ho
  exact Option.some.inj ho ▸ hget

/-- A clause that marks every boundary with an address is laid out well. -/
theorem Account.wellAddressed (h : Account usage clause l events more)
    (hd : Describes usage clause)
    (hmarks : ∀ b : Boundary, b.name ∈ usage.bound →
      (b.side = .closing → b.name ∉ usage.charNames) → ∃ t ∈ clause.tags, t.boundary = b) :
    l.WellAddressed usage := by
  have hone := hd.singlesOnce
  have hset := h.settled
  have hkeys := h.mem_keys_iff_boundaries hd hmarks
  refine ⟨h.captures_keys, fun b => h.mem_keys_iff hd, ⟨?mapsTo, ?injOn, ?surjOn⟩,
    fun c b => h.get?_of_cellOwner?, fun c => h.cellOwner?_eq_none, fun b a ha hb => ?unmarked⟩
  case mapsTo =>
    intro c hc
    obtain ⟨b, hb, howner, -⟩ := h.exists_owner hc
    exact ⟨b, (h.mem_owners_iff hone hkeys).1 hb, howner.symm⟩
  case injOn =>
    intro c hc c' hc' heq
    obtain ⟨b, -, howner, hget⟩ := h.exists_owner hc
    rw [h.get?_of_cellOwner? (heq.symm.trans howner)] at hget
    cases hget
    rfl
  case surjOn =>
    rintro _ ⟨b, hb, rfl⟩
    obtain ⟨c, hc⟩ := List.mem_iff_getElem?.1 ((h.mem_owners_iff hone hkeys).2 hb)
    obtain ⟨hlt, -⟩ := List.getElem?_eq_some_iff.1 hc
    exact ⟨c, hset.cells_eq ▸ hlt, (hset.owner hc).1⟩
  case unmarked =>
    have hnot := mt (h.mem_owners_iff hone hkeys).1 hb
    obtain ⟨anchor, k⟩ := a
    refine ⟨k, ?_⟩
    cases anchor with
    | matchStart => exact .inl rfl
    | matchEnd => exact .inr (.inl rfl)
    | cell c =>
        -- The address comes from a pass, as the captures only give out cells.
        rcases hset.other ha with hplaced | ⟨howner, -⟩
        · have hlt := h.cell_lt _ hplaced c rfl
          have hc := List.getElem?_eq_getElem hlt
          obtain ⟨t, ht, hb, hrep⟩ := h.exists_openTag hone (List.getElem_mem hlt)
          refine .inr (.inr ⟨c, rfl, t, ht, ?_, hb ▸ hrep⟩)
          rw [hb]
          exact (hset.owner ((List.getElem?_append_left hlt).trans hc)).1
        · exact absurd howner hnot

end Layout

namespace Session

open Pattern

/-- Every clause compiles to a layout whose captures are the names of the pattern in the order
in which they are first met, and whose addresses and cells are in order. -/
theorem compileClause_wellAddressed (config : Config) (action : Nat) (p : Pattern)
    (s : Session) :
    ∃ layout s', (compileClause config action p).run.run s = (.ok layout, s') ∧
      layout.captures.keys.toList = p.withoutShadowed.names.eraseDups ∧
      layout.WellAddressed p.withoutShadowed.usage := by
  have hd := describes_encodeFrom p.withoutShadowed action s.pool.size
  obtain ⟨layout, trace, events, more, hlayout, haccount⟩ := hd.account config.optimise
  have hrun := compileClause_run config action p s
  rw [hlayout] at hrun
  refine ⟨layout, _, hrun, ?_, haccount.wellAddressed hd fun b hname hside => ?_⟩
  · rw [haccount.captures_keys, toList_bound]
  · exact exists_tag_encodeFrom (mem_bound_iff.1 hname) hside

end Session

end LexTags
