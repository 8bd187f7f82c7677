import LexTags.Proofs.Placement

/-!
# The layout of a clause is exact

The passes run one after the other, and each is described in the same terms: the events it
records take one expression to another. `Decides` collects what that means, and the
composition of two passes is again of this form, so nothing about a single pass is needed
once all three are in it.

What remains is the ledger. A cell is found through the first boundary at its address, so the
owner of a cell has to be entered before any boundary that is found in the same place. This
holds for the tags that the last pass comes across, and then for the boundaries that only the
captures ask for, which stand under an alternation or a repetition or belong to a name that
is bound repeatedly. Their tags are all kept, so their cells hold the last crossing.
-/

namespace LexTags

namespace Layout

open Tagged (spine ReadsAll reads_iff_readsAll_spine)

variable {usage : Usage} {gone more : List Boundary} {xs ys : List Tagged}
  {log rest : List (Tag × Nat)} {pool : Pool} {w : Text}

theorem withoutCrossings_withoutCrossings :
    withoutCrossings more (withoutCrossings gone log) = withoutCrossings (gone ++ more) log := by
  rw [withoutCrossings, withoutCrossings, withoutCrossings, List.filter_filter]
  congr 1
  funext e
  by_cases h1 : e.1.boundary ∈ gone <;> by_cases h2 : e.1.boundary ∈ more <;> simp [h1, h2]

/-- What a pass decides is what it resolves and what it gives a cell. -/
theorem placements_perm (events : List Event) :
    (owners events ++ resolvedBoundaries events).Perm
      ((placements events).map Prod.fst) := by
  induction events with
  | nil => exact .nil
  | cons e events ih =>
      match e with
      | .clauseDone .. | .entryDone .. => exact ih
      | .stored b _ => exact ih.cons b
      | .resolved b _ => exact List.perm_middle.trans (ih.cons b)

theorem mem_placements_of_stored {events : List Event} {b : Boundary} {a : Address}
    (h : .stored b a ∈ events) : (b, a) ∈ placements events ∧ b ∈ owners events :=
  ⟨List.mem_filterMap.2 ⟨_, h, rfl⟩, List.mem_filterMap.2 ⟨_, h, rfl⟩⟩

theorem singles_sublist (xs : List Tagged) : (singles usage xs).Sublist (boundaries xs) := by
  induction xs with
  | nil => exact .slnil
  | cons x xs ih =>
      rw [singles_cons, boundaries_cons]
      refine List.Sublist.append ?_ ih
      rcases tag_cases usage x with hx | ⟨t, rfl, ht⟩ | ⟨t, rfl, ht⟩
      · rw [singles_of_not_tag hx]
        exact List.nil_sublist _
      · rw [singles_repeated ht]
        exact List.nil_sublist _
      · rw [singles_single ht]
        exact List.Sublist.refl _

theorem SinglesOnce.nodup (h : SinglesOnce usage xs) : (singles usage xs).Nodup := by
  rw [List.nodup_iff_count]
  intro b
  by_cases hb : b ∈ singles usage xs
  · have hle := (@singles_sublist usage xs).count_le b
    have hone := h b hb
    omega
  · rw [List.count_eq_zero.2 hb]
    exact Nat.zero_le 1

/-! ## Passes -/

/-- The events take one expression to another: they decide on single tags, leave out those
that need no cell, and give addresses that are exact once the cells are. -/
structure Decides (usage : Usage) (events : List Event) (t t' : Tagged) : Prop where
  singles_perm : (resolvedBoundaries events ++ singles usage t'.spine).Perm
    (singles usage t.spine)
  left_perm : (resolvedBoundaries events ++ boundaries t'.spine).Perm (boundaries t.spine)
  reads : ∀ {pool : Pool} {w : Text} {i j : Nat} {log : List (Tag × Nat)},
    t.Reads pool w i j log →
      t'.Reads pool w i j (withoutCrossings (resolvedBoundaries events) log)
  exists_reads : ∀ {pool : Pool} {w : Text} {i j : Nat} {marks : List (Tag × Nat)},
    t'.Reads pool w i j marks → ∃ log, t.Reads pool w i j log ∧
      withoutCrossings (resolvedBoundaries events) log = marks
  placed : ∀ {pool : Pool} {w : Text} {i j : Nat} {log : List (Tag × Nat)}
    (cells : Nat → Option Nat), t.Reads pool w i j log →
      (∀ b a, .stored b a ∈ events →
        ∀ c ∈ log, c.1.boundary = b → a.locate? i j cells = some c.2) →
      ∀ e ∈ placements events, Placed i j cells log e

variable {events events' : List Event} {t t' t'' : Tagged}

theorem Decides.notMem (h : Decides usage events t t') (hone : SinglesOnce usage t.spine) :
    ∀ b ∈ boundaries t'.spine, b ∉ resolvedBoundaries events :=
  hone.notMem h.left_perm fun _ hb => h.singles_perm.subset (List.mem_append_left _ hb)

theorem Decides.singlesOnce (h : Decides usage events t t')
    (hone : SinglesOnce usage t.spine) : SinglesOnce usage t'.spine := by
  intro b hb
  have hcount := hone b (h.singles_perm.subset (List.mem_append_right _ hb))
  rw [← h.left_perm.count_eq, List.count_append] at hcount
  have hpos := List.count_pos_iff.2 (mem_boundaries_of_mem_singles hb)
  omega

theorem Decides.refl (t : Tagged) : Decides usage [] t t := by
  have hall : ∀ log, withoutCrossings [] log = log := fun log =>
    List.filter_eq_self.2 fun _ _ => rfl
  refine ⟨.rfl, .rfl, fun h => ?_, fun {_ _ _ _ marks} h => ⟨marks, h, hall marks⟩, ?_⟩
  · rw [resolvedBoundaries, List.filterMap_nil, hall]
    exact h
  · intro _ _ _ _ _ _ _ _ _ he
    cases he

/-- One pass after another. -/
theorem Decides.trans (h : Decides usage events t t') (h' : Decides usage events' t' t'') :
    Decides usage (events ++ events') t t'' := by
  refine ⟨?_, ?_, fun hr => ?_, fun hr => ?_, ?_⟩
  · rw [resolvedBoundaries_append, List.append_assoc]
    exact (h'.singles_perm.append_left _).trans h.singles_perm
  · rw [resolvedBoundaries_append, List.append_assoc]
    exact (h'.left_perm.append_left _).trans h.left_perm
  · have hlast := h'.reads (h.reads hr)
    rwa [withoutCrossings_withoutCrossings, ← resolvedBoundaries_append] at hlast
  · obtain ⟨mid, hmid, hmarks⟩ := h'.exists_reads hr
    obtain ⟨log, hlog, hdropped⟩ := h.exists_reads hmid
    refine ⟨log, hlog, ?_⟩
    rw [resolvedBoundaries_append, ← withoutCrossings_withoutCrossings, hdropped, hmarks]
  · intro pool w i j log cells hr hcells e he
    rw [placements_append] at he
    rcases List.mem_append.1 he with hfirst | hsecond
    · refine h.placed cells hr (fun b a hb => hcells b a (List.mem_append_left _ hb)) e hfirst
    · have hplaced : Placed i j cells
          (withoutCrossings (resolvedBoundaries events) log) e := by
        refine h'.placed cells (h.reads hr) (fun b a hb c hc => ?_) e hsecond
        exact hcells b a (List.mem_append_right _ hb) c (mem_withoutCrossings.1 hc).1
      exact hplaced.mono fun c hc => (mem_withoutCrossings.1 hc).1

/-- A pass that leaves tags of the spine out. -/
theorem Thinned.decides (h : Thinned usage gone t.spine t'.spine)
    (hone : SinglesOnce usage t.spine) (hgone : gone.Perm (resolvedBoundaries events))
    (hplaced : ∀ {pool : Pool} {w : Text} {i j : Nat} {log : List (Tag × Nat)}
      (cells : Nat → Option Nat), ReadsAll pool w t.spine i j log →
        (∀ b a, .stored b a ∈ events →
          ∀ c ∈ log, c.1.boundary = b → a.locate? i j cells = some c.2) →
        ∀ e ∈ placements events, Placed i j cells log e) :
    Decides usage events t t' := by
  have hkeep : ∀ b ∈ boundaries t'.spine, b ∉ resolvedBoundaries events := by
    intro b hb hmem
    exact hone.notMem h.perm (fun _ hb => h.singles_perm.subset (List.mem_append_left _ hb))
      b hb (hgone.symm.subset hmem)
  have hall : ∀ b ∈ gone, b ∈ resolvedBoundaries events := fun _ hb => hgone.subset hb
  refine ⟨(hgone.symm.append_right _).trans h.singles_perm,
    (hgone.symm.append_right _).trans h.perm, fun hr => ?_, fun hr => ?_, fun cells hr => ?_⟩
  · have hs := h.reads hall hkeep (reads_iff_readsAll_spine.1 hr)
    exact reads_iff_readsAll_spine.2 hs
  · obtain ⟨log, hlog, hmarks⟩ := h.exists_reads hall hkeep (reads_iff_readsAll_spine.1 hr)
    exact ⟨log, reads_iff_readsAll_spine.2 hlog, hmarks⟩
  · exact hplaced cells (reads_iff_readsAll_spine.1 hr)

/-- Every event places a boundary by an end of the match. -/
def Static (events : List Event) : Prop :=
  ∀ e ∈ events, ∃ b a, e = .resolved b a ∧ ∀ c, a.anchor ≠ .cell c

theorem Static.append (h : Static events) (h' : Static events') :
    Static (events ++ events') := by
  intro e he
  rcases List.mem_append.1 he with he | he
  · exact h e he
  · exact h' e he

theorem Static.owners (h : Static events) : owners events = [] := by
  refine List.filterMap_eq_nil_iff.2 fun e he => ?_
  obtain ⟨b, a, rfl, -⟩ := h e he
  rfl

theorem Static.placements (h : Static events) :
    (placements events).map Prod.fst = resolvedBoundaries events := by
  induction events with
  | nil => rfl
  | cons e events ih =>
      obtain ⟨b, a, rfl, -⟩ := h e List.mem_cons_self
      exact congrArg (b :: ·) (ih fun e he => h e (List.mem_cons_of_mem _ he))

theorem resolveFromStart_decides (p : Tagged) (ledger : Ledger)
    (hone : SinglesOnce usage p.spine) :
    let front := sweep (resolveItem usage .afterStart) (some 0) p.spine
    ∃ p', (resolveFromStart usage 0 p).run ledger =
        ((front.state, p'), ledger.applyAll front.events) ∧ p'.spine = front.items ∧
      Decides usage front.events p p' ∧ Pruned (resolvedBoundaries front.events) p p' ∧
      Static front.events := by
  obtain ⟨p', hrun, hspine, hpruned⟩ := resolveFromStart_run p ledger (Nat.zero_le maxOffset)
  refine ⟨p', hrun, hspine, ?_, hpruned, ?_⟩
  · refine Thinned.decides (hspine ▸ thinned_sweep_resolveItem _ _) hone .rfl ?_
    intro _ _ _ _ _ _ hr _
    exact (placed_of_sweep_afterStart hr).1
  · intro e he
    obtain ⟨b, n, rfl⟩ := exists_of_mem_sweep_resolveItem _ _ he
    exact ⟨b, _, rfl, fun c hc => nomatch hc⟩

theorem resolveFromEnd_decides (p : Tagged) (ledger : Ledger)
    (hone : SinglesOnce usage p.spine) :
    let back := sweep (resolveItem usage .beforeEnd) (some 0) p.spine.reverse
    ∃ p', (resolveFromEnd usage 0 p).run ledger =
        ((back.state, p'), ledger.applyAll back.events) ∧ p'.spine = back.items.reverse ∧
      Decides usage back.events p p' ∧ Pruned (resolvedBoundaries back.events) p p' ∧
      Static back.events := by
  obtain ⟨p', hrun, hspine, hpruned⟩ := resolveFromEnd_run p ledger (Nat.zero_le maxOffset)
  refine ⟨p', hrun, List.reverse_eq_iff.1 hspine, ?_, hpruned, ?_⟩
  · have hthin := @thinned_sweep_resolveItem usage .beforeEnd p.spine.reverse (some 0)
    rw [← hspine] at hthin
    have hback := hthin.reverse
    rw [List.reverse_reverse, List.reverse_reverse] at hback
    refine hback.decides hone (List.reverse_perm _) ?_
    intro pool w i j log cells hr _
    rw [← List.reverse_reverse p.spine] at hr
    exact (placed_of_sweep_beforeEnd hr (Nat.add_zero j).symm).1
  · intro e he
    obtain ⟨b, n, rfl⟩ := exists_of_mem_sweep_resolveItem _ _ he
    exact ⟨b, _, rfl, fun c hc => nomatch hc⟩

/-- A ledger takes addresses by the ends of the match without harm to its cells. -/
theorem Static.sound {ledger : Ledger} {os : List Boundary} (h : Static events)
    (hsound : ledger.Sound os) (hnodup : ((Layout.placements events).map Prod.fst).Nodup)
    (hnew : ∀ b ∈ (Layout.placements events).map Prod.fst, b ∉ ledger.addresses.keys) :
    (ledger.applyAll events).Sound os := by
  induction events generalizing ledger with
  | nil => exact hsound
  | cons e events ih =>
      obtain ⟨b, a, rfl, ha⟩ := h e List.mem_cons_self
      obtain ⟨hb, hnodup⟩ := List.nodup_cons.1 hnodup
      have hnewb := hnew b List.mem_cons_self
      refine ih (fun e he => h e (List.mem_cons_of_mem _ he))
        (hsound.resolve hnewb fun c hc => absurd hc (ha c)) hnodup ?_
      intro b' hb' hmem
      rcases OrderedMap.mem_keys_insert.1 hmem with hold | rfl
      · exact hnew b' (List.mem_cons_of_mem _ hb') hold
      · exact hb hb'

theorem sound_sweep_allocateItem {here? : Option Address} {ledger : Ledger}
    {os : List Boundary} (hsound : ledger.Sound os)
    (hhere : ∀ a ∈ here?, a.CountsFromCell ledger.cells) (hnodup : (singles usage xs).Nodup)
    (hnew : ∀ b ∈ singles usage xs, b ∉ ledger.addresses.keys) :
    (ledger.applyAll (sweep (allocateItem usage) (here?, ledger.cells) xs).events).Sound
      (os ++ owners (sweep (allocateItem usage) (here?, ledger.cells) xs).events) := by
  induction xs generalizing here? ledger os with
  | nil =>
      rw [sweep, owners, List.filterMap_nil, List.append_nil]
      exact hsound
  | cons x xs ih =>
      rw [singles_cons] at hnodup hnew
      rw [sweep]
      rcases tag_cases usage x with hx | ⟨t, rfl, ht⟩ | ⟨t, rfl, ht⟩
      · rw [singles_of_not_tag hx] at hnodup hnew
        rw [allocateItem_of_not_tag hx]
        exact ih hsound (Address.countsFromCell_behind? hhere) hnodup hnew
      · rw [singles_repeated ht] at hnodup hnew
        rw [allocateItem_repeated ht]
        exact ih hsound hhere hnodup hnew
      · rw [singles_single ht, List.singleton_append] at hnodup hnew
        obtain ⟨hb, hnodup⟩ := List.nodup_cons.1 hnodup
        have hnewb := hnew _ List.mem_cons_self
        have hnewxs : ∀ a, ∀ b ∈ singles usage xs,
            b ∉ (ledger.addresses.insert t.boundary a).keys := by
          intro a b hbx hmem
          rcases OrderedMap.mem_keys_insert.1 hmem with hold | rfl
          · exact hnew b (List.mem_cons_of_mem _ hbx) hold
          · exact hb hbx
        cases here? with
        | some a =>
            rw [allocateItem_known ht]
            have hlt : ∀ c, a.anchor = .cell c → c < os.length := by
              intro c hc
              obtain ⟨c', d, rfl, hlt, -⟩ := hhere a rfl
              cases hc
              exact hsound.cells_eq ▸ hlt
            exact ih (hsound.resolve hnewb hlt) hhere hnodup (hnewxs a)
        | none =>
            rw [allocateItem_unknown ht]
            have hcell : ∀ a ∈ some (Address.atCell ledger.cells),
                a.CountsFromCell (ledger.cells + 1) := by
              intro a ha
              cases ha
              exact ⟨_, 0, rfl, Nat.lt_succ_self _, Nat.zero_le _⟩
            have hrest := ih (hsound.store hnewb) hcell hnodup (hnewxs _)
            rw [List.append_assoc] at hrest
            exact hrest

theorem allocate_decides (p : Tagged) (ledger : Ledger) (hone : SinglesOnce usage p.spine)
    (hnew : ∀ b ∈ singles usage p.spine, b ∉ ledger.addresses.keys) :
    let rest := sweep (allocateItem usage) (none, ledger.cells) p.spine
    ∃ p', (allocate usage none p).run ledger =
        ((rest.state.1, p'), ledger.applyAll rest.events) ∧ p'.spine = rest.items ∧
      Decides usage rest.events p p' ∧ Pruned (resolvedBoundaries rest.events) p p' ∧
      (placements rest.events).map Prod.fst = singles usage p.spine ∧
      ∀ os, ledger.Sound os →
        (ledger.applyAll rest.events).Sound (os ++ owners rest.events) := by
  have hhere : ∀ a ∈ (none : Option Address), a.CountsFromCell ledger.cells := nofun
  obtain ⟨p', hrun, hspine, hpruned⟩ := allocate_run p hhere hone.nodup hnew
  refine ⟨p', hrun, hspine, ?_, hpruned, placements_sweep_allocateItem _ _, ?_⟩
  · refine Thinned.decides (hspine ▸ thinned_sweep_allocateItem _ _) hone .rfl ?_
    intro pool w i j log cells hr hcells
    have hnowhere : ∀ a ∈ (none : Option Address), a.locate? i j cells = some i := nofun
    exact (placed_of_sweep_allocateItem hr hnowhere hcells).1
  · intro os hsound
    exact sound_sweep_allocateItem hsound hhere hone.nodup hnew

/-- What the passes by the ends of the match decide on a list, if they are asked for, and what
they leave of it. -/
def resolveEnds (usage : Usage) (optimise : Bool) (xs : List Tagged) :
    List Event × List Tagged :=
  if optimise then
    let front := sweep (resolveItem usage .afterStart) (some 0) xs
    let back := sweep (resolveItem usage .beforeEnd) (some 0) front.items.reverse
    (front.events ++ back.events, back.items.reverse)
  else ([], xs)

/-- What all passes decide on a list, and what they leave of it. -/
def settle (usage : Usage) (optimise : Bool) (xs : List Tagged) : List Event × List Tagged :=
  let ends := resolveEnds usage optimise xs
  let rest := sweep (allocateItem usage) (none, 0) ends.2
  (ends.1 ++ rest.events, rest.items)

theorem resolveEnds_of_no_tags {p : Tagged} (hp : p.hasTags = false) (optimise : Bool) :
    resolveEnds usage optimise p.spine = ([], p.spine) := by
  cases optimise with
  | false => rfl
  | true =>
      have hpos := Nat.zero_le maxOffset
      simp only [resolveEnds, if_true, sweep_resolveItem_of_no_tags hp hpos,
        sweep_resolveItem_reverse_of_no_tags hp hpos, List.reverse_reverse, List.append_nil]

/-- The passes by the ends of the match, if they are asked for. -/
theorem static_decides (optimise : Bool) (p : Tagged) (ledger : Ledger)
    (hone : SinglesOnce usage p.spine) :
    let ends := resolveEnds usage optimise p.spine
    ∃ p', (if optimise then resolveStatically usage p else pure p).run ledger =
        (p', ledger.applyAll ends.1) ∧ p'.spine = ends.2 ∧
      Decides usage ends.1 p p' ∧ Pruned (resolvedBoundaries ends.1) p p' ∧
      Static ends.1 := by
  cases optimise with
  | false => exact ⟨p, rfl, rfl, .refl p, .same p, nofun⟩
  | true =>
      rw [if_pos rfl, resolveStatically]
      cases htags : p.hasTags with
      | false =>
          rw [resolveEnds_of_no_tags htags]
          exact ⟨p, rfl, rfl, .refl p, .same p, nofun⟩
      | true =>
          obtain ⟨mid, hrun, hspine, hdec, hpruned, hstatic⟩ :=
            resolveFromStart_decides p ledger hone
          rw [resolveEnds, if_pos rfl]
          generalize sweep (resolveItem usage .afterStart) (some 0) p.spine = front at *
          obtain ⟨p', hrun', hspine', hdec', hpruned', hstatic'⟩ :=
            resolveFromEnd_decides mid (ledger.applyAll front.events) (hdec.singlesOnce hone)
          rw [hspine] at hrun' hspine' hdec' hpruned' hstatic'
          refine ⟨p', ?_, hspine', hdec.trans hdec', hpruned.transEvents hpruned',
            hstatic.append hstatic'⟩
          rw [applyAll_append]
          simp only [Bool.not_true, Bool.false_eq_true, if_false, run_bind, hrun, hrun']
          rfl

/-- The passes over a clause. -/
def passes (usage : Usage) (optimise : Bool) (clause : Tagged) :
    StateM Ledger (Option Address × Tagged) :=
  (if optimise then resolveStatically usage clause else pure clause) >>= allocate usage none

/-- The passes together decide on the single tags of the clause, and each of their cells is
owned by the boundary that it was given to. -/
theorem passes_decide (optimise : Bool) {clause : Tagged}
    (hone : SinglesOnce usage clause.spine) :
    let settled := settle usage optimise clause.spine
    ∃ here? regular, (passes usage optimise clause).run default =
        ((here?, regular), (default : Ledger).applyAll settled.1) ∧
      regular.spine = settled.2 ∧ Decides usage settled.1 clause regular ∧
      Pruned (resolvedBoundaries settled.1) clause regular ∧
      ((placements settled.1).map Prod.fst).Perm (singles usage clause.spine) ∧
      ((default : Ledger).applyAll settled.1).Sound (owners settled.1) := by
  obtain ⟨mid, hrun, hspine, hdec, hpruned, hstatic⟩ :=
    static_decides optimise clause default hone
  rw [settle]
  generalize resolveEnds usage optimise clause.spine = ends at *
  have hplaced : ((placements ends.1).map Prod.fst ++ singles usage mid.spine).Perm
      (singles usage clause.spine) := by
    rw [hstatic.placements]
    exact hdec.singles_perm
  obtain ⟨hnodup, -, hdisj⟩ := List.nodup_append.1 (hplaced.nodup_iff.2 hone.nodup)
  have hempty : ∀ b, b ∉ (default : Ledger).addresses.keys := fun _ h => nomatch h
  have hfresh : ∀ b ∈ singles usage mid.spine,
      b ∉ ((default : Ledger).applyAll ends.1).addresses.keys := by
    intro b hb hmem
    rcases mem_keys_applyAll.1 hmem with hold | hnew
    · exact hempty b hold
    · exact hdisj b hnew b hb rfl
  have hsound := hstatic.sound Ledger.sound_default hnodup fun b _ => hempty b
  have hcells : ((default : Ledger).applyAll ends.1).cells = 0 := by
    rw [cells_applyAll, hstatic.owners]
    rfl
  obtain ⟨regular, hrun', hspine', hdec', hpruned', hplaced', hkeep⟩ :=
    allocate_decides mid _ (hdec.singlesOnce hone) hfresh
  rw [hcells, hspine] at hrun' hspine' hdec' hpruned' hplaced' hkeep
  have hsound' := hkeep [] hsound
  rw [← applyAll_append] at hrun' hsound'
  refine ⟨(sweep (allocateItem usage) (none, 0) ends.2).state.1, regular, ?_, hspine',
    hdec.trans hdec', hpruned.transEvents hpruned', ?_, ?_⟩
  · rw [passes, run_bind, hrun, hrun']
  · rw [placements_append, List.map_append, hplaced', ← hspine]
    exact hplaced
  · rw [owners_append, hstatic.owners]
    exact hsound'

/-! ## The captures -/

/-- How a layout has come about: what the passes have decided, and to which boundaries the
captures have given the cells after those of the passes. -/
structure Account (usage : Usage) (clause : Tagged) (l : Layout) (events : List Event)
    (more : List Boundary) : Prop where
  decides : Decides usage events clause l.regular
  pruned : Pruned (resolvedBoundaries events) clause l.regular
  placed_perm : ((placements events).map Prod.fst).Perm (singles usage clause.spine)
  cell_lt : ∀ e ∈ placements events, ∀ c, e.2.anchor = .cell c → c < (owners events).length
  get?_placement : ∀ e ∈ placements events, l.addresses.get? e.1 = some e.2
  keys : l.addresses.keys.toList = (placements events).map Prod.fst ++ more
  sound : ∃ trace, Ledger.Sound ⟨l.addresses, l.cells, trace⟩ (owners events ++ more)
  mem_keys : ∀ b, b ∈ l.addresses.keys ↔ b ∈ (placements events).map Prod.fst ∨
    ∃ name ∈ usage.bound, Delimits usage name b
  captures_keys : l.captures.keys = usage.bound
  captures : ∀ {name c}, l.captures.get? name = some c → Captures usage l.addresses name c

/-- Addresses count from cells that there are. -/
theorem Account.lt_cells {clause : Tagged} {l : Layout} {events : List Event}
    {more : List Boundary} (h : Account usage clause l events more) {e : Boundary × Address}
    (he : e ∈ l.addresses.entries) {c : Nat} (hc : e.2.anchor = .cell c) : c < l.cells := by
  obtain ⟨trace, hsound⟩ := h.sound
  exact Nat.lt_of_lt_of_eq (hsound.cell_lt e he c hc) hsound.cells_eq.symm

theorem compute_run (optimise : Bool) (clause : Tagged) (ledger : Ledger) :
    (compute usage optimise clause).run ledger =
      let decided := (passes usage optimise clause).run ledger
      let done := (capturesOf usage).run decided.2
      (⟨decided.1.2, done.1, done.2.cells, done.2.addresses⟩, done.2) := by
  cases optimise <;> rfl

/-- Laying a clause out can be accounted for by what is settled on its spine. -/
theorem compute_account (optimise : Bool) {clause : Tagged}
    (hone : SinglesOnce usage clause.spine) :
    let layout := ((compute usage optimise clause).run default).1
    let settled := settle usage optimise clause.spine
    layout.regular.spine = settled.2 ∧ ∃ more, Account usage clause layout settled.1 more := by
  obtain ⟨_, regular, hrun, hspine, hdec, hpruned, hperm, hsound⟩ := passes_decide optimise hone
  generalize settle usage optimise clause.spine = settled at *
  obtain ⟨events, items⟩ := settled
  obtain ⟨captures, grown, hrun', hgrows, hkeys, hcaptures, hmem⟩ :=
    capturesOf_spec usage ((default : Ledger).applyAll events)
  obtain ⟨more, hsound', hfirst⟩ := hgrows.sound hsound
  have hcompute : ((compute usage optimise clause).run default).1 =
      ⟨regular, captures, grown.cells, grown.addresses⟩ := by
    rw [compute_run]
    simp only [hrun, hrun']
  have hempty : ∀ b, b ∉ (default : Ledger).addresses.keys := fun _ h => nomatch h
  have hentries : ((default : Ledger).applyAll events).addresses.entries = placements events :=
    entries_applyAll _ _ (hperm.nodup_iff.2 hone.nodup) fun b _ => hempty b
  rw [hentries] at hfirst
  have hget : ∀ e ∈ placements events, grown.addresses.get? e.1 = some e.2 := by
    intro e he
    refine hgrows.get? (OrderedMap.get?_eq_some_iff.2 ?_)
    rw [hentries]
    exact he
  rw [hcompute]
  refine ⟨hspine, more, hdec, hpruned, hperm, fun e he => hsound.cell_lt e (hentries ▸ he), hget,
    hfirst, ⟨grown.trace, hsound'⟩, fun b => ?_, hkeys, fun {name c} => hcaptures name c⟩
  rw [hmem, mem_keys_applyAll]
  exact or_congr_left ⟨fun h => h.elim (fun h => absurd h (hempty b)) id, .inr⟩

/-- What the correctness of a layout rests on: which events led to it, which boundary owns each
cell, and that every other boundary with an address has a cell as well. -/
structure Settled (usage : Usage) (clause : Tagged) (l : Layout) (events : List Event)
    (os : List Boundary) : Prop where
  decides : Decides usage events clause l.regular
  pruned : Pruned (resolvedBoundaries events) clause l.regular
  placed_perm : ((placements events).map Prod.fst).Perm (singles usage clause.spine)
  cells_eq : l.cells = os.length
  get?_placement : ∀ e ∈ placements events, l.addresses.get? e.1 = some e.2
  owner : ∀ {c b}, os[c]? = some b →
    l.cellOwner? c = some b ∧ l.addresses.get? b = some (.atCell c)
  owners_subset : ∀ b ∈ owners events, b ∈ os
  other : ∀ {b a}, l.addresses.get? b = some a → (b, a) ∈ placements events ∨
    b ∈ os ∧ b ∉ (placements events).map Prod.fst
  captures_keys : l.captures.keys = usage.bound
  captures : ∀ {name c}, l.captures.get? name = some c → Captures usage l.addresses name c

theorem Account.settled {clause : Tagged} {l : Layout} {events : List Event}
    {more : List Boundary} (h : Account usage clause l events more) :
    Settled usage clause l events (owners events ++ more) := by
  obtain ⟨trace, hsound⟩ := h.sound
  refine ⟨h.decides, h.pruned, h.placed_perm, hsound.cells_eq, h.get?_placement,
    fun ho => ⟨?_, hsound.get?_owner ho⟩, fun b hb => List.mem_append_left _ hb,
    fun {b a} hb => ?_, h.captures_keys, h.captures⟩
  · rw [cellOwner?, hsound.owner _ _ ho]
    rfl
  · have hmem : b ∈ l.addresses.keys.toList :=
      OrderedMap.mem_keys_of_mem (OrderedMap.get?_eq_some_iff.1 hb)
    have hnodup := l.addresses.keys.nodup
    rw [h.keys] at hmem hnodup
    rcases List.mem_append.1 hmem with hold | hnew
    · obtain ⟨e, he, rfl⟩ := List.mem_map.1 hold
      have ha : e.2 = a := Option.some.inj ((h.get?_placement e he).symm.trans hb)
      exact .inl (ha ▸ he)
    · obtain ⟨-, -, hdisj⟩ := List.nodup_append.1 hnodup
      exact .inr ⟨List.mem_append_right _ hnew, fun hold => hdisj b hold b hnew rfl⟩

end Layout

end LexTags
