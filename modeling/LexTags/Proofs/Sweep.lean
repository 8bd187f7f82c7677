import LexTags.Proofs.Ledger
import LexTags.Proofs.Spine

/-!
# The passes of the layout as sweeps over the spine

Each pass recurses on the sequence nodes of a clause, stops early where it can, and rebuilds
the clause on the way. What it decides, though, depends on the spine alone: it goes from one
thing to the next with a position in hand, moves the position by the size of each, and drops
the tags that the position settles. A sweep is that walk on a list. The first pass is a sweep
of the spine, the second one of the reversed spine, and the last one again of the spine.

The three run lemmas say that a pass applied to the ledger is the ledger with the events of
the sweep, and that the spine of what the pass returns is what the sweep leaves. That two
parts of a sequence move the position as far as the sequence does is where the overflow of
offsets is dealt with: both ways are undefined for the same sizes.
-/

namespace LexTags

/-- Moving by two parts one after the other is moving by both at once. -/
theorem advance?_totalSize? (pos : Nat) (first second : Option Nat) :
    advance? pos (totalSize? first second) =
      (advance? pos first).bind fun next => advance? next second := by
  match first, second with
  | none, _ => rfl
  | some n, none =>
      show none = (addOffset? pos n).bind fun _ => none
      cases addOffset? pos n <;> rfl
  | some n, some m =>
      show (addOffset? n m).bind (addOffset? pos) =
        (addOffset? pos n).bind fun next => addOffset? next m
      unfold addOffset?
      by_cases h : pos + (n + m) ≤ maxOffset
      · rw [if_pos (by omega), if_pos (by omega)]
        simp only [Option.bind_some]
        rw [if_pos h, if_pos (by omega), Nat.add_assoc]
      · split
        · simp only [Option.bind_some]
          rw [if_neg h]
          split
          · simp only [Option.bind_some]
            rw [if_neg (by omega)]
          · rfl
        · split
          · simp only [Option.bind_some]
            rw [Option.bind_none, if_neg (by omega)]
          · rfl

theorem totalSize?_comm (first second : Option Nat) :
    totalSize? first second = totalSize? second first := by
  match first, second with
  | none, none | none, some _ | some _, none => rfl
  | some n, some m =>
      show addOffset? n m = addOffset? m n
      rw [addOffset?, addOffset?, Nat.add_comm]

theorem advance?_zero {pos : Nat} (h : pos ≤ maxOffset) : advance? pos (some 0) = some pos :=
  if_pos h

theorem advance?_le {pos next : Nat} {size? : Option Nat} (h : advance? pos size? = some next) :
    next ≤ maxOffset := by
  obtain ⟨n, -, hn⟩ := Option.bind_eq_some_iff.1 h
  exact (addOffset?_eq_some_iff.1 hn).2

namespace Address

/-- The address counts from one of the first cells, by an offset that can be held. -/
def CountsFromCell (cells : Nat) (a : Address) : Prop :=
  ∃ c d, a = ⟨.cell c, d⟩ ∧ c < cells ∧ d ≤ maxOffset

/-- Addresses at a cell move as offsets do. -/
theorem behind?_cell (c d : Nat) (size? : Option Nat) :
    behind? (some ⟨.cell c, d⟩) size? = (advance? d size?).map fun d => ⟨.cell c, d⟩ := by
  cases size? <;> rfl

theorem countsFromCell_behind? {cells : Nat} {here? : Option Address} {size? : Option Nat}
    (h : ∀ a ∈ here?, a.CountsFromCell cells) :
    ∀ a ∈ behind? here? size?, a.CountsFromCell cells := by
  intro a ha
  match here? with
  | none => cases ha
  | some here =>
      obtain ⟨c, d, rfl, hc, -⟩ := h here rfl
      rw [behind?_cell, Option.mem_def, Option.map_eq_some_iff] at ha
      obtain ⟨next, hnext, rfl⟩ := ha
      exact ⟨c, next, rfl, hc, advance?_le hnext⟩

theorem behind?_zero {cells : Nat} {here? : Option Address}
    (h : ∀ a ∈ here?, a.CountsFromCell cells) : behind? here? (some 0) = here? := by
  match here? with
  | none => rfl
  | some here =>
      obtain ⟨c, d, rfl, -, hd⟩ := h here rfl
      rw [behind?_cell, advance?_zero hd]
      rfl

/-- Moving an address by two parts one after the other is moving it by both at once. -/
theorem behind?_totalSize? {cells : Nat} {here? : Option Address}
    (h : ∀ a ∈ here?, a.CountsFromCell cells) (first second : Option Nat) :
    behind? here? (totalSize? first second) = behind? (behind? here? first) second := by
  match here? with
  | none => rfl
  | some here =>
      obtain ⟨c, d, rfl, -, -⟩ := h here rfl
      rw [behind?_cell, behind?_cell, advance?_totalSize?]
      cases advance? d first with
      | none => rfl
      | some next => exact (behind?_cell c next second).symm

end Address

namespace Layout

open Tagged (spine)

/-- What a walk over a list has come to: the state behind it, the decisions on the way, and
what is left of the list. -/
structure Sweep (σ : Type) where
  state : σ
  events : List Event
  items : List Tagged

/-- The walk over a list that does the same to each member. -/
def sweep {σ : Type} (step : σ → Tagged → Sweep σ) : σ → List Tagged → Sweep σ
  | s, [] => ⟨s, [], []⟩
  | s, x :: xs =>
      let first := step s x
      let rest := sweep step first.state xs
      ⟨rest.state, first.events ++ rest.events, first.items ++ rest.items⟩

theorem sweep_append {σ : Type} (step : σ → Tagged → Sweep σ) (s : σ) (xs ys : List Tagged) :
    sweep step s (xs ++ ys) =
      ⟨(sweep step (sweep step s xs).state ys).state,
        (sweep step s xs).events ++ (sweep step (sweep step s xs).state ys).events,
        (sweep step s xs).items ++ (sweep step (sweep step s xs).state ys).items⟩ := by
  induction xs generalizing s with
  | nil => rfl
  | cons x xs ih =>
      rw [List.cons_append, sweep, sweep, ih]
      simp only [List.append_assoc]

/-- One step of the passes that place tags by the ends of the match. -/
def resolveItem (usage : Usage) (place : Nat → Address) :
    Option Nat → Tagged → Sweep (Option Nat)
  | some pos, .tag t =>
      if usage.isRepeated t.boundary.name then ⟨some pos, [], [.tag t]⟩
      else ⟨some pos, [.resolved t.boundary (place pos)], []⟩
  | pos?, x => ⟨pos?.bind fun pos => advance? pos x.size?, [], [x]⟩

/-- One step of the pass that gives out cells; the state counts them as well. -/
def allocateItem (usage : Usage) : Option Address × Nat → Tagged → Sweep (Option Address × Nat)
  | (here?, cells), .tag t =>
      if usage.isRepeated t.boundary.name then ⟨(here?, cells), [], [.tag t]⟩
      else
        match here? with
        | some a => ⟨(some a, cells), [.resolved t.boundary a], []⟩
        | none =>
            ⟨(some (.atCell cells), cells + 1), [.stored t.boundary (.atCell cells)], [.tag t]⟩
  | (here?, cells), x => ⟨(Address.behind? here? x.size?, cells), [], [x]⟩

variable {usage : Usage} {place : Nat → Address}

/-- Without a position nothing is decided. -/
theorem sweep_resolveItem_none (xs : List Tagged) :
    sweep (resolveItem usage place) none xs = ⟨none, [], xs⟩ := by
  induction xs with
  | nil => rfl
  | cons x xs ih =>
      rw [sweep, resolveItem]
      · simp only [Option.bind_none, ih]
        rfl
      · intro _ _ h
        cases h

/-- A member that is no tag only moves the position. -/
theorem resolveItem_of_not_tag {x : Tagged} (hx : ∀ t, x ≠ .tag t) (pos? : Option Nat) :
    resolveItem usage place pos? x = ⟨pos?.bind fun pos => advance? pos x.size?, [], [x]⟩ := by
  rw [resolveItem]
  intro _ t _
  exact hx t

theorem resolveItem_repeated {t : Tag} (ht : usage.isRepeated t.boundary.name = true)
    (pos : Nat) : resolveItem usage place (some pos) (.tag t) = ⟨some pos, [], [.tag t]⟩ :=
  if_pos ht

theorem resolveItem_single {t : Tag} (ht : usage.isRepeated t.boundary.name = false)
    (pos : Nat) :
    resolveItem usage place (some pos) (.tag t) =
      ⟨some pos, [.resolved t.boundary (place pos)], []⟩ :=
  if_neg (Bool.eq_false_iff.1 ht)

theorem allocateItem_of_not_tag {x : Tagged} (hx : ∀ t, x ≠ .tag t)
    (s : Option Address × Nat) :
    allocateItem usage s x = ⟨(Address.behind? s.1 x.size?, s.2), [], [x]⟩ := by
  obtain ⟨here?, cells⟩ := s
  rw [allocateItem]
  intro t
  exact hx t

theorem allocateItem_repeated {t : Tag} (ht : usage.isRepeated t.boundary.name = true)
    (s : Option Address × Nat) : allocateItem usage s (.tag t) = ⟨s, [], [.tag t]⟩ :=
  if_pos ht

theorem allocateItem_known {t : Tag} (ht : usage.isRepeated t.boundary.name = false)
    (a : Address) (cells : Nat) :
    allocateItem usage (some a, cells) (.tag t) =
      ⟨(some a, cells), [.resolved t.boundary a], []⟩ :=
  if_neg (Bool.eq_false_iff.1 ht)

theorem allocateItem_unknown {t : Tag} (ht : usage.isRepeated t.boundary.name = false)
    (cells : Nat) :
    allocateItem usage (none, cells) (.tag t) =
      ⟨(some (.atCell cells), cells + 1), [.stored t.boundary (.atCell cells)], [.tag t]⟩ :=
  if_neg (Bool.eq_false_iff.1 ht)

/-- What the passes distinguish. -/
theorem tag_cases (usage : Usage) (x : Tagged) :
    (∀ t, x ≠ .tag t) ∨ (∃ t, x = .tag t ∧ usage.isRepeated t.boundary.name = true) ∨
      ∃ t, x = .tag t ∧ usage.isRepeated t.boundary.name = false := by
  cases x with
  | tag t =>
      cases ht : usage.isRepeated t.boundary.name
      · exact .inr (.inr ⟨t, rfl, ht⟩)
      · exact .inr (.inl ⟨t, rfl, ht⟩)
  | _ => exact .inl nofun

/-- A sweep stays within the offsets. -/
theorem sweep_resolveItem_le {pos : Nat} (xs : List Tagged) (hpos : pos ≤ maxOffset) :
    ∀ next ∈ (sweep (resolveItem usage place) (some pos) xs).state, next ≤ maxOffset := by
  induction xs generalizing pos with
  | nil =>
      intro next hnext
      cases hnext
      exact hpos
  | cons x xs ih =>
      rw [sweep]
      rcases tag_cases usage x with hx | ⟨t, rfl, ht⟩ | ⟨t, rfl, ht⟩
      · rw [resolveItem_of_not_tag hx]
        cases hnext : advance? pos x.size? with
        | none =>
            intro next h
            simp [hnext, sweep_resolveItem_none] at h
        | some next =>
            simp only [Option.bind_some, hnext]
            exact ih (advance?_le hnext)
      · rw [resolveItem_repeated ht]
        exact ih hpos
      · rw [resolveItem_single ht]
        exact ih hpos

theorem exists_of_mem_sweep_resolveItem {e : Event} (xs : List Tagged) (pos? : Option Nat)
    (he : e ∈ (sweep (resolveItem usage place) pos? xs).events) :
    ∃ b n, e = .resolved b (place n) := by
  induction xs generalizing pos? with
  | nil => cases he
  | cons x xs ih =>
      cases pos? with
      | none => rw [sweep_resolveItem_none] at he; cases he
      | some pos =>
          rw [sweep] at he
          rcases tag_cases usage x with hx | ⟨t, rfl, ht⟩ | ⟨t, rfl, ht⟩
          · rw [resolveItem_of_not_tag hx] at he
            exact ih _ he
          · rw [resolveItem_repeated ht] at he
            exact ih _ he
          · rw [resolveItem_single ht] at he
            rcases List.mem_cons.1 he with rfl | hrest
            · exact ⟨t.boundary, pos, rfl⟩
            · exact ih _ hrest

/-- Where no tag stands nothing is decided, and the size says how far the walk is. -/
theorem sweep_resolveItem_of_no_tags {p : Tagged} {pos : Nat} (hp : p.hasTags = false)
    (hpos : pos ≤ maxOffset) :
    sweep (resolveItem usage place) (some pos) p.spine =
      ⟨advance? pos p.size?, [], p.spine⟩ := by
  induction p generalizing pos with
  | epsilon => rw [spine, sweep, Tagged.size?, advance?_zero hpos]
  | tag t => cases hp
  | seq a b iha ihb =>
      rw [Tagged.hasTags, Bool.or_eq_false_iff] at hp
      rw [spine, sweep_append, iha hp.1 hpos, Tagged.size?, advance?_totalSize?]
      cases hnext : advance? pos a.size? with
      | none => rw [sweep_resolveItem_none]; rfl
      | some next => rw [ihb hp.2 (advance?_le hnext)]; rfl
  | _ =>
      rw [spine, sweep, resolveItem_of_not_tag]
      · rfl
      all_goals simp

/-- The same from the right. -/
theorem sweep_resolveItem_reverse_of_no_tags {p : Tagged} {pos : Nat}
    (hp : p.hasTags = false) (hpos : pos ≤ maxOffset) :
    sweep (resolveItem usage place) (some pos) p.spine.reverse =
      ⟨advance? pos p.size?, [], p.spine.reverse⟩ := by
  induction p generalizing pos with
  | epsilon => rw [spine, List.reverse_nil, sweep, Tagged.size?, advance?_zero hpos]
  | tag t => cases hp
  | seq a b iha ihb =>
      rw [Tagged.hasTags, Bool.or_eq_false_iff] at hp
      rw [spine, List.reverse_append, sweep_append, ihb hp.2 hpos, Tagged.size?,
        totalSize?_comm, advance?_totalSize?]
      cases hnext : advance? pos b.size? with
      | none => rw [sweep_resolveItem_none]; rfl
      | some next => rw [iha hp.1 (advance?_le hnext)]; rfl
  | _ =>
      rw [spine, List.reverse_singleton, sweep, resolveItem_of_not_tag]
      · rfl
      all_goals simp

theorem sweep_allocateItem_of_no_tags {p : Tagged} {here? : Option Address} {cells : Nat}
    (hp : p.hasTags = false) (hhere : ∀ a ∈ here?, a.CountsFromCell cells) :
    sweep (allocateItem usage) (here?, cells) p.spine =
      ⟨(Address.behind? here? p.size?, cells), [], p.spine⟩ := by
  induction p generalizing here? with
  | epsilon => rw [spine, sweep, Tagged.size?, Address.behind?_zero hhere]
  | tag t => cases hp
  | seq a b iha ihb =>
      rw [Tagged.hasTags, Bool.or_eq_false_iff] at hp
      rw [spine, sweep_append, iha hp.1 hhere, Tagged.size?,
        Address.behind?_totalSize? hhere,
        ihb hp.2 (Address.countsFromCell_behind? hhere)]
      rfl
  | _ =>
      rw [spine, sweep, allocateItem_of_not_tag]
      · rfl
      all_goals simp

/-! ## The passes -/

/-- Tags of the given boundaries are left out of the top-level sequence. -/
inductive Pruned (gone : List Boundary) : Tagged → Tagged → Prop where
  | same (p : Tagged) : Pruned gone p p
  | tag {t : Tag} (ht : t.boundary ∈ gone) : Pruned gone (.tag t) .epsilon
  | seq {a b a' b' : Tagged} (ha : Pruned gone a a') (hb : Pruned gone b b') :
      Pruned gone (.seq a b) (a' ++ b')

theorem Pruned.mono {gone more : List Boundary} {p p' : Tagged} (h : Pruned gone p p')
    (hsub : ∀ b ∈ gone, b ∈ more) : Pruned more p p' := by
  induction h with
  | same p => exact .same p
  | tag ht => exact .tag (hsub _ ht)
  | seq _ _ iha ihb => exact .seq iha ihb

theorem pruned_epsilon_iff {gone : List Boundary} {p : Tagged} :
    Pruned gone .epsilon p ↔ p = .epsilon := by
  refine ⟨fun h => ?_, fun h => h ▸ .same _⟩
  cases h with
  | same => rfl

theorem pruned_seq_iff {gone : List Boundary} {a b p : Tagged} :
    Pruned gone (.seq a b) p ↔
      p = .seq a b ∨ ∃ a' b', Pruned gone a a' ∧ Pruned gone b b' ∧ p = a' ++ b' := by
  refine ⟨fun h => ?_, ?_⟩
  · cases h with
    | same => exact .inl rfl
    | seq ha hb => exact .inr ⟨_, _, ha, hb, rfl⟩
  · intro h
    rcases h with rfl | ⟨a', b', ha, hb, rfl⟩
    · exact .same _
    · exact .seq ha hb

/-- The parts of a sequence may be left to two lists of events. -/
theorem Pruned.seqEvents {events rest all : List Event} {a b a' b' : Tagged}
    (ha : Pruned (resolvedBoundaries events) a a') (hb : Pruned (resolvedBoundaries rest) b b')
    (hall : ∀ e, e ∈ events ∨ e ∈ rest → e ∈ all) :
    Pruned (resolvedBoundaries all) (.seq a b) (a' ++ b') := by
  refine .seq (ha.mono fun o ho => ?_) (hb.mono fun o ho => ?_)
  · obtain ⟨e, he, heo⟩ := List.mem_filterMap.1 ho
    exact List.mem_filterMap.2 ⟨e, hall e (.inl he), heo⟩
  · obtain ⟨e, he, heo⟩ := List.mem_filterMap.1 ho
    exact List.mem_filterMap.2 ⟨e, hall e (.inr he), heo⟩

/-- Leaving out tags twice is leaving them out once. -/
theorem Pruned.trans {gone : List Boundary} {p q r : Tagged} (h : Pruned gone p q)
    (h' : Pruned gone q r) : Pruned gone p r := by
  induction h generalizing r with
  | same p => exact h'
  | tag ht =>
      rw [pruned_epsilon_iff.1 h']
      exact .tag ht
  | @seq a b a' b' ha hb iha ihb =>
      by_cases hae : a' = .epsilon
      · rw [hae, Tagged.epsilon_append] at h'
        rw [← Tagged.epsilon_append r]
        exact .seq (hae ▸ ha) (ihb h')
      · by_cases hbe : b' = .epsilon
        · rw [hbe, Tagged.append_epsilon] at h'
          rw [← Tagged.append_epsilon r]
          exact .seq (iha h') (hbe ▸ hb)
        · rw [Tagged.append_of_ne hae hbe] at h'
          rcases pruned_seq_iff.1 h' with rfl | ⟨c, d, hc, hd, rfl⟩
          · rw [← Tagged.append_of_ne hae hbe]
            exact .seq ha hb
          · exact .seq (iha hc) (ihb hd)

theorem Pruned.transEvents {events rest : List Event} {p q r : Tagged}
    (h : Pruned (resolvedBoundaries events) p q) (h' : Pruned (resolvedBoundaries rest) q r) :
    Pruned (resolvedBoundaries (events ++ rest)) p r := by
  rw [resolvedBoundaries_append]
  exact (h.mono fun _ hb => List.mem_append_left _ hb).trans
    (h'.mono fun _ hb => List.mem_append_right _ hb)

/-- The pass from the start is a sweep of the spine. -/
theorem resolveFromStart_run (p : Tagged) {pos : Nat} (ledger : Ledger)
    (hpos : pos ≤ maxOffset) :
    ∃ p', (resolveFromStart usage pos p).run ledger =
        (((sweep (resolveItem usage .afterStart) (some pos) p.spine).state, p'),
          ledger.applyAll (sweep (resolveItem usage .afterStart) (some pos) p.spine).events) ∧
      p'.spine = (sweep (resolveItem usage .afterStart) (some pos) p.spine).items ∧
      Pruned (resolvedBoundaries (sweep (resolveItem usage .afterStart) (some pos) p.spine).events)
        p p' := by
  induction p generalizing pos ledger with
  | tag t =>
      rw [resolveFromStart, spine, sweep, resolveItem]
      by_cases hrep : usage.isRepeated t.boundary.name = true
      · rw [if_pos hrep, if_pos hrep]
        exact ⟨.tag t, rfl, rfl, .same _⟩
      · rw [if_neg hrep, if_neg hrep]
        exact ⟨.epsilon, rfl, rfl, .tag (List.mem_singleton_self _)⟩
      all_goals simp
  | seq a b iha ihb =>
      rw [resolveFromStart]
      by_cases htags : (Tagged.seq a b).hasTags = true
      · obtain ⟨a', harun, haspine, haprune⟩ := iha ledger hpos
        have hle := @sweep_resolveItem_le usage .afterStart pos a.spine hpos
        rw [htags, spine, sweep_append]
        generalize sweep (resolveItem usage .afterStart) (some pos) a.spine = first at *
        cases hnext : first.state with
        | none =>
            rw [sweep_resolveItem_none]
            refine ⟨a' ++ b, ?_, ?_, haprune.seqEvents (.same b) fun _ he => List.mem_append.2 he⟩
            · simp only [Bool.not_true, Bool.false_eq_true, if_false, run_bind, harun, hnext,
                List.append_nil]
              rfl
            · rw [Tagged.spine_append, haspine]
        | some next =>
            obtain ⟨b', hbrun, hbspine, hbprune⟩ :=
              ihb (ledger.applyAll first.events) (hle next hnext)
            refine ⟨a' ++ b', ?_, ?_, haprune.seqEvents hbprune fun _ he => List.mem_append.2 he⟩
            · rw [applyAll_append]
              simp only [Bool.not_true, Bool.false_eq_true, if_false, run_bind, harun, hnext,
                hbrun]
              rfl
            · rw [Tagged.spine_append, haspine, hbspine]
      · rw [Bool.not_eq_true] at htags
        rw [htags, sweep_resolveItem_of_no_tags htags hpos]
        exact ⟨.seq a b, rfl, rfl, .same _⟩
  | epsilon =>
      rw [resolveFromStart, Tagged.size?, advance?_zero hpos]
      · exact ⟨.epsilon, rfl, rfl, .same _⟩
      all_goals simp
  | _ =>
      rw [resolveFromStart, spine, sweep, resolveItem_of_not_tag]
      · exact ⟨_, rfl, rfl, .same _⟩
      all_goals simp

/-- The pass from the end is a sweep of the spine from the right. -/
theorem resolveFromEnd_run (p : Tagged) {pos : Nat} (ledger : Ledger)
    (hpos : pos ≤ maxOffset) :
    ∃ p', (resolveFromEnd usage pos p).run ledger =
        (((sweep (resolveItem usage .beforeEnd) (some pos) p.spine.reverse).state, p'),
          ledger.applyAll
            (sweep (resolveItem usage .beforeEnd) (some pos) p.spine.reverse).events) ∧
      p'.spine.reverse =
        (sweep (resolveItem usage .beforeEnd) (some pos) p.spine.reverse).items ∧
      Pruned (resolvedBoundaries
        (sweep (resolveItem usage .beforeEnd) (some pos) p.spine.reverse).events) p p' := by
  induction p generalizing pos ledger with
  | tag t =>
      rw [resolveFromEnd, spine, List.reverse_singleton, sweep, resolveItem]
      by_cases hrep : usage.isRepeated t.boundary.name = true
      · rw [if_pos hrep, if_pos hrep]
        exact ⟨.tag t, rfl, rfl, .same _⟩
      · rw [if_neg hrep, if_neg hrep]
        exact ⟨.epsilon, rfl, rfl, .tag (List.mem_singleton_self _)⟩
      all_goals simp
  | seq a b iha ihb =>
      rw [resolveFromEnd]
      by_cases htags : (Tagged.seq a b).hasTags = true
      · obtain ⟨b', hbrun, hbspine, hbprune⟩ := ihb ledger hpos
        have hle :=
          @sweep_resolveItem_le usage .beforeEnd pos b.spine.reverse hpos
        rw [htags, spine, List.reverse_append, sweep_append]
        generalize sweep (resolveItem usage .beforeEnd) (some pos) b.spine.reverse = last at *
        cases hnext : last.state with
        | none =>
            rw [sweep_resolveItem_none]
            refine ⟨a ++ b', ?_, ?_, (Pruned.same a).seqEvents hbprune fun _ he =>
              List.mem_append.2 he.symm⟩
            · simp only [Bool.not_true, Bool.false_eq_true, if_false, run_bind, hbrun, hnext,
                List.append_nil]
              rfl
            · rw [Tagged.spine_append, List.reverse_append, hbspine]
        | some next =>
            obtain ⟨a', harun, haspine, haprune⟩ :=
              iha (ledger.applyAll last.events) (hle next hnext)
            refine ⟨a' ++ b', ?_, ?_, haprune.seqEvents hbprune fun _ he =>
              List.mem_append.2 he.symm⟩
            · rw [applyAll_append]
              simp only [Bool.not_true, Bool.false_eq_true, if_false, run_bind, hbrun, hnext,
                harun]
              rfl
            · rw [Tagged.spine_append, List.reverse_append, haspine, hbspine]
      · rw [Bool.not_eq_true] at htags
        rw [htags, sweep_resolveItem_reverse_of_no_tags htags hpos]
        exact ⟨.seq a b, rfl, rfl, .same _⟩
  | epsilon =>
      rw [resolveFromEnd, Tagged.size?, advance?_zero hpos]
      · exact ⟨.epsilon, rfl, rfl, .same _⟩
      all_goals simp
  | _ =>
      rw [resolveFromEnd, spine, List.reverse_singleton, sweep, resolveItem_of_not_tag]
      · exact ⟨_, rfl, rfl, .same _⟩
      all_goals simp

/-- The boundaries of the tags in a list that one match crosses only once. -/
def singles (usage : Usage) (xs : List Tagged) : List Boundary :=
  xs.filterMap fun
    | .tag t => if usage.isRepeated t.boundary.name then none else some t.boundary
    | _ => none

theorem singles_append (xs ys : List Tagged) :
    singles usage (xs ++ ys) = singles usage xs ++ singles usage ys :=
  List.filterMap_append

theorem singles_cons (x : Tagged) (xs : List Tagged) :
    singles usage (x :: xs) = singles usage [x] ++ singles usage xs :=
  singles_append [x] xs

theorem singles_of_not_tag {x : Tagged} (hx : ∀ t, x ≠ .tag t) : singles usage [x] = [] := by
  cases x with
  | tag t => exact absurd rfl (hx t)
  | _ => rfl

theorem singles_repeated {t : Tag} (ht : usage.isRepeated t.boundary.name = true) :
    singles usage [.tag t] = [] := by
  simp [singles, ht]

theorem singles_single {t : Tag} (ht : usage.isRepeated t.boundary.name = false) :
    singles usage [.tag t] = [t.boundary] := by
  simp [singles, ht]

/-- The last pass decides on every single tag, in order. -/
theorem placements_sweep_allocateItem (xs : List Tagged) (s : Option Address × Nat) :
    (placements (sweep (allocateItem usage) s xs).events).map Prod.fst = singles usage xs := by
  induction xs generalizing s with
  | nil => rfl
  | cons x xs ih =>
      rw [sweep, placements_append, List.map_append, ih, singles_cons]
      congr 1
      obtain ⟨here?, cells⟩ := s
      rcases tag_cases usage x with hx | ⟨t, rfl, ht⟩ | ⟨t, rfl, ht⟩
      · rw [allocateItem_of_not_tag hx, singles_of_not_tag hx]
        rfl
      · rw [allocateItem_repeated ht, singles_repeated ht]
        rfl
      · rw [singles_single ht]
        cases here? with
        | none => rw [allocateItem_unknown ht]; rfl
        | some a => rw [allocateItem_known ht]; rfl

/-- The counter in the state is the number of cells, and the address counts from one. -/
theorem sweep_allocateItem_state (xs : List Tagged) {here? : Option Address} {cells : Nat}
    (hhere : ∀ a ∈ here?, a.CountsFromCell cells) :
    let s := sweep (allocateItem usage) (here?, cells) xs
    s.state.2 = cells + (owners s.events).length ∧
      ∀ a ∈ s.state.1, a.CountsFromCell s.state.2 := by
  induction xs generalizing here? cells with
  | nil => exact ⟨rfl, hhere⟩
  | cons x xs ih =>
      rw [sweep]
      rcases tag_cases usage x with hx | ⟨t, rfl, ht⟩ | ⟨t, rfl, ht⟩
      · rw [allocateItem_of_not_tag hx]
        exact ih (Address.countsFromCell_behind? hhere)
      · rw [allocateItem_repeated ht]
        exact ih hhere
      · cases here? with
        | some a =>
            rw [allocateItem_known ht]
            exact ih hhere
        | none =>
            rw [allocateItem_unknown ht]
            have hnew : ∀ a ∈ some (Address.atCell cells), a.CountsFromCell (cells + 1) := by
              intro a ha
              cases ha
              exact ⟨cells, 0, rfl, Nat.lt_succ_self _, Nat.zero_le _⟩
            obtain ⟨hcells, hstate⟩ := ih hnew
            refine ⟨?_, hstate⟩
            refine hcells.trans ?_
            rw [owners_append, List.length_append, Nat.add_assoc]
            rfl

/-- The last pass is a sweep of the spine, as long as no boundary has been decided on. -/
theorem allocate_run (p : Tagged) {here? : Option Address} {ledger : Ledger}
    (hhere : ∀ a ∈ here?, a.CountsFromCell ledger.cells)
    (hnodup : (singles usage p.spine).Nodup)
    (hnew : ∀ b ∈ singles usage p.spine, b ∉ ledger.addresses.keys) :
    ∃ p', (allocate usage here? p).run ledger =
        (((sweep (allocateItem usage) (here?, ledger.cells) p.spine).state.1, p'),
          ledger.applyAll
            (sweep (allocateItem usage) (here?, ledger.cells) p.spine).events) ∧
      p'.spine = (sweep (allocateItem usage) (here?, ledger.cells) p.spine).items ∧
      Pruned (resolvedBoundaries
        (sweep (allocateItem usage) (here?, ledger.cells) p.spine).events) p p' := by
  induction p generalizing here? ledger with
  | tag t =>
      unfold allocate
      rw [spine, sweep]
      cases ht : usage.isRepeated t.boundary.name
      · have hfresh : t.boundary ∉ ledger.addresses.keys :=
          hnew _ (by simp [spine, singles, ht])
        cases here? with
        | some a =>
            rw [allocateItem_known ht]
            exact ⟨.epsilon, rfl, rfl, .tag (List.mem_singleton_self _)⟩
        | none =>
            rw [allocateItem_unknown ht]
            refine ⟨.tag t, ?_, rfl, .same _⟩
            simp only [Bool.false_eq_true, if_false, run_bind, addressOf_run_of_none hfresh]
            rfl
      · rw [allocateItem_repeated ht]
        exact ⟨.tag t, rfl, rfl, .same _⟩
      all_goals simp
  | seq a b iha ihb =>
      rw [allocate]
      by_cases htags : (Tagged.seq a b).hasTags = true
      · rw [spine, singles_append] at hnodup hnew
        obtain ⟨hna, hnb, hdisj⟩ := List.nodup_append.1 hnodup
        obtain ⟨a', harun, haspine, haprune⟩ :=
          iha hhere hna fun b hb => hnew b (List.mem_append_left _ hb)
        have hplaced := @placements_sweep_allocateItem usage a.spine (here?, ledger.cells)
        have hstate := @sweep_allocateItem_state usage a.spine here? ledger.cells hhere
        rw [htags, spine, sweep_append]
        generalize sweep (allocateItem usage) (here?, ledger.cells) a.spine = first at *
        obtain ⟨hcells, hcounts⟩ := hstate
        rw [← cells_applyAll] at hcells
        rw [hcells] at hcounts
        have hfresh : ∀ o ∈ singles usage b.spine,
            o ∉ (ledger.applyAll first.events).addresses.keys := by
          intro o ho hmem
          rw [mem_keys_applyAll, hplaced] at hmem
          rcases hmem with hold | ha
          · exact hnew o (List.mem_append_right _ ho) hold
          · exact hdisj o ha o ho rfl
        obtain ⟨b', hbrun, hbspine, hbprune⟩ := ihb hcounts hnb hfresh
        have hst : first.state = (first.state.1, (ledger.applyAll first.events).cells) :=
          Prod.ext rfl hcells
        rw [hst, applyAll_append]
        refine ⟨a' ++ b', ?_, ?_, haprune.seqEvents hbprune fun _ he => List.mem_append.2 he⟩
        · simp only [Bool.not_true, Bool.false_eq_true, if_false, run_bind, harun, hbrun]
          rfl
        · rw [Tagged.spine_append, haspine, hbspine]
      · rw [Bool.not_eq_true] at htags
        rw [htags, sweep_allocateItem_of_no_tags htags hhere]
        exact ⟨.seq a b, rfl, rfl, .same _⟩
  | epsilon =>
      rw [allocate, Tagged.size?, Address.behind?_zero hhere]
      · exact ⟨.epsilon, rfl, rfl, .same _⟩
      all_goals simp
  | _ =>
      rw [allocate, spine, sweep, allocateItem_of_not_tag]
      · exact ⟨_, rfl, rfl, .same _⟩
      all_goals simp

end Layout

end LexTags
