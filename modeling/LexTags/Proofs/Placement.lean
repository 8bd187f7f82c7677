import LexTags.Proofs.Log
import LexTags.Proofs.Sweep

/-!
# Every address that a pass gives out is exact

A sweep knows where it stands: as far behind the start of the match as the position in hand
says, or as far before its end, or at the address in hand. That is the invariant of the three
passes, and it holds in every match, since a member with a size takes that many units in
each. A boundary is then where its tag was crossed. For the pass that gives out cells it is
enough that a cell holds the position where the tag of its owner was crossed.

What a sweep leaves out of the list are tags that it has decided on. `Thinned` is the
relation between what goes in and what comes out of any number of passes; the matches of the
two are the same, up to the crossings of the tags left out.
-/

namespace LexTags

namespace Address

variable {start stop n k : Nat} {cells : Nat → Option Nat} {a b : Address}

theorem locate?_shift? (h : a.shift? n = some b) (hk : a.locate? start stop cells = some k) :
    b.locate? start stop cells = some (k + n) := by
  obtain ⟨anchor, offset⟩ := a
  cases anchor with
  | matchStart =>
      obtain ⟨sum, hsum, rfl⟩ := Option.map_eq_some_iff.1 h
      have hadd : sum = offset + n := (addOffset?_eq_some_iff.1 hsum).1
      have hk : start + offset = k := Option.some.inj hk
      show some (start + sum) = some (k + n)
      congr 1
      omega
  | matchEnd =>
      change (if n ≤ offset then some ⟨.matchEnd, offset - n⟩ else none) = some b at h
      change (if offset ≤ stop then some (stop - offset) else none) = some k at hk
      split at h
      · split at hk
        · cases h
          have hk := Option.some.inj hk
          show (if offset - n ≤ stop then some (stop - (offset - n)) else none) = some (k + n)
          rw [if_pos (by omega)]
          congr 1
          omega
        · cases hk
      · cases h
  | cell c =>
      obtain ⟨sum, hsum, rfl⟩ := Option.map_eq_some_iff.1 h
      have hadd : sum = offset + n := (addOffset?_eq_some_iff.1 hsum).1
      obtain ⟨p, hp, hk⟩ := Option.map_eq_some_iff.1 hk
      have hk : p + offset = k := hk
      show (cells c).map (· + sum) = some (k + n)
      rw [hp]
      show some (p + sum) = some (k + n)
      congr 1
      omega

end Address

namespace Layout

open Tagged (spine ReadsAll readsAll_cons_iff readsAll_nil_iff readsAll_append_iff
  readsAll_singleton_iff reads_tag_iff)

/-- The address is that of a place where the boundary was crossed. -/
def Placed (start stop : Nat) (cells : Nat → Option Nat) (log : List (Tag × Nat))
    (e : Boundary × Address) : Prop :=
  ∃ c ∈ log, c.1.boundary = e.1 ∧ e.2.locate? start stop cells = some c.2

variable {start stop : Nat} {cells : Nat → Option Nat} {log rest : List (Tag × Nat)}
  {e : Boundary × Address}

theorem Placed.mono (h : Placed start stop cells log e) (hsub : ∀ c ∈ log, c ∈ rest) :
    Placed start stop cells rest e := by
  obtain ⟨c, hc, hb, ha⟩ := h
  exact ⟨c, hsub c hc, hb, ha⟩

theorem Placed.append_left (h : Placed start stop cells log e) :
    Placed start stop cells (log ++ rest) e :=
  h.mono fun _ => List.mem_append_left _

theorem Placed.append_right (h : Placed start stop cells rest e) :
    Placed start stop cells (log ++ rest) e :=
  h.mono fun _ => List.mem_append_right _

variable {usage : Usage} {pool : Pool} {w : Text} {xs : List Tagged} {pos k m : Nat}

/-- The pass from the start stands as far behind the start as its position says. -/
theorem placed_of_sweep_afterStart (h : ReadsAll pool w xs (start + pos) m log) :
    (∀ e ∈ placements (sweep (resolveItem usage .afterStart) (some pos) xs).events,
        Placed start stop cells log e) ∧
      ∀ next ∈ (sweep (resolveItem usage .afterStart) (some pos) xs).state,
        m = start + next := by
  induction xs generalizing pos log with
  | nil =>
      obtain ⟨rfl, -, -⟩ := readsAll_nil_iff.1 h
      refine ⟨fun _ he => absurd he List.not_mem_nil, fun next hnext => ?_⟩
      cases hnext
      rfl
  | cons x xs ih =>
      obtain ⟨mid, first, rest, hx, hxs, rfl⟩ := readsAll_cons_iff.1 h
      rw [sweep]
      rcases tag_cases usage x with hnot | ⟨t, rfl, ht⟩ | ⟨t, rfl, ht⟩
      · rw [resolveItem_of_not_tag hnot]
        cases hnext : advance? pos x.size? with
        | none =>
            simp only [Option.bind_some, hnext, sweep_resolveItem_none]
            exact ⟨fun _ he => absurd he List.not_mem_nil,
              fun next hnext => absurd hnext (Option.not_mem_none next)⟩
        | some next =>
            obtain ⟨n, hsize, hsum⟩ := Option.bind_eq_some_iff.1 hnext
            have hadd := addOffset?_eq_some_iff.1 hsum
            have hmid : mid = start + next := by
              have := hx.stop_eq hsize
              omega
            subst hmid
            simp only [Option.bind_some, hnext, List.nil_append]
            obtain ⟨hplaced, hstate⟩ := ih hxs
            exact ⟨fun e he => (hplaced e he).append_right, hstate⟩
      · rw [resolveItem_repeated ht]
        obtain ⟨rfl, rfl, -⟩ := reads_tag_iff.1 hx
        obtain ⟨hplaced, hstate⟩ := ih hxs
        exact ⟨fun e he => (hplaced e he).append_right, hstate⟩
      · rw [resolveItem_single ht]
        obtain ⟨rfl, rfl, -⟩ := reads_tag_iff.1 hx
        obtain ⟨hplaced, hstate⟩ := ih hxs
        refine ⟨fun e he => ?_, hstate⟩
        rcases List.mem_cons.1 he with rfl | hrest
        · exact ⟨(t, start + pos), List.mem_cons_self, rfl, rfl⟩
        · exact (hplaced e hrest).append_right

/-- The pass from the end stands as far before the end as its position says. -/
theorem placed_of_sweep_beforeEnd (h : ReadsAll pool w xs.reverse k m log)
    (hm : stop = m + pos) :
    (∀ e ∈ placements (sweep (resolveItem usage .beforeEnd) (some pos) xs).events,
        Placed start stop cells log e) ∧
      ∀ next ∈ (sweep (resolveItem usage .beforeEnd) (some pos) xs).state,
        stop = k + next := by
  induction xs generalizing pos m log with
  | nil =>
      obtain ⟨rfl, -, -⟩ := readsAll_nil_iff.1 h
      refine ⟨fun _ he => absurd he List.not_mem_nil, fun next hnext => ?_⟩
      cases hnext
      exact hm
  | cons x xs ih =>
      rw [List.reverse_cons] at h
      obtain ⟨mid, rest, last, hxs, hlast, rfl⟩ := readsAll_append_iff.1 h
      have hx := readsAll_singleton_iff.1 hlast
      rw [sweep]
      rcases tag_cases usage x with hnot | ⟨t, rfl, ht⟩ | ⟨t, rfl, ht⟩
      · rw [resolveItem_of_not_tag hnot]
        cases hnext : advance? pos x.size? with
        | none =>
            simp only [Option.bind_some, hnext, sweep_resolveItem_none]
            exact ⟨fun _ he => absurd he List.not_mem_nil,
              fun next hnext => absurd hnext (Option.not_mem_none next)⟩
        | some next =>
            obtain ⟨n, hsize, hsum⟩ := Option.bind_eq_some_iff.1 hnext
            have hadd := addOffset?_eq_some_iff.1 hsum
            have hmid : stop = mid + next := by
              have := hx.stop_eq hsize
              omega
            simp only [Option.bind_some, hnext, List.nil_append]
            obtain ⟨hplaced, hstate⟩ := ih hxs hmid
            exact ⟨fun e he => (hplaced e he).append_left, hstate⟩
      · rw [resolveItem_repeated ht]
        obtain ⟨rfl, rfl, -⟩ := reads_tag_iff.1 hx
        obtain ⟨hplaced, hstate⟩ := ih hxs hm
        exact ⟨fun e he => (hplaced e he).append_left, hstate⟩
      · rw [resolveItem_single ht]
        obtain ⟨rfl, rfl, -⟩ := reads_tag_iff.1 hx
        obtain ⟨hplaced, hstate⟩ := ih hxs hm
        refine ⟨fun e he => ?_, hstate⟩
        rcases List.mem_cons.1 he with rfl | hrest
        · refine ⟨(t, mid), List.mem_append_right _ (List.mem_singleton_self _), rfl, ?_⟩
          show (if pos ≤ stop then some (stop - pos) else none) = some mid
          rw [if_pos (by omega)]
          congr 1
          omega
        · exact (hplaced e hrest).append_left

/-- The pass that gives out cells stands at the address in hand, if each cell holds the place
where the tag of its owner was crossed. -/
theorem placed_of_sweep_allocateItem {here? : Option Address} {count : Nat}
    (h : ReadsAll pool w xs k m log)
    (hhere : ∀ a ∈ here?, a.locate? start stop cells = some k)
    (hcells : ∀ b a, .stored b a ∈ (sweep (allocateItem usage) (here?, count) xs).events →
      ∀ c ∈ log, c.1.boundary = b → a.locate? start stop cells = some c.2) :
    (∀ e ∈ placements (sweep (allocateItem usage) (here?, count) xs).events,
        Placed start stop cells log e) ∧
      ∀ a ∈ (sweep (allocateItem usage) (here?, count) xs).state.1,
        a.locate? start stop cells = some m := by
  induction xs generalizing here? count k log with
  | nil =>
      obtain ⟨rfl, -, -⟩ := readsAll_nil_iff.1 h
      exact ⟨fun _ he => absurd he List.not_mem_nil, hhere⟩
  | cons x xs ih =>
      obtain ⟨mid, first, rest, hx, hxs, rfl⟩ := readsAll_cons_iff.1 h
      rw [sweep] at hcells ⊢
      rcases tag_cases usage x with hnot | ⟨t, rfl, ht⟩ | ⟨t, rfl, ht⟩
      · rw [allocateItem_of_not_tag hnot] at hcells ⊢
        have hmoved : ∀ a ∈ Address.behind? here? x.size?,
            a.locate? start stop cells = some mid := by
          intro a ha
          obtain ⟨here, hsome, ha⟩ := Option.bind_eq_some_iff.1 ha
          obtain ⟨n, hsize, ha⟩ := Option.bind_eq_some_iff.1 ha
          rw [hx.stop_eq hsize]
          exact Address.locate?_shift? ha (hhere here hsome)
        obtain ⟨hplaced, hstate⟩ := ih hxs hmoved fun b a hb c hc =>
          hcells b a hb c (List.mem_append_right _ hc)
        exact ⟨fun e he => (hplaced e he).append_right, hstate⟩
      · rw [allocateItem_repeated ht] at hcells ⊢
        obtain ⟨rfl, rfl, -⟩ := reads_tag_iff.1 hx
        obtain ⟨hplaced, hstate⟩ := ih hxs hhere fun b a hb c hc =>
          hcells b a hb c (List.mem_append_right _ hc)
        exact ⟨fun e he => (hplaced e he).append_right, hstate⟩
      · obtain ⟨rfl, rfl, -⟩ := reads_tag_iff.1 hx
        cases here? with
        | some here =>
            rw [allocateItem_known ht] at hcells ⊢
            obtain ⟨hplaced, hstate⟩ := ih hxs hhere fun b a hb c hc =>
              hcells b a (List.mem_cons_of_mem _ hb) c (List.mem_append_right _ hc)
            refine ⟨fun e he => ?_, hstate⟩
            rcases List.mem_cons.1 he with rfl | hrest
            · exact ⟨(t, k), List.mem_cons_self, rfl, hhere here rfl⟩
            · exact (hplaced e hrest).append_right
        | none =>
            rw [allocateItem_unknown ht] at hcells ⊢
            have hcell : (Address.atCell count).locate? start stop cells = some k :=
              hcells _ _ List.mem_cons_self (t, k) List.mem_cons_self rfl
            have hhere : ∀ a ∈ some (Address.atCell count),
                a.locate? start stop cells = some k := by
              intro a ha
              cases ha
              exact hcell
            obtain ⟨hplaced, hstate⟩ := ih hxs hhere fun b a hb c hc =>
              hcells b a (List.mem_cons_of_mem _ hb) c (List.mem_append_right _ hc)
            refine ⟨fun e he => ?_, hstate⟩
            rcases List.mem_cons.1 he with rfl | hrest
            · exact ⟨(t, k), List.mem_cons_self, rfl, hcell⟩
            · exact (hplaced e hrest).append_right

/-! ## What is left out -/

/-- The boundaries of the tags in a list, at any depth. -/
def boundaries (xs : List Tagged) : List Boundary :=
  (xs.flatMap Tagged.tags).map Tag.boundary

theorem boundaries_cons (x : Tagged) (xs : List Tagged) :
    boundaries (x :: xs) = x.tags.map Tag.boundary ++ boundaries xs := by
  rw [boundaries, List.flatMap_cons, List.map_append]
  rfl

/-- Single tags are left out of a list, the given boundaries in order. -/
inductive Thinned (usage : Usage) : List Boundary → List Tagged → List Tagged → Prop where
  | nil : Thinned usage [] [] []
  | drop {gone : List Boundary} {t : Tag} {xs ys : List Tagged}
      (ht : usage.isRepeated t.boundary.name = false) (h : Thinned usage gone xs ys) :
      Thinned usage (t.boundary :: gone) (.tag t :: xs) ys
  | keep {gone : List Boundary} {xs ys : List Tagged} (x : Tagged)
      (h : Thinned usage gone xs ys) : Thinned usage gone (x :: xs) (x :: ys)

variable {gone more : List Boundary} {ys : List Tagged}

theorem Thinned.refl (xs : List Tagged) : Thinned usage [] xs xs := by
  induction xs with
  | nil => exact .nil
  | cons x xs ih => exact ih.keep x

theorem Thinned.append {xs' ys' : List Tagged} (h : Thinned usage gone xs ys)
    (h' : Thinned usage more xs' ys') :
    Thinned usage (gone ++ more) (xs ++ xs') (ys ++ ys') := by
  induction h with
  | nil => exact h'
  | drop ht _ ih => exact ih.drop ht
  | keep x _ ih => exact ih.keep x

theorem Thinned.reverse (h : Thinned usage gone xs ys) :
    Thinned usage gone.reverse xs.reverse ys.reverse := by
  induction h with
  | nil => exact .nil
  | @drop gone t xs ys ht _ ih =>
      rw [List.reverse_cons, List.reverse_cons, ← List.append_nil ys.reverse]
      exact ih.append (.drop ht .nil)
  | keep x _ ih =>
      rw [List.reverse_cons, List.reverse_cons]
      have h := ih.append (.keep x .nil)
      rwa [List.append_nil] at h

/-- A pass by the ends of the match leaves out the tags that it decides on. -/
theorem thinned_sweep_resolveItem {place : Nat → Address} (xs : List Tagged)
    (pos? : Option Nat) :
    Thinned usage
      (resolvedBoundaries (sweep (resolveItem usage place) pos? xs).events) xs
      (sweep (resolveItem usage place) pos? xs).items := by
  induction xs generalizing pos? with
  | nil => exact .nil
  | cons x xs ih =>
      cases pos? with
      | none => rw [sweep_resolveItem_none]; exact .refl _
      | some pos =>
          rw [sweep, resolvedBoundaries_append]
          rcases tag_cases usage x with hx | ⟨t, rfl, ht⟩ | ⟨t, rfl, ht⟩
          · rw [resolveItem_of_not_tag hx]
            exact (ih _).keep x
          · rw [resolveItem_repeated ht]
            exact (ih _).keep (.tag t)
          · rw [resolveItem_single ht]
            exact (ih _).drop ht

theorem thinned_sweep_allocateItem (xs : List Tagged) (s : Option Address × Nat) :
    Thinned usage (resolvedBoundaries (sweep (allocateItem usage) s xs).events) xs
      (sweep (allocateItem usage) s xs).items := by
  induction xs generalizing s with
  | nil => exact .nil
  | cons x xs ih =>
      obtain ⟨here?, cells⟩ := s
      rw [sweep, resolvedBoundaries_append]
      rcases tag_cases usage x with hx | ⟨t, rfl, ht⟩ | ⟨t, rfl, ht⟩
      · rw [allocateItem_of_not_tag hx]
        exact (ih _).keep x
      · rw [allocateItem_repeated ht]
        exact (ih _).keep (.tag t)
      · cases here? with
        | none => rw [allocateItem_unknown ht]; exact (ih _).keep (.tag t)
        | some a => rw [allocateItem_known ht]; exact (ih _).drop ht

/-- No tag is lost: it is left out or still there. -/
theorem Thinned.perm (h : Thinned usage gone xs ys) :
    (gone ++ boundaries ys).Perm (boundaries xs) := by
  induction h with
  | nil => exact .nil
  | drop _ _ ih => exact ih.cons _
  | keep x _ ih =>
      rw [boundaries_cons, boundaries_cons]
      exact List.perm_append_comm_assoc .. |>.trans (ih.append_left _)

theorem Thinned.singles_perm (h : Thinned usage gone xs ys) :
    (gone ++ singles usage ys).Perm (singles usage xs) := by
  induction h with
  | nil => exact .nil
  | drop ht _ ih =>
      rw [singles_cons, singles_single ht]
      exact ih.cons _
  | @keep gone xs ys x _ ih =>
      rw [singles_cons x xs, singles_cons x ys]
      exact List.perm_append_comm_assoc .. |>.trans (ih.append_left _)

theorem mem_boundaries_of_mem_singles {b : Boundary} (h : b ∈ singles usage xs) :
    b ∈ boundaries xs := by
  obtain ⟨x, hx, hb⟩ := List.mem_filterMap.1 h
  rcases tag_cases usage x with hnot | ⟨t, rfl, ht⟩ | ⟨t, rfl, ht⟩
  · cases x with
    | tag t => exact absurd rfl (hnot t)
    | _ => cases hb
  · simp [ht] at hb
  · simp only [ht, Bool.false_eq_true, if_false, Option.some.injEq] at hb
    exact List.mem_map.2 ⟨t, List.mem_flatMap.2 ⟨_, hx, List.mem_singleton_self t⟩, hb⟩

/-- Each single tag of a list is the only tag of its boundary, at any depth. -/
def SinglesOnce (usage : Usage) (xs : List Tagged) : Prop :=
  ∀ b ∈ singles usage xs, (boundaries xs).count b = 1

/-- What is left out is not among what is left, where single tags stand once. -/
theorem SinglesOnce.notMem (hone : SinglesOnce usage xs)
    (hperm : (gone ++ boundaries ys).Perm (boundaries xs))
    (hgone : ∀ b ∈ gone, b ∈ singles usage xs) : ∀ b ∈ boundaries ys, b ∉ gone := by
  intro b hleft hb
  have hcount := hone b (hgone b hb)
  rw [← hperm.count_eq, List.count_append] at hcount
  have h1 := List.count_pos_iff.2 hb
  have h2 := List.count_pos_iff.2 hleft
  omega

/-! ## Matches without the tags left out -/

/-- The log without the crossings of some boundaries. -/
def withoutCrossings (gone : List Boundary) (log : List (Tag × Nat)) : List (Tag × Nat) :=
  log.filter fun e => e.1.boundary ∉ gone

theorem withoutCrossings_append :
    withoutCrossings gone (log ++ rest) =
      withoutCrossings gone log ++ withoutCrossings gone rest :=
  List.filter_append ..

theorem mem_withoutCrossings {c : Tag × Nat} :
    c ∈ withoutCrossings gone log ↔ c ∈ log ∧ c.1.boundary ∉ gone := by
  rw [withoutCrossings, List.mem_filter, decide_eq_true_iff]

theorem withoutCrossings_of_reads {x : Tagged} {i j : Nat} (h : x.Reads pool w i j log)
    (hx : ∀ b ∈ x.tags.map Tag.boundary, b ∉ gone) : withoutCrossings gone log = log := by
  rw [withoutCrossings, List.filter_eq_self]
  intro e he
  exact decide_eq_true (hx _ (List.mem_map_of_mem (h.mem_tags he)))

theorem lastCrossing?_withoutCrossings {b : Boundary} (hb : b ∉ gone) :
    lastCrossing? (withoutCrossings gone log) b = lastCrossing? log b :=
  @lastCrossing?_filter log b (fun o => decide (o ∉ gone)) (decide_eq_true hb)

/-- Every match crosses the other tags alone. -/
theorem Thinned.reads {all : List Boundary} {i j : Nat} (h : Thinned usage gone xs ys)
    (hall : ∀ b ∈ gone, b ∈ all) (hkeep : ∀ b ∈ boundaries ys, b ∉ all)
    (hr : ReadsAll pool w xs i j log) :
    ReadsAll pool w ys i j (withoutCrossings all log) := by
  induction h generalizing i log with
  | nil =>
      obtain ⟨rfl, rfl, hi⟩ := readsAll_nil_iff.1 hr
      exact .nil hi
  | drop ht _ ih =>
      obtain ⟨mid, first, rest, hx, hxs, rfl⟩ := readsAll_cons_iff.1 hr
      obtain ⟨rfl, rfl, -⟩ := reads_tag_iff.1 hx
      have hgone := hall _ List.mem_cons_self
      have hrest := ih (fun b hb => hall b (List.mem_cons_of_mem _ hb)) hkeep hxs
      rw [withoutCrossings_append]
      simpa [withoutCrossings, hgone] using hrest
  | keep x _ ih =>
      obtain ⟨mid, first, rest, hx, hxs, rfl⟩ := readsAll_cons_iff.1 hr
      rw [boundaries_cons] at hkeep
      have hrest := ih hall (fun b hb => hkeep b (List.mem_append_right _ hb)) hxs
      rw [withoutCrossings_append,
        withoutCrossings_of_reads hx fun b hb => hkeep b (List.mem_append_left _ hb)]
      exact .cons hx hrest

/-- Every match without the tags comes from one with them. -/
theorem Thinned.exists_reads {all : List Boundary} {i j : Nat} {marks : List (Tag × Nat)}
    (h : Thinned usage gone xs ys) (hall : ∀ b ∈ gone, b ∈ all)
    (hkeep : ∀ b ∈ boundaries ys, b ∉ all) (hr : ReadsAll pool w ys i j marks) :
    ∃ log, ReadsAll pool w xs i j log ∧ withoutCrossings all log = marks := by
  induction h generalizing i marks with
  | nil =>
      obtain ⟨rfl, rfl, hi⟩ := readsAll_nil_iff.1 hr
      exact ⟨[], .nil hi, rfl⟩
  | @drop gone t xs ys ht _ ih =>
      obtain ⟨log, hlog, rfl⟩ := ih (fun b hb => hall b (List.mem_cons_of_mem _ hb)) hkeep hr
      have hgone := hall _ List.mem_cons_self
      have hi := Nat.le_trans hlog.bounds.1 hlog.bounds.2
      refine ⟨[(t, i)] ++ log, .cons (.tag hi) hlog, ?_⟩
      rw [withoutCrossings_append]
      simp [withoutCrossings, hgone]
  | keep x _ ih =>
      obtain ⟨mid, first, rest, hx, hxs, rfl⟩ := readsAll_cons_iff.1 hr
      rw [boundaries_cons] at hkeep
      obtain ⟨log, hlog, rfl⟩ := ih hall (fun b hb => hkeep b (List.mem_append_right _ hb)) hxs
      refine ⟨first ++ log, .cons hx hlog, ?_⟩
      rw [withoutCrossings_append,
        withoutCrossings_of_reads hx fun b hb => hkeep b (List.mem_append_left _ hb)]

theorem exists_tag_of_mem_singles {x : Tagged} {b : Boundary} (hb : b ∈ singles usage [x]) :
    ∃ t : Tag, x = .tag t ∧ t.boundary = b := by
  rcases tag_cases usage x with hnot | ⟨t, rfl, ht⟩ | ⟨t, rfl, ht⟩
  · rw [singles_of_not_tag hnot] at hb
    cases hb
  · rw [singles_repeated ht] at hb
    cases hb
  · have hmem := mem_boundaries_of_mem_singles hb
    rw [boundaries_cons, List.mem_append] at hmem
    rcases hmem with hmem | hmem
    · exact ⟨t, rfl, (List.mem_singleton.1 hmem).symm⟩
    · cases hmem

/-- A boundary that one open tag alone marks is crossed in one place only. -/
theorem crossing_unique {b : Boundary} {i j : Nat} {c d : Tag × Nat}
    (h : ReadsAll pool w xs i j log) (hb : b ∈ singles usage xs)
    (hcount : (boundaries xs).count b = 1) (hc : c ∈ log) (hcb : c.1.boundary = b)
    (hd : d ∈ log) (hdb : d.1.boundary = b) : c.2 = d.2 := by
  induction h with
  | nil _ => cases hc
  | @cons x xs i mid j first rest hx hxs ih =>
      rw [boundaries_cons, List.count_append] at hcount
      rw [singles_cons, List.mem_append] at hb
      rcases hb with hbx | hbxs
      · obtain ⟨t, rfl, htb⟩ := exists_tag_of_mem_singles hbx
        obtain ⟨rfl, rfl, -⟩ := reads_tag_iff.1 hx
        have hself : b ∈ (Tagged.tag t).tags.map Tag.boundary := List.mem_singleton.2 htb.symm
        have hpos := List.count_pos_iff.2 hself
        have hnone : b ∉ boundaries xs := List.count_eq_zero.1 (by omega)
        have hlast : ∀ e ∈ rest, e.1.boundary ≠ b := fun e he heb =>
          hnone (heb ▸ List.mem_map_of_mem (hxs.mem_tags he))
        have honly : ∀ e ∈ [(t, i)] ++ rest, e.1.boundary = b → e.2 = i := by
          intro e he heb
          rcases List.mem_append.1 he with he | he
          · rw [List.mem_singleton.1 he]
          · exact absurd heb (hlast e he)
        rw [honly c hc hcb, honly d hd hdb]
      · have hpos := List.count_pos_iff.2 (mem_boundaries_of_mem_singles hbxs)
        have hnone : b ∉ x.tags.map Tag.boundary := List.count_eq_zero.1 (by omega)
        have hlater : ∀ e ∈ first ++ rest, e.1.boundary = b → e ∈ rest := by
          intro e he heb
          rcases List.mem_append.1 he with he | he
          · exact absurd (heb ▸ List.mem_map_of_mem (hx.mem_tags he)) hnone
          · exact he
        exact ih hbxs (by omega) (hlater c hc hcb) (hlater d hd hdb)

end Layout

end LexTags
