import LexTags.Proofs.Distances
import LexTags.Proofs.Ownership
import Mathlib.Data.Finset.Card
import Mathlib.Data.List.Flatten

/-!
# How many cells a clause needs

A cell belongs to a boundary that is still marked, so cells are counted by counting these.
The boundaries that are repeated, or marked under an alternation or a repetition, stay marked
whatever the passes do. A single tag stays if no kept tag is at a known distance before it.

As long as no distance is too large for an offset, a distance is unknown only because there
is a member of unknown size in between. Such members cut the spine into segments, and each
segment with a single tag keeps the first one. The passes by the ends of the match come to
the first member of unknown size from either side, so they empty the first segment and the
last one, and the tags that are kept in the others are the same as without these passes.
-/

namespace LexTags

namespace Address

variable {n m : Nat} {a : Address} {here? : Option Address} {size? : Option Nat}

/-- The address counts from a cell, and can be moved by the length. -/
def HasRoom (n : Nat) (a : Address) : Prop := ∃ c k, a = ⟨.cell c, k⟩ ∧ k + n ≤ maxOffset

theorem HasRoom.mono (h : a.HasRoom m) (hle : n ≤ m) : a.HasRoom n := by
  obtain ⟨c, k, rfl, hk⟩ := h
  exact ⟨c, k, rfl, by omega⟩

/-- Where there is room, an address is lost only to an unknown size. -/
theorem isSome_behind? (h : ∀ a ∈ here?, a.HasRoom (size?.getD 0 + n)) :
    (behind? here? size?).isSome = (here?.isSome && size?.isSome) := by
  cases here? with
  | none => rfl
  | some a =>
      obtain ⟨c, k, rfl, hk⟩ := h a rfl
      rw [behind?_cell, Option.isSome_map]
      cases size? with
      | none => rfl
      | some m =>
          rw [Option.getD_some] at hk
          have hnext : advance? k (some m) = some (k + m) :=
            addOffset?_eq_some_iff.2 ⟨rfl, by omega⟩
          rw [hnext]
          rfl

theorem hasRoom_behind? (h : ∀ a ∈ here?, a.HasRoom (size?.getD 0 + n)) :
    ∀ a ∈ behind? here? size?, a.HasRoom n := by
  intro a ha
  obtain ⟨here, hhere, -⟩ := Option.bind_eq_some_iff.1 ha
  obtain ⟨c, k, rfl, hk⟩ := h here hhere
  rw [hhere, behind?_cell, Option.mem_def, Option.map_eq_some_iff] at ha
  obtain ⟨next, hnext, rfl⟩ := ha
  obtain ⟨m, rfl, hm⟩ := Option.bind_eq_some_iff.1 hnext
  rw [Option.getD_some] at hk
  obtain ⟨rfl, -⟩ := addOffset?_eq_some_iff.1 hm
  exact ⟨c, k + m, rfl, by omega⟩

end Address

namespace Layout

open Tagged (spine)

/-- The boundaries in a list that no pass decides on: those that are repeated, and those that
are marked under an alternation or a repetition. -/
def held (usage : Usage) (xs : List Tagged) : List Boundary :=
  xs.flatMap fun
    | .tag t => if usage.isRepeated t.boundary.name then [t.boundary] else []
    | x => x.tags.map Tag.boundary

/-- The sum of the sizes in a list that are known. -/
def knownLength (xs : List Tagged) : Nat := (xs.filterMap Tagged.size?).sum

/-- The stretches between the members of unknown size. -/
def segments (xs : List Tagged) : List (List Tagged) := xs.splitOnP fun x => x.size?.isNone

/-- The sizes in the list are all known. -/
def IsSegment (xs : List Tagged) : Prop := ∀ x ∈ xs, x.size?.isNone = false

/-- In how many segments a single tag stands. -/
def occupied (usage : Usage) (segments : List (List Tagged)) : Nat :=
  segments.countP fun xs => !(singles usage xs).isEmpty

/-- A list without its single tags. -/
def withoutSingles (usage : Usage) (xs : List Tagged) : List Tagged :=
  xs.filter fun x => (singles usage [x]).isEmpty

/-- A list with the first single tag of each segment only, where `found` says that the one of
the first segment has come before. -/
def firstOfEach (usage : Usage) (found : Bool) : List Tagged → List Tagged
  | [] => []
  | x :: xs =>
      if (singles usage [x]).isEmpty then x :: firstOfEach usage (found && x.size?.isSome) xs
      else if found then firstOfEach usage true xs
      else x :: firstOfEach usage true xs

variable {usage : Usage} {place : Nat → Address} {xs ys first rest : List Tagged} {x u : Tagged}
  {t : Tag} {gone : List Boundary} {found : Bool} {b : Boundary}

theorem knownLength_cons (x : Tagged) (xs : List Tagged) :
    knownLength (x :: xs) = x.size?.getD 0 + knownLength xs := by
  rw [knownLength, List.filterMap_cons]
  cases x.size? with
  | none => exact (Nat.zero_add _).symm
  | some n => rfl

theorem knownLength_append (xs ys : List Tagged) :
    knownLength (xs ++ ys) = knownLength xs + knownLength ys := by
  rw [knownLength, List.filterMap_append, List.sum_append]
  rfl

theorem knownLength_reverse (xs : List Tagged) : knownLength xs.reverse = knownLength xs := by
  rw [knownLength, List.filterMap_reverse, List.sum_reverse]
  rfl

/-- Tags add nothing to a length. -/
theorem Thinned.knownLength (h : Thinned usage gone xs ys) :
    Layout.knownLength xs = Layout.knownLength ys := by
  induction h with
  | nil => rfl
  | @drop _ t _ _ _ _ ih => rw [knownLength_cons, ih]; exact Nat.zero_add _
  | keep x _ ih => rw [knownLength_cons, knownLength_cons, ih]

/-! ## Segments -/

/-- What is counted and what is not. -/
theorem single_cases (usage : Usage) (x : Tagged) :
    singles usage [x] = [] ∨ ∃ t, x = .tag t ∧ usage.isRepeated t.boundary.name = false := by
  rcases tag_cases usage x with hx | ⟨t, rfl, ht⟩ | hsingle
  · exact .inl (singles_of_not_tag hx)
  · exact .inl (singles_repeated ht)
  · exact .inr hsingle

theorem not_tag_of_size? (hu : u.size?.isNone = true) : ∀ t, u ≠ .tag t := by
  rintro t rfl
  cases hu

theorem singles_of_size? (hu : u.size?.isNone = true) : singles usage [u] = [] :=
  singles_of_not_tag (not_tag_of_size? hu)

theorem firstOfEach_of_not_single (hx : singles usage [x] = []) (xs : List Tagged) :
    firstOfEach usage found (x :: xs) =
      x :: firstOfEach usage (found && x.size?.isSome) xs := by
  rw [firstOfEach, hx]
  rfl

theorem firstOfEach_single (ht : usage.isRepeated t.boundary.name = false) (xs : List Tagged) :
    firstOfEach usage found (.tag t :: xs) =
      if found then firstOfEach usage true xs else .tag t :: firstOfEach usage true xs := by
  rw [firstOfEach, singles_single ht]
  rfl

/-- A member of unknown size starts a new segment. -/
theorem firstOfEach_append_cons (hu : u.size?.isNone = true) (xs ys : List Tagged) :
    firstOfEach usage found (xs ++ u :: ys) =
      firstOfEach usage found xs ++ u :: firstOfEach usage false ys := by
  induction xs generalizing found with
  | nil =>
      rw [List.nil_append, firstOfEach_of_not_single (singles_of_size? hu),
        Option.isNone_iff_eq_none.1 hu, Option.isSome_none, Bool.and_false]
      rfl
  | cons x xs ih =>
      rw [List.cons_append, firstOfEach, firstOfEach, ih, ih]
      split
      · rfl
      · split <;> rfl

theorem withoutSingles_sublist_firstOfEach (xs : List Tagged) :
    (withoutSingles usage xs).Sublist (firstOfEach usage found xs) := by
  induction xs generalizing found with
  | nil => exact .slnil
  | cons x xs ih =>
      rw [withoutSingles, List.filter_cons, firstOfEach]
      split
      · exact ih.cons_cons x
      · split
        · exact ih
        · exact ih.cons x

theorem singles_withoutSingles (xs : List Tagged) :
    singles usage (withoutSingles usage xs) = [] := by
  induction xs with
  | nil => rfl
  | cons x xs ih =>
      rw [withoutSingles, List.filter_cons]
      split
      · next hx =>
          rw [singles_cons, List.isEmpty_iff.1 hx]
          exact ih
      · exact ih

/-- Where no single tag stands, none is dropped. -/
theorem firstOfEach_of_no_singles (h : singles usage xs = []) :
    firstOfEach usage found xs = xs := by
  induction xs generalizing found with
  | nil => rfl
  | cons x xs ih =>
      rw [singles_cons, List.append_eq_nil_iff] at h
      rw [firstOfEach_of_not_single h.1, ih h.2]

theorem segments_cons_of_unknown (hu : u.size?.isNone = true) (xs : List Tagged) :
    segments (u :: xs) = [] :: segments xs := by
  rw [segments, List.splitOnP_cons_eq_if_modifyHead, if_pos hu]
  rfl

theorem segments_cons_of_known (hx : x.size?.isNone = false) (xs : List Tagged) :
    segments (x :: xs) = (segments xs).modifyHead (x :: ·) := by
  rw [segments, List.splitOnP_cons_eq_if_modifyHead, if_neg (Bool.eq_false_iff.1 hx)]
  rfl

theorem segments_append_cons (hu : u.size?.isNone = true) (xs ys : List Tagged) :
    segments (xs ++ u :: ys) = segments xs ++ segments ys :=
  List.splitOnP_append_cons xs ys hu

theorem exists_segments_eq_cons (xs : List Tagged) : ∃ seg segs, segments xs = seg :: segs :=
  List.exists_cons_of_ne_nil (List.splitOnP_ne_nil _ xs)

theorem IsSegment.segments_eq (h : IsSegment xs) : segments xs = [xs] :=
  List.splitOnP_eq_singleton h

theorem IsSegment.withoutSingles (h : IsSegment xs) :
    IsSegment (Layout.withoutSingles usage xs) :=
  fun x hx => h x (List.mem_of_mem_filter hx)

theorem IsSegment.of_reverse (h : IsSegment xs.reverse) : IsSegment xs :=
  fun x hx => h x (List.mem_reverse.2 hx)

theorem occupied_cons (xs : List Tagged) (segs : List (List Tagged)) :
    occupied usage (xs :: segs) =
      occupied usage segs + if singles usage xs = [] then 0 else 1 := by
  rw [occupied, List.countP_cons]
  cases singles usage xs <;> rfl

theorem occupied_append (segs segs' : List (List Tagged)) :
    occupied usage (segs ++ segs') = occupied usage segs + occupied usage segs' :=
  List.countP_append

theorem occupied_withoutSingles (xs : List Tagged) (segs : List (List Tagged)) :
    occupied usage (withoutSingles usage xs :: segs) = occupied usage segs := by
  rw [occupied_cons, singles_withoutSingles]
  rfl

/-- Each segment with a single tag keeps one. -/
theorem length_singles_firstOfEach (found : Bool) (xs : List Tagged) :
    (singles usage (firstOfEach usage found xs)).length =
      occupied usage (if found then (segments xs).tail else segments xs) := by
  induction xs generalizing found with
  | nil => cases found <;> rfl
  | cons x xs ih =>
      cases hx : x.size?.isNone with
      | true =>
          have hnone := @singles_of_size? usage x hx
          rw [segments_cons_of_unknown hx, firstOfEach_of_not_single hnone, singles_cons, hnone,
            List.nil_append, Option.isNone_iff_eq_none.1 hx, Option.isSome_none, Bool.and_false,
            ih]
          cases found <;> rfl
      | false =>
          have hsome : x.size?.isSome = true := Option.isNone_eq_false_iff.1 hx
          obtain ⟨seg, segs, hsegs⟩ := exists_segments_eq_cons xs
          rw [segments_cons_of_known hx, hsegs, List.modifyHead_cons, List.tail_cons]
          rw [hsegs, List.tail_cons] at ih
          rcases single_cases usage x with hnone | ⟨t, rfl, ht⟩
          · rw [firstOfEach_of_not_single hnone, singles_cons, hnone, List.nil_append, hsome,
              Bool.and_true, ih]
            cases found with
            | true => rfl
            | false =>
                show occupied usage (seg :: segs) = occupied usage ((x :: seg) :: segs)
                rw [occupied_cons, occupied_cons, singles_cons x seg, hnone, List.nil_append]
          · rw [firstOfEach_single ht]
            cases found with
            | true => exact ih true
            | false =>
                show (singles usage (.tag t :: firstOfEach usage true xs)).length =
                  occupied usage ((.tag t :: seg) :: segs)
                rw [singles_cons, singles_single ht, List.length_append, ih, occupied_cons,
                  singles_cons, singles_single ht, List.singleton_append,
                  if_neg (List.cons_ne_nil _ _)]
                exact Nat.add_comm _ _

/-! ## What the passes leave of the segments -/

/-- Before the first member of unknown size, a pass by an end of the match takes all single
tags out. -/
theorem items_sweep_resolveItem_of_known {pos : Nat}
    (hknown : IsSegment xs) (hlength : pos + knownLength xs ≤ maxOffset) :
    (sweep (resolveItem usage place) (some pos) xs).items = withoutSingles usage xs := by
  induction xs generalizing pos with
  | nil => rfl
  | cons x xs ih =>
      rw [IsSegment, List.forall_mem_cons, Option.isNone_eq_false_iff,
        Option.isSome_iff_exists] at hknown
      obtain ⟨⟨n, hn⟩, hknown⟩ := hknown
      rw [knownLength_cons, hn, Option.getD_some] at hlength
      rw [sweep, withoutSingles, List.filter_cons]
      rcases tag_cases usage x with hx | ⟨t, rfl, ht⟩ | ⟨t, rfl, ht⟩
      · have hnext : advance? pos x.size? = some (pos + n) := by
          rw [hn]
          exact addOffset?_eq_some_iff.2 ⟨rfl, by omega⟩
        rw [resolveItem_of_not_tag hx, singles_of_not_tag hx]
        simp only [Option.bind_some, hnext]
        exact congrArg (x :: ·) (ih hknown (by omega))
      · rw [resolveItem_repeated ht, singles_repeated ht]
        exact congrArg (_ :: ·) (ih hknown (by omega))
      · rw [resolveItem_single ht, singles_single ht]
        exact ih hknown (by omega)

/-- From a member of unknown size on, such a pass leaves everything as it is. -/
theorem items_sweep_resolveItem_of_unknown (hu : u.size?.isNone = true) (pos? : Option Nat)
    (xs : List Tagged) : (sweep (resolveItem usage place) pos? (u :: xs)).items = u :: xs := by
  have hstate : (pos?.bind fun pos => advance? pos u.size?) = none := by
    rw [Option.isNone_iff_eq_none.1 hu]
    cases pos? <;> rfl
  rw [sweep, resolveItem_of_not_tag (not_tag_of_size? hu), hstate, sweep_resolveItem_none]
  rfl

/-- A pass by an end of the match takes the single tags out of what it meets before the first
member of unknown size. -/
theorem items_sweep_resolveItem (hlength : knownLength xs ≤ maxOffset) :
    let items := (sweep (resolveItem usage place) (some 0) xs).items
    IsSegment xs ∧ items = withoutSingles usage xs ∨
      ∃ first u rest, xs = first ++ u :: rest ∧ IsSegment first ∧ u.size?.isNone = true ∧
        items = withoutSingles usage first ++ u :: rest := by
  cases hfind : xs.find? fun x => x.size?.isNone with
  | none =>
      have hknown : IsSegment xs := fun x hx =>
        Bool.eq_false_iff.2 (List.find?_eq_none.1 hfind x hx)
      exact .inl ⟨hknown, items_sweep_resolveItem_of_known hknown (by omega)⟩
  | some u =>
      obtain ⟨hu, first, rest, rfl, hfirst⟩ := List.find?_eq_some_iff_append.1 hfind
      have hknown : IsSegment first := fun x hx =>
        Bool.eq_false_of_not_eq_true' (hfirst x hx)
      rw [knownLength_append] at hlength
      refine .inr ⟨first, u, rest, rfl, hknown, hu, ?_⟩
      rw [sweep_append]
      show _ ++ _ = _
      rw [items_sweep_resolveItem_of_known hknown (by omega),
        items_sweep_resolveItem_of_unknown hu]

/-- The pass from the start empties the first segment, and so leaves no more to be kept. -/
theorem sweep_resolveItem_first (hlength : knownLength xs ≤ maxOffset) :
    let ys := (sweep (resolveItem usage place) (some 0) xs).items
    (∃ first rest, segments xs = first :: rest ∧
        segments ys = withoutSingles usage first :: rest) ∧
      (firstOfEach usage false ys).Sublist (firstOfEach usage false xs) := by
  rcases @items_sweep_resolveItem usage place xs hlength with
    ⟨hknown, hitems⟩ | ⟨first, u, rest, rfl, hknown, hu, hitems⟩
  · rw [hitems]
    refine ⟨⟨xs, [], hknown.segments_eq, hknown.withoutSingles.segments_eq⟩, ?_⟩
    rw [firstOfEach_of_no_singles (singles_withoutSingles xs)]
    exact withoutSingles_sublist_firstOfEach xs
  · rw [hitems]
    refine ⟨⟨first, segments rest, ?_, ?_⟩, ?_⟩
    · rw [segments_append_cons hu, hknown.segments_eq]
      rfl
    · rw [segments_append_cons hu, hknown.withoutSingles.segments_eq]
      rfl
    · rw [firstOfEach_append_cons hu, firstOfEach_append_cons hu,
        firstOfEach_of_no_singles (singles_withoutSingles first)]
      exact (withoutSingles_sublist_firstOfEach first).append_right _

theorem reverse_withoutSingles (xs : List Tagged) :
    (withoutSingles usage xs).reverse = withoutSingles usage xs.reverse :=
  List.filter_reverse.symm

/-- The pass from the end does the same to the last segment. -/
theorem sweep_resolveItem_last (hlength : knownLength xs ≤ maxOffset) :
    let ys := (sweep (resolveItem usage place) (some 0) xs.reverse).items.reverse
    (∃ front last, segments xs = front ++ [last] ∧
        segments ys = front ++ [withoutSingles usage last]) ∧
      (firstOfEach usage false ys).Sublist (firstOfEach usage false xs) := by
  rw [← knownLength_reverse] at hlength
  rcases @items_sweep_resolveItem usage place _ hlength with
    ⟨hknown, hitems⟩ | ⟨last, u, front, hsplit, hknown, hu, hitems⟩
  · rw [hitems, reverse_withoutSingles, List.reverse_reverse]
    replace hknown : IsSegment xs := hknown.of_reverse
    refine ⟨⟨[], xs, hknown.segments_eq, hknown.withoutSingles.segments_eq⟩, ?_⟩
    rw [firstOfEach_of_no_singles (singles_withoutSingles xs)]
    exact withoutSingles_sublist_firstOfEach xs
  · rw [hitems, List.reverse_eq_iff.1 hsplit, List.reverse_append, List.reverse_append,
      List.reverse_cons, List.append_assoc, List.append_assoc, List.singleton_append,
      List.singleton_append, reverse_withoutSingles]
    rw [← List.reverse_reverse last] at hknown
    replace hknown : IsSegment last.reverse := hknown.of_reverse
    refine ⟨⟨segments front.reverse, last.reverse, ?_, ?_⟩, ?_⟩
    · rw [segments_append_cons hu, hknown.segments_eq]
    · rw [segments_append_cons hu, hknown.withoutSingles.segments_eq]
    · rw [firstOfEach_append_cons hu, firstOfEach_append_cons hu,
        firstOfEach_of_no_singles (singles_withoutSingles _)]
      exact ((withoutSingles_sublist_firstOfEach _).cons_cons u).append_left _

/-- The pass that gives out cells keeps the first single tag of each segment. -/
theorem items_sweep_allocateItem {here? : Option Address} {cells : Nat}
    (hhere : ∀ a ∈ here?, a.HasRoom (knownLength xs)) (hlength : knownLength xs ≤ maxOffset) :
    (sweep (allocateItem usage) (here?, cells) xs).items =
      firstOfEach usage here?.isSome xs := by
  induction xs generalizing here? cells with
  | nil => rfl
  | cons x xs ih =>
      rw [knownLength_cons] at hhere hlength
      have hrest : knownLength xs ≤ maxOffset := by omega
      have hroom : ∀ a ∈ here?, a.HasRoom (knownLength xs) := fun a ha =>
        (hhere a ha).mono (Nat.le_add_left _ _)
      rw [sweep]
      rcases tag_cases usage x with hx | ⟨t, rfl, ht⟩ | ⟨t, rfl, ht⟩
      · rw [allocateItem_of_not_tag hx, firstOfEach_of_not_single (singles_of_not_tag hx),
          ← Address.isSome_behind? hhere]
        exact congrArg (x :: ·) (ih (Address.hasRoom_behind? hhere) hrest)
      · rw [allocateItem_repeated ht, firstOfEach_of_not_single (singles_repeated ht)]
        have hsome : (here?.isSome && (Tagged.tag t).size?.isSome) = here?.isSome :=
          Bool.and_true _
        rw [hsome]
        exact congrArg (_ :: ·) (ih hroom hrest)
      · rw [firstOfEach_single ht]
        cases here? with
        | some a =>
            rw [allocateItem_known ht]
            exact ih hroom hrest
        | none =>
            have hcell : ∀ a ∈ some (Address.atCell cells), a.HasRoom (knownLength xs) := by
              intro a ha
              cases ha
              exact ⟨cells, 0, rfl, by omega⟩
            rw [allocateItem_unknown ht]
            exact congrArg (_ :: ·) (ih hcell hrest)

/-! ## Counting what is left -/

theorem held_cons (x : Tagged) (xs : List Tagged) :
    held usage (x :: xs) = held usage [x] ++ held usage xs := by
  rw [held, List.flatMap_cons, held, List.flatMap_singleton]
  rfl

theorem held_single (ht : usage.isRepeated t.boundary.name = false) :
    held usage [.tag t] = [] := by
  simp [held, ht]

theorem held_of_not_single (hx : singles usage [x] = []) :
    held usage [x] = x.tags.map Tag.boundary := by
  rw [held, List.flatMap_singleton]
  cases x with
  | tag t =>
      cases ht : usage.isRepeated t.boundary.name with
      | true => exact if_pos ht
      | false =>
          rw [singles_single ht] at hx
          cases hx
  | _ => rfl

/-- A boundary is marked by single tags, or by others. -/
theorem held_append_singles_perm (xs : List Tagged) :
    (held usage xs ++ singles usage xs).Perm (boundaries xs) := by
  induction xs with
  | nil => exact .nil
  | cons x xs ih =>
      rw [held_cons, singles_cons, boundaries_cons]
      rcases single_cases usage x with hx | ⟨t, rfl, ht⟩
      · rw [held_of_not_single hx, hx, List.nil_append, List.append_assoc]
        exact ih.append_left _
      · rw [held_single ht, singles_single ht]
        exact List.perm_middle.trans (ih.cons _)

/-- No other tags are left out. -/
theorem Thinned.held (h : Thinned usage gone xs ys) :
    Layout.held usage xs = Layout.held usage ys := by
  induction h with
  | nil => rfl
  | drop ht _ ih => rw [held_cons, held_single ht, ih, List.nil_append]
  | @keep _ xs ys x _ ih => rw [held_cons x xs, held_cons x ys, ih]

theorem SinglesOnce.disjoint (h : SinglesOnce usage xs) :
    List.Disjoint (held usage xs) (singles usage xs) := by
  intro b hheld hsingle
  have hcount := h b hsingle
  rw [← (@held_append_singles_perm usage xs).count_eq, List.count_append] at hcount
  have h1 := List.count_pos_iff.2 hheld
  have h2 := List.count_pos_iff.2 hsingle
  omega

theorem card_boundaries (h : SinglesOnce usage xs) :
    (boundaries xs).toFinset.card =
      (held usage xs).toFinset.card + (singles usage xs).length := by
  rw [← List.toFinset_eq_of_perm _ _ (held_append_singles_perm xs), List.toFinset_append,
    Finset.card_union_of_disjoint (List.disjoint_toFinset_iff_disjoint.2 h.disjoint),
    List.toFinset_card_of_nodup h.nodup]

variable {clause : Tagged} {l : Layout} {events : List Event} {more : List Boundary}
  {optimise : Bool}

theorem Account.owners_nodup (h : Account usage clause l events more) :
    (owners events ++ more).Nodup := by
  have hkeys := l.addresses.keys.nodup
  rw [h.keys] at hkeys
  have hall := ((placements_perm events).append_right more).nodup_iff.2 hkeys
  exact hall.sublist ((List.sublist_append_left _ _).append_right more)

/-- There are as many cells as boundaries that are still marked. -/
theorem Account.cells_eq (h : Account usage clause l events more)
    (hone : SinglesOnce usage clause.spine)
    (hkeys : ∀ b, b ∈ l.addresses.keys ↔ b ∈ boundaries clause.spine) :
    l.cells = (boundaries l.regular.spine).toFinset.card := by
  rw [h.settled.cells_eq, ← List.toFinset_card_of_nodup h.owners_nodup]
  congr 1
  ext b
  rw [List.mem_toFinset, List.mem_toFinset, h.mem_owners_iff hone hkeys, mem_marked]

/-- As long as no distance is too large, what is left of a list has the first single tag of
each segment that the passes by the ends leave. -/
theorem settle_items (optimise : Bool) (hlength : knownLength xs ≤ maxOffset) :
    (settle usage optimise xs).2 =
      firstOfEach usage false (resolveEnds usage optimise xs).2 := by
  obtain ⟨gone, hgone⟩ := thinned_resolveEnds usage optimise xs
  rw [hgone.knownLength] at hlength
  exact items_sweep_allocateItem nofun hlength

/-- The passes by the ends of the match empty the segments there, and change nothing about
the tags that the others keep. -/
theorem resolveEnds_segments (hlength : knownLength xs ≤ maxOffset) :
    occupied usage (segments (resolveEnds usage true xs).2) =
        occupied usage (segments xs).tail.dropLast ∧
      (firstOfEach usage false (resolveEnds usage true xs).2).Sublist
        (firstOfEach usage false xs) := by
  have hends : (resolveEnds usage true xs).2 =
      (sweep (resolveItem usage .beforeEnd) (some 0)
        (sweep (resolveItem usage .afterStart) (some 0) xs).items.reverse).items.reverse := rfl
  have hthin := @thinned_sweep_resolveItem usage .afterStart xs (some 0)
  obtain ⟨⟨first, rest, hxs, hmid⟩, hsub⟩ :=
    @sweep_resolveItem_first usage .afterStart xs hlength
  rw [hends]
  generalize (sweep (resolveItem usage .afterStart) (some 0) xs).items = mid at *
  rw [hthin.knownLength] at hlength
  obtain ⟨⟨front, last, hsplit, hys⟩, hsub'⟩ :=
    @sweep_resolveItem_last usage .beforeEnd mid hlength
  refine ⟨?_, hsub'.trans hsub⟩
  rw [hmid] at hsplit
  rw [hxs, hys, List.tail_cons]
  -- The first segment of what the pass from the start leaves may be the last one as well.
  cases front with
  | nil =>
      obtain ⟨-, rfl⟩ := List.cons_eq_cons.1 hsplit
      exact occupied_withoutSingles last []
  | cons seg front =>
      obtain ⟨rfl, hrest⟩ := List.cons_eq_cons.1 hsplit
      change rest = front ++ [last] at hrest
      rw [hrest, List.dropLast_concat, List.cons_append, occupied_withoutSingles, occupied_append,
        occupied_withoutSingles]
      rfl

/-! ## The cells of a clause -/

/-- How many cells a clause needs if no distance is too large for an offset. -/
theorem Account.cells_eq_of_length {optimise : Bool}
    (h : Account usage clause l events more) (hone : SinglesOnce usage clause.spine)
    (hkeys : ∀ b, b ∈ l.addresses.keys ↔ b ∈ boundaries clause.spine)
    (hleft : l.regular.spine = (settle usage optimise clause.spine).2)
    (hlength : knownLength clause.spine ≤ maxOffset) :
    l.cells = (held usage clause.spine).toFinset.card +
      occupied usage (if optimise then (segments clause.spine).tail.dropLast
        else segments clause.spine) := by
  obtain ⟨gone, hgone⟩ := thinned_settle usage optimise clause.spine
  rw [← hleft] at hgone
  rw [h.cells_eq hone hkeys, card_boundaries (h.decides.singlesOnce hone), ← hgone.held, hleft,
    settle_items optimise hlength, length_singles_firstOfEach]
  congr 1
  cases optimise with
  | false => rfl
  | true => exact (resolveEnds_segments hlength).1

end Layout

/-- The expression that a pattern is laid out as, in a clause of the action. -/
def Pattern.clause (p : Pattern) (action : Nat) (pool : Pool) : Tagged :=
  ((p.withoutShadowed.encode p.withoutShadowed.usage.charNames action).run pool).1

namespace Session

open Layout Pattern

variable {config : Config} {action : Nat} {p : Pattern} {s : Session}

/-- A clause compiles to what is settled on its spine. -/
theorem exists_layout_of_length
    (hlength : knownLength (p.clause action s.pool).spine ≤ maxOffset) :
    ∃ layout s', (compileClause config action p).run.run s = (.ok layout, s') ∧
      layout.regular.spine =
        (settle p.withoutShadowed.usage config.optimise (p.clause action s.pool).spine).2 ∧
      layout.cells = (held p.withoutShadowed.usage (p.clause action s.pool).spine).toFinset.card +
        occupied p.withoutShadowed.usage
          (if config.optimise then (segments (p.clause action s.pool).spine).tail.dropLast
            else segments (p.clause action s.pool).spine) := by
  have hclause : p.clause action s.pool = p.withoutShadowed.encodeFrom
      p.withoutShadowed.usage.charNames action s.pool.size := by
    rw [Pattern.clause, encode_run]
  rw [hclause] at hlength ⊢
  have hd := describes_encodeFrom p.withoutShadowed action s.pool.size
  obtain ⟨hleft, more, haccount⟩ := compute_account config.optimise hd.singlesOnce
  have hrun := compileClause_run config action p s
  rw [hd.layout_eq] at hrun
  have hkeys := haccount.mem_keys_iff_boundaries hd fun b hname hside =>
    exists_tag_encodeFrom (mem_bound_iff.1 hname) hside
  exact ⟨_, _, hrun, hleft, haccount.cells_eq_of_length hd.singlesOnce hkeys hleft hlength⟩

/-- A clause needs a cell for each boundary that is repeated, or marked under an alternation or
a repetition, and one for each segment of its top-level sequence in which a single tag stands.
The passes by the ends of the match save those of the first segment and of the last one, and
keep no tag that would else be dropped. -/
theorem compileClause_cells (action : Nat) (p : Pattern) (s : Session)
    (hlength : knownLength (p.clause action s.pool).spine ≤ maxOffset) :
    let usage := p.withoutShadowed.usage
    let xs := (p.clause action s.pool).spine
    ∃ optimised plain s₁ s₂,
      (compileClause { optimise := true } action p).run.run s = (.ok optimised, s₁) ∧
      (compileClause { optimise := false } action p).run.run s = (.ok plain, s₂) ∧
      optimised.cells =
        (held usage xs).toFinset.card + occupied usage (segments xs).tail.dropLast ∧
      plain.cells = (held usage xs).toFinset.card + occupied usage (segments xs) ∧
      optimised.cells ≤ plain.cells ∧
      optimised.regular.tags.Sublist plain.regular.tags := by
  obtain ⟨optimised, s₁, hrun₁, hspine₁, hcells₁⟩ :=
    @exists_layout_of_length { optimise := true } action p s hlength
  obtain ⟨plain, s₂, hrun₂, hspine₂, hcells₂⟩ :=
    @exists_layout_of_length { optimise := false } action p s hlength
  refine ⟨optimised, plain, s₁, s₂, hrun₁, hrun₂, hcells₁, hcells₂, ?_, ?_⟩
  · rw [hcells₁, hcells₂]
    refine Nat.add_le_add_left ?_ _
    have hsub := (List.dropLast_sublist _).trans
      (List.tail_sublist (segments (p.clause action s.pool).spine))
    exact hsub.countP_le
  · rw [← Tagged.tags_spine, ← @Tagged.tags_spine plain.regular, hspine₁, hspine₂,
      settle_items true hlength, settle_items false hlength]
    exact (resolveEnds_segments hlength).2.flatMap Tagged.tags

/-- In `<x>a*</x>` both tags stand at an end of the match, and they need cells only if the ends
are not looked at. -/
theorem compileClause_cells_ends :
    ∃ optimised plain s₁ s₂,
      (compileClause { optimise := true } 0 (.bind "x" (.star (.chars (.single 97))))).run.run
        default = (.ok optimised, s₁) ∧
      (compileClause { optimise := false } 0 (.bind "x" (.star (.chars (.single 97))))).run.run
        default = (.ok plain, s₂) ∧
      optimised.cells = 0 ∧ plain.cells = 2 := by
  obtain ⟨optimised, plain, s₁, s₂, hrun₁, hrun₂, hcells₁, hcells₂, -⟩ :=
    compileClause_cells 0 (.bind "x" (.star (.chars (.single 97)))) default (by decide)
  exact ⟨optimised, plain, s₁, s₂, hrun₁, hrun₂, hcells₁, hcells₂⟩

end Session

end LexTags
