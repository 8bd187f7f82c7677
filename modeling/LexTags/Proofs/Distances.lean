import LexTags.Proofs.Exactness
import Mathlib.Algebra.GroupWithZero.Nat

/-!
# Every tag is decided by its distances

Which address a tag gets, and whether it stays, can be read off the spine without following
the passes: a tag at a known distance from an end of the match is placed by that end, any
other one by the tag before it that is kept and at a known distance, and one that has no such
tag before it is kept itself. So the layout depends on nothing but the spine.

Each pass has one fact that says this. A pass by an end stands as far from it as the distance
of what it has come past, and from the first unknown distance on it leaves everything as it
is. The pass that gives out cells stands as far behind the last kept tag as their distance,
and nowhere if that is not known. Between the passes tags disappear, but a tag has no length,
so the distances stay.
-/

namespace LexTags

theorem totalSize?_assoc (first second third : Option Nat) :
    totalSize? (totalSize? first second) third = totalSize? first (totalSize? second third) := by
  cases first with
  | none => rfl
  | some n => exact (advance?_totalSize? n second third).symm

namespace Layout

open Tagged (spine)

/-- The number of units that a stretch of the spine covers, if each of its sizes is known and
their sum is an offset. -/
def distance? (xs : List Tagged) : Option Nat :=
  (xs.mapM Tagged.size?).bind fun sizes => if sizes.sum ≤ maxOffset then some sizes.sum else none

variable {usage : Usage} {place : Nat → Address} {xs ys rest : List Tagged} {x : Tagged}
  {t u : Tag} {gone : List Boundary} {pos d : Nat}

theorem distance?_cons (x : Tagged) (xs : List Tagged) :
    distance? (x :: xs) = totalSize? x.size? (distance? xs) := by
  rw [distance?, distance?, List.mapM_cons]
  cases x.size? with
  | none => rfl
  | some n =>
      cases xs.mapM Tagged.size? with
      | none => rfl
      | some sizes =>
          show (if n + sizes.sum ≤ maxOffset then some (n + sizes.sum) else none) =
            advance? n (if sizes.sum ≤ maxOffset then some sizes.sum else none)
          by_cases hsum : sizes.sum ≤ maxOffset
          · rw [if_pos hsum]
            rfl
          · rw [if_neg hsum, if_neg (by omega)]
            rfl

theorem distance?_le (h : distance? xs = some d) : d ≤ maxOffset := by
  obtain ⟨sizes, -, hsum⟩ := Option.bind_eq_some_iff.1 h
  split at hsum
  · next hle =>
      cases hsum
      exact hle
  · cases hsum

/-- From the start of a stretch one is as far as it is long. -/
theorem advance?_zero_distance? (xs : List Tagged) :
    advance? 0 (distance? xs) = distance? xs := by
  cases h : distance? xs with
  | none => rfl
  | some d =>
      show addOffset? 0 d = some d
      rw [addOffset?_eq_some_iff]
      exact ⟨(Nat.zero_add d).symm, distance?_le h⟩

/-- A tag has no length. -/
theorem distance?_tag (t : Tag) (xs : List Tagged) :
    distance? (.tag t :: xs) = distance? xs := by
  rw [distance?_cons]
  exact advance?_zero_distance? xs

theorem distance?_append (xs ys : List Tagged) :
    distance? (xs ++ ys) = totalSize? (distance? xs) (distance? ys) := by
  induction xs with
  | nil => exact (advance?_zero_distance? ys).symm
  | cons x xs ih => rw [List.cons_append, distance?_cons, ih, distance?_cons, totalSize?_assoc]

theorem distance?_reverse (xs : List Tagged) : distance? xs.reverse = distance? xs := by
  induction xs with
  | nil => rfl
  | cons x xs ih =>
      have hx : distance? (x :: xs) = distance? ([x] ++ xs) := rfl
      rw [List.reverse_cons, distance?_append, ih, hx, distance?_append, totalSize?_comm]

/-- Leaving tags out changes no distance. -/
theorem Thinned.distance? (h : Thinned usage gone xs ys) :
    Layout.distance? xs = Layout.distance? ys := by
  induction h with
  | nil => rfl
  | drop _ _ ih => rw [distance?_tag, ih]
  | keep x _ ih => rw [distance?_cons, distance?_cons, ih]

/-! ## Where the passes stand -/

/-- A pass by an end of the match stands behind a stretch as far as it is long. -/
theorem state_sweep_resolveItem (xs : List Tagged) (hpos : pos ≤ maxOffset) :
    (sweep (resolveItem usage place) (some pos) xs).state = advance? pos (distance? xs) := by
  induction xs generalizing pos with
  | nil => exact (advance?_zero hpos).symm
  | cons x xs ih =>
      rw [sweep]
      rcases tag_cases usage x with hx | ⟨t, rfl, ht⟩ | ⟨t, rfl, ht⟩
      · rw [resolveItem_of_not_tag hx, distance?_cons, advance?_totalSize?]
        cases hnext : advance? pos x.size? with
        | none => simp only [Option.bind_some, hnext, sweep_resolveItem_none, Option.bind_none]
        | some next =>
            simp only [Option.bind_some, hnext]
            exact ih (advance?_le hnext)
      · rw [resolveItem_repeated ht, distance?_tag]
        exact ih hpos
      · rw [resolveItem_single ht, distance?_tag]
        exact ih hpos

/-- A tag at a known distance is placed by it. -/
theorem resolved_of_distance? {before behind : List Tagged}
    (ht : usage.isRepeated t.boundary.name = false) (hd : distance? before = some d) :
    .resolved t.boundary (place d) ∈
      (sweep (resolveItem usage place) (some 0) (before ++ .tag t :: behind)).events := by
  have hstate := @state_sweep_resolveItem usage place 0 before (Nat.zero_le _)
  rw [advance?_zero_distance?, hd] at hstate
  rw [sweep_append, hstate, sweep, resolveItem_single ht]
  exact List.mem_append_right _ List.mem_cons_self

/-- Behind an unknown distance a pass by an end leaves everything as it is. -/
theorem sweep_resolveItem_of_unknown {before : List Tagged} (hd : distance? before = none)
    (rest : List Tagged) :
    sweep (resolveItem usage place) (some 0) (before ++ rest) =
      ⟨none, (sweep (resolveItem usage place) (some 0) before).events,
        (sweep (resolveItem usage place) (some 0) before).items ++ rest⟩ := by
  have hstate := @state_sweep_resolveItem usage place 0 before (Nat.zero_le _)
  rw [advance?_zero_distance?, hd] at hstate
  rw [sweep_append, hstate, sweep_resolveItem_none, List.append_nil]

/-- The pass that gives out cells stands behind a stretch as far from a kept tag as before and
as far as the stretch is long. -/
theorem state_sweep_allocateItem {c k cells : Nat} (h : advance? k (distance? xs) = some d) :
    (sweep (allocateItem usage) (some ⟨.cell c, k⟩, cells) xs).state.1 =
      some ⟨.cell c, d⟩ := by
  induction xs generalizing k with
  | nil =>
      obtain ⟨rfl, -⟩ := addOffset?_eq_some_iff.1 h
      rfl
  | cons x xs ih =>
      rw [sweep]
      rcases tag_cases usage x with hx | ⟨t, rfl, ht⟩ | ⟨t, rfl, ht⟩
      · rw [distance?_cons, advance?_totalSize?] at h
        obtain ⟨next, hnext, hrest⟩ := Option.bind_eq_some_iff.1 h
        rw [allocateItem_of_not_tag hx, Address.behind?_cell, hnext]
        exact ih hrest
      · rw [distance?_tag] at h
        rw [allocateItem_repeated ht]
        exact ih h
      · rw [distance?_tag] at h
        rw [allocateItem_known ht]
        exact ih h

/-- Where the pass that gives out cells stands somewhere, a tag is found there. -/
theorem resolved_of_state {front back : List Tagged} {a : Address}
    (ht : usage.isRepeated t.boundary.name = false)
    (ha : (sweep (allocateItem usage) (none, 0) front).state.1 = some a) :
    .resolved t.boundary a ∈
      (sweep (allocateItem usage) (none, 0) (front ++ .tag t :: back)).events := by
  rw [sweep_append, sweep]
  generalize sweep (allocateItem usage) (none, 0) front = s at *
  obtain ⟨⟨here?, cells⟩, _, _⟩ := s
  obtain rfl : here? = some a := ha
  rw [allocateItem_known ht]
  exact List.mem_append_right _ List.mem_cons_self

/-- Where it stands nowhere, a tag is kept and gets the next cell, and the pass stands there. -/
theorem stored_of_state {front : List Tagged} (back : List Tagged)
    (ht : usage.isRepeated t.boundary.name = false)
    (hnone : (sweep (allocateItem usage) (none, 0) front).state.1 = none) :
    let c := (sweep (allocateItem usage) (none, 0) front).state.2
    let all := sweep (allocateItem usage) (none, 0) (front ++ .tag t :: back)
    .stored t.boundary (.atCell c) ∈ all.events ∧ .tag t ∈ all.items ∧
      ∀ d, distance? back = some d → all.state.1 = some ⟨.cell c, d⟩ := by
  rw [sweep_append, sweep]
  generalize sweep (allocateItem usage) (none, 0) front = s at *
  obtain ⟨⟨here?, cells⟩, _, _⟩ := s
  obtain rfl : here? = none := hnone
  rw [allocateItem_unknown ht]
  refine ⟨List.mem_append_right _ List.mem_cons_self,
    List.mem_append_right _ List.mem_cons_self, fun d hd => ?_⟩
  rw [← advance?_zero_distance?] at hd
  exact state_sweep_allocateItem hd

/-- A single tag that is among those left stands in the list, the given distance before its
end. -/
def KeptAt (usage : Usage) (left xs : List Tagged) (u : Tag) (d : Nat) : Prop :=
  ∃ first rest, xs = first ++ .tag u :: rest ∧ usage.isRepeated u.boundary.name = false ∧
    .tag u ∈ left ∧ distance? rest = some d

theorem exists_keptAt_cons {left : List Tagged} (x : Tagged) (front : List Tagged)
    (h : ∃ u d, KeptAt usage left xs u d) :
    ∃ u d, KeptAt usage (front ++ left) (x :: xs) u d := by
  obtain ⟨u, d, first, rest, rfl, hu, hmem, hd⟩ := h
  exact ⟨u, d, x :: first, rest, rfl, hu, List.mem_append_right _ hmem, hd⟩

/-- Where the pass that gives out cells stands anywhere, it stands at a known distance behind
where it started or behind a tag that it has kept. -/
theorem exists_keptAt_of_state {here? : Option Address} {cells : Nat} {a : Address}
    (hhere : ∀ a ∈ here?, a.CountsFromCell cells)
    (h : (sweep (allocateItem usage) (here?, cells) xs).state.1 = some a) :
    (∃ c k d, here? = some ⟨.cell c, k⟩ ∧ advance? k (distance? xs) = some d) ∨
      ∃ u d, KeptAt usage (sweep (allocateItem usage) (here?, cells) xs).items xs u d := by
  induction xs generalizing here? cells with
  | nil =>
      obtain ⟨c, k, rfl, -, hk⟩ := hhere a h
      exact .inl ⟨c, k, k, h, advance?_zero hk⟩
  | cons x xs ih =>
      rw [sweep] at h ⊢
      rcases tag_cases usage x with hx | ⟨t, rfl, ht⟩ | ⟨t, rfl, ht⟩
      · rw [allocateItem_of_not_tag hx] at h ⊢
        rcases ih (Address.countsFromCell_behind? hhere) h with ⟨c, k, d, hk, hd⟩ | hkept
        · obtain ⟨here, hsome, hshift⟩ := Option.bind_eq_some_iff.1 hk
          obtain ⟨c', k', rfl, -, -⟩ := hhere here hsome
          rw [hsome, Address.behind?_cell, Option.map_eq_some_iff] at hk
          obtain ⟨next, hnext, heq⟩ := hk
          cases heq
          refine .inl ⟨c, k', d, hsome, ?_⟩
          rw [distance?_cons, advance?_totalSize?, hnext]
          exact hd
        · exact .inr (exists_keptAt_cons x _ hkept)
      · rw [allocateItem_repeated ht] at h ⊢
        rw [distance?_tag]
        exact (ih hhere h).imp_right (exists_keptAt_cons _ _)
      · cases here? with
        | some here =>
            rw [allocateItem_known ht] at h ⊢
            rw [distance?_tag]
            exact (ih hhere h).imp_right (exists_keptAt_cons _ _)
        | none =>
            rw [allocateItem_unknown ht] at h ⊢
            have hcell : ∀ a ∈ some (Address.atCell cells), a.CountsFromCell (cells + 1) := by
              intro a ha
              cases ha
              exact ⟨cells, 0, rfl, Nat.lt_succ_self _, Nat.zero_le _⟩
            rcases ih hcell h with ⟨c, k, d, hk, hd⟩ | hkept
            · cases hk
              rw [advance?_zero_distance?] at hd
              exact .inr ⟨t, d, [], xs, rfl, ht, List.mem_cons_self, hd⟩
            · exact .inr (exists_keptAt_cons _ _ hkept)

/-! ## Leaving tags out around a place -/

theorem Thinned.trans {more : List Boundary} {zs : List Tagged} (h : Thinned usage gone xs ys)
    (h' : Thinned usage more ys zs) : ∃ all, Thinned usage all xs zs := by
  induction h generalizing more zs with
  | nil => exact ⟨more, h'⟩
  | drop ht _ ih =>
      obtain ⟨all, hall⟩ := ih h'
      exact ⟨_, hall.drop ht⟩
  | keep x _ ih =>
      cases h' with
      | drop ht hrest =>
          obtain ⟨all, hall⟩ := ih hrest
          exact ⟨_, hall.drop ht⟩
      | keep _ hrest =>
          obtain ⟨all, hall⟩ := ih hrest
          exact ⟨all, hall.keep x⟩

/-- A tag is left out, or still stands before what is left of the rest. -/
theorem Thinned.exists_behind {first : List Tagged}
    (h : Thinned usage gone (first ++ .tag u :: rest) ys) :
    u.boundary ∈ gone ∨ ∃ first' rest' more, ys = first' ++ .tag u :: rest' ∧
      Thinned usage more rest rest' := by
  induction first generalizing gone ys with
  | nil =>
      cases h with
      | drop _ _ => exact .inl List.mem_cons_self
      | keep _ hrest => exact .inr ⟨[], _, _, rfl, hrest⟩
  | cons x first ih =>
      cases h with
      | drop _ hrest =>
          exact (ih hrest).imp_left (List.mem_cons_of_mem _)
      | keep _ hrest =>
          refine (ih hrest).imp_right fun ⟨first', rest', more, hys, hmore⟩ => ?_
          exact ⟨x :: first', rest', more, congrArg (x :: ·) hys, hmore⟩

/-- What is left stood before what the rest was left of. -/
theorem Thinned.exists_before {first : List Tagged}
    (h : Thinned usage gone xs (first ++ x :: rest)) :
    ∃ first' rest' more, xs = first' ++ x :: rest' ∧ Thinned usage more rest' rest := by
  generalize hys : first ++ x :: rest = ys at h
  induction h generalizing first with
  | nil => cases first <;> cases hys
  | @drop gone t xs ys _ _ ih =>
      obtain ⟨first', rest', more, rfl, hmore⟩ := ih hys
      exact ⟨.tag t :: first', rest', more, rfl, hmore⟩
  | @keep gone xs ys y hxs ih =>
      cases first with
      | nil =>
          cases hys
          exact ⟨[], xs, gone, rfl, hxs⟩
      | cons z first =>
          obtain ⟨rfl, hrest⟩ := List.cons_eq_cons.1 hys
          obtain ⟨first', rest', more, rfl, hmore⟩ := ih hrest
          exact ⟨z :: first', rest', more, rfl, hmore⟩

theorem KeptAt.of_thinned {left before : List Tagged} (h : KeptAt usage left ys u d)
    (hys : Thinned usage gone before ys) : KeptAt usage left before u d := by
  obtain ⟨first, rest, rfl, hu, hmem, hd⟩ := h
  obtain ⟨first', rest', more, hbefore, hrest⟩ := hys.exists_before
  exact ⟨first', rest', hbefore, hu, hmem, hrest.distance?.trans hd⟩

/-! ## What is settled at a place of the spine -/

variable {before behind left : List Tagged} {optimise : Bool}

/-- All that the passes leave out are single tags. -/
theorem thinned_resolveEnds (usage : Usage) (optimise : Bool) (xs : List Tagged) :
    ∃ gone, Thinned usage gone xs (resolveEnds usage optimise xs).2 := by
  cases optimise with
  | false => exact ⟨[], .refl xs⟩
  | true =>
      have hfront := @thinned_sweep_resolveItem usage .afterStart xs (some 0)
      rw [resolveEnds, if_pos rfl]
      generalize sweep (resolveItem usage .afterStart) (some 0) xs = front at *
      have hback := (@thinned_sweep_resolveItem usage .beforeEnd front.items.reverse
        (some 0)).reverse
      rw [List.reverse_reverse] at hback
      exact hfront.trans hback

theorem thinned_settle (usage : Usage) (optimise : Bool) (xs : List Tagged) :
    ∃ gone, Thinned usage gone xs (settle usage optimise xs).2 := by
  obtain ⟨gone, hgone⟩ := thinned_resolveEnds usage optimise xs
  exact hgone.trans (thinned_sweep_allocateItem _ _)

theorem mem_settle_of_ends {e : Event} (he : e ∈ (resolveEnds usage optimise xs).1) :
    e ∈ (settle usage optimise xs).1 :=
  List.mem_append_left _ he

theorem mem_settle_of_cells {e : Event}
    (he : e ∈ (sweep (allocateItem usage) (none, 0) (resolveEnds usage optimise xs).2).events) :
    e ∈ (settle usage optimise xs).1 :=
  List.mem_append_right _ he

theorem settle_fromStart (ht : usage.isRepeated t.boundary.name = false)
    (hd : distance? before = some d) :
    .resolved t.boundary (.afterStart d) ∈
      (settle usage true (before ++ .tag t :: behind)).1 := by
  refine mem_settle_of_ends ?_
  rw [resolveEnds, if_pos rfl]
  exact List.mem_append_left _ (resolved_of_distance? ht hd)

/-- Behind an unknown distance from the start, the rest is left to the pass from the end. -/
theorem resolveEnds_of_unknown (hbefore : distance? before = none) (rest : List Tagged) :
    resolveEnds usage true (before ++ rest) =
      ((sweep (resolveItem usage .afterStart) (some 0) before).events ++
          (sweep (resolveItem usage .beforeEnd) (some 0) (rest.reverse ++
            (sweep (resolveItem usage .afterStart) (some 0) before).items.reverse)).events,
        (sweep (resolveItem usage .beforeEnd) (some 0) (rest.reverse ++
          (sweep (resolveItem usage .afterStart) (some 0) before).items.reverse)).items.reverse) := by
  simp only [resolveEnds, if_true, sweep_resolveItem_of_unknown hbefore, List.reverse_append]

theorem settle_fromEnd (ht : usage.isRepeated t.boundary.name = false)
    (hbefore : distance? before = none) (hd : distance? behind = some d) :
    .resolved t.boundary (.beforeEnd d) ∈
      (settle usage true (before ++ .tag t :: behind)).1 := by
  refine mem_settle_of_ends ?_
  rw [resolveEnds_of_unknown hbefore, List.reverse_cons, List.append_assoc, List.singleton_append]
  rw [← distance?_reverse] at hd
  exact List.mem_append_right _ (resolved_of_distance? ht hd)

/-- The tag at the place is decided on by neither pass that counts from an end. -/
def Undecided (optimise : Bool) (before behind : List Tagged) : Prop :=
  optimise = true → distance? before = none ∧ distance? behind = none

/-- The passes by the ends leave such a place where it is, behind what they leave of the stretch
before it. -/
theorem exists_front (h : Undecided optimise before behind) (x : Tagged) :
    ∃ gone front back, (resolveEnds usage optimise (before ++ x :: behind)).2 =
        front ++ x :: back ∧ Thinned usage gone before front ∧
      ∀ b ∈ gone, b ∈ resolvedBoundaries
        (resolveEnds usage optimise (before ++ x :: behind)).1 := by
  cases optimise with
  | false => exact ⟨[], before, behind, rfl, .refl before, nofun⟩
  | true =>
      obtain ⟨hbefore, hbehind⟩ := h rfl
      rw [← distance?_reverse] at hbehind
      have hthin := @thinned_sweep_resolveItem usage .afterStart before (some 0)
      rw [resolveEnds_of_unknown hbefore]
      generalize sweep (resolveItem usage .afterStart) (some 0) before = front at *
      rw [List.reverse_cons, List.append_assoc, List.singleton_append,
        sweep_resolveItem_of_unknown hbehind]
      generalize sweep (resolveItem usage .beforeEnd) (some 0) behind.reverse = back
      refine ⟨_, front.items, back.items.reverse, ?_, hthin, fun b hb => ?_⟩
      · rw [List.reverse_append, List.reverse_cons, List.reverse_reverse, List.append_assoc,
          List.singleton_append]
      · rw [resolvedBoundaries_append]
        exact List.mem_append_left _ hb

/-- Behind a tag that is kept, at a known distance, the tag is found from its cell. -/
theorem settle_fromCell (ht : usage.isRepeated t.boundary.name = false)
    (hfree : Undecided optimise before behind) (hkept : KeptAt usage left before u d)
    (hu : u.boundary ∉ resolvedBoundaries
      (settle usage optimise (before ++ .tag t :: behind)).1) :
    ∃ c, .stored u.boundary (.atCell c) ∈
        (settle usage optimise (before ++ .tag t :: behind)).1 ∧
      .resolved t.boundary ⟨.cell c, d⟩ ∈
        (settle usage optimise (before ++ .tag t :: behind)).1 := by
  obtain ⟨gone, front, back, hends, hfront, hgone⟩ := @exists_front usage _ _ _ hfree (.tag t)
  obtain ⟨first, rest, rfl, hsingle, -, hd⟩ := hkept
  rcases hfront.exists_behind with hmem | ⟨first', rest', more, rfl, hrest⟩
  · refine absurd ?_ hu
    obtain ⟨e, he, heb⟩ := List.mem_filterMap.1 (hgone _ hmem)
    exact List.mem_filterMap.2 ⟨e, mem_settle_of_ends he, heb⟩
  · rw [hrest.distance?] at hd
    have hevents : ∀ e ∈ (sweep (allocateItem usage) (none, 0)
        (first' ++ .tag u :: (rest' ++ .tag t :: back))).events,
        e ∈ (settle usage optimise (first ++ .tag u :: rest ++ .tag t :: behind)).1 := by
      intro e he
      refine mem_settle_of_cells ?_
      rw [hends, List.append_assoc]
      exact he
    have hstart : (sweep (allocateItem usage) (none, 0) first').state.1 = none := by
      refine Option.eq_none_iff_forall_ne_some.2 fun a ha => hu ?_
      exact List.mem_filterMap.2 ⟨_, hevents _ (resolved_of_state hsingle ha), rfl⟩
    have hstored := (stored_of_state (rest' ++ .tag t :: back) hsingle hstart).1
    have hstate := (stored_of_state rest' hsingle hstart).2.2 d hd
    have hresolved := @resolved_of_state usage t _ back _ ht hstate
    rw [List.append_assoc] at hresolved
    exact ⟨_, hevents _ hstored, hevents _ hresolved⟩

/-- A tag that neither pass by an end decides on is kept and gets a cell, unless a kept tag is
at a known distance before it. -/
theorem settle_stored (ht : usage.isRepeated t.boundary.name = false)
    (hfree : Undecided optimise before behind)
    (hnone : ∀ u d, ¬KeptAt usage (settle usage optimise (before ++ .tag t :: behind)).2
      before u d) :
    ∃ c, .stored t.boundary (.atCell c) ∈
        (settle usage optimise (before ++ .tag t :: behind)).1 ∧
      .tag t ∈ (settle usage optimise (before ++ .tag t :: behind)).2 := by
  obtain ⟨gone, front, back, hends, hfront, -⟩ := @exists_front usage _ _ _ hfree (.tag t)
  have hitems : (settle usage optimise (before ++ .tag t :: behind)).2 =
      (sweep (allocateItem usage) (none, 0) (front ++ .tag t :: back)).items := by
    rw [settle, hends]
  rw [hitems] at hnone ⊢
  have hstart : (sweep (allocateItem usage) (none, 0) front).state.1 = none := by
    have hnowhere : ∀ a ∈ (none : Option Address), a.CountsFromCell 0 :=
      fun a ha => absurd ha (Option.not_mem_none a)
    refine Option.eq_none_iff_forall_ne_some.2 fun a ha => ?_
    rcases exists_keptAt_of_state hnowhere ha with ⟨_, _, _, hsome, _⟩ | ⟨u, d, hu⟩
    · cases hsome
    · obtain ⟨first, rest, rfl, hsingle, hmem, hd⟩ := hu
      refine hnone u d (KeptAt.of_thinned ⟨first, rest, rfl, hsingle, ?_, hd⟩ hfront)
      rw [sweep_append]
      exact List.mem_append_left _ hmem
  obtain ⟨hstored, hmem, -⟩ := stored_of_state back ht hstart
  rw [← hends] at hstored
  exact ⟨_, mem_settle_of_cells hstored, hmem⟩

/-! ## The layout -/

/-- The tag is found at the address, and no tag of its boundary is left. -/
def FoundAt (l : Layout) (t : Tag) (a : Address) : Prop :=
  l.addresses.get? t.boundary = some a ∧ ∀ x ∈ l.regular.tags, x.boundary ≠ t.boundary

/-- How a tag of the spine is decided, from what stands before and behind it. -/
structure Decision (usage : Usage) (optimise : Bool) (l : Layout) (before : List Tagged)
    (t : Tag) (behind : List Tagged) : Prop where
  fromStart : optimise = true → ∀ p, distance? before = some p → l.FoundAt t (.afterStart p)
  fromEnd : optimise = true → distance? before = none → ∀ q, distance? behind = some q →
    l.FoundAt t (.beforeEnd q)
  /-- A kept tag before it, at a known distance, lends its cell. -/
  fromCell : Undecided optimise before behind → ∀ u c d,
    KeptAt usage l.regular.spine before u d → l.addresses.get? u.boundary = some (.atCell c) →
      l.FoundAt t ⟨.cell c, d⟩
  /-- Any other tag is kept, and its cell is its own. -/
  stored : Undecided optimise before behind →
    (∀ u d, ¬KeptAt usage l.regular.spine before u d) →
      .tag t ∈ l.regular.spine ∧
        ∃ c, l.addresses.get? t.boundary = some (.atCell c) ∧ l.cellOwner? c = some t.boundary

variable {clause : Tagged} {l : Layout} {more : List Boundary}

theorem Account.foundAt {events : List Event} {a : Address}
    (h : Account usage clause l events more) (hone : SinglesOnce usage clause.spine)
    (hevent : .resolved t.boundary a ∈ events) : l.FoundAt t a := by
  refine ⟨h.get?_placement (t.boundary, a) (List.mem_filterMap.2 ⟨_, hevent, rfl⟩), ?_⟩
  intro x hx heq
  refine h.decides.notMem hone _ (mem_boundaries_spine.2 ⟨x, hx, heq⟩) ?_
  exact List.mem_filterMap.2 ⟨_, hevent, rfl⟩

theorem Account.get?_of_stored {events : List Event} {b : Boundary} {a : Address}
    (h : Account usage clause l events more) (hevent : .stored b a ∈ events) :
    l.addresses.get? b = some a :=
  h.get?_placement (b, a) (mem_placements_of_stored hevent).1

theorem Account.decision (hspine : clause.spine = before ++ .tag t :: behind)
    (ht : usage.isRepeated t.boundary.name = false) (hone : SinglesOnce usage clause.spine)
    (hleft : l.regular.spine = (settle usage optimise clause.spine).2)
    (h : Account usage clause l (settle usage optimise clause.spine).1 more) :
    Decision usage optimise l before t behind := by
  have hfound := fun a => @Account.foundAt usage t clause l more _ a h hone
  rw [hspine] at hleft h hfound
  refine ⟨?_, ?_, ?_, ?_⟩
  · rintro rfl p hp
    exact hfound _ (settle_fromStart ht hp)
  · rintro rfl hbefore q hq
    exact hfound _ (settle_fromEnd ht hbefore hq)
  · intro hfree u c d hu hc
    have hmem : u.boundary ∈ boundaries l.regular.spine := by
      obtain ⟨_, _, _, _, hmem, _⟩ := hu
      exact List.mem_map_of_mem (List.mem_flatMap.2 ⟨_, hmem, List.mem_singleton_self u⟩)
    obtain ⟨c', hstored, hresolved⟩ :=
      settle_fromCell ht hfree hu (h.decides.notMem hone _ hmem)
    rw [h.get?_of_stored hstored] at hc
    cases hc
    exact hfound _ hresolved
  · intro hfree hnone
    rw [hleft] at hnone ⊢
    obtain ⟨c, hstored, hmem⟩ := settle_stored ht hfree hnone
    have hget := h.get?_of_stored hstored
    obtain ⟨c', hc', heq⟩ := h.settled.atCell
      (List.mem_append_left _ (mem_placements_of_stored hstored).2) hget
    exact ⟨hmem, c', heq ▸ hget, (h.settled.owner hc').1⟩

/-- The ledger of a layout comes from the spine alone, and so does what is left of it. -/
theorem compute_of_spine (optimise : Bool) (hone : SinglesOnce usage clause.spine) :
    let settled := settle usage optimise clause.spine
    let done := (capturesOf usage).run ((default : Ledger).applyAll settled.1)
    ∃ regular, regular.spine = settled.2 ∧ (compute usage optimise clause).run default =
      (⟨regular, done.1, done.2.cells, done.2.addresses⟩, done.2) := by
  obtain ⟨_, regular, hrun, hleft, -⟩ := passes_decide optimise hone
  refine ⟨regular, hleft, ?_⟩
  rw [compute_run]
  simp only [hrun]

theorem hasActions_spine (p : Tagged) : p.spine.any Tagged.hasActions = p.hasActions := by
  induction p with
  | seq a b iha ihb => rw [Tagged.hasActions, spine, List.any_append, iha, ihb]
  | epsilon => rfl
  | _ => exact Bool.or_false _

/-- The layout of a clause is decided by distances on its spine: from the start, from the end,
and behind the tags that are kept. All else stays as it is, so clauses with the same spine get
the same addresses, captures and cells. -/
theorem layout_by_distances (usage : Usage) (optimise : Bool) (clause : Tagged)
    (hactions : clause.hasActions = false)
    (hbound : ∀ t ∈ clause.tags, t.boundary.name ∈ usage.bound)
    (honce : ∀ t ∈ clause.openTags, t.boundary.name ∉ usage.repeated →
      (clause.tags.map Tag.boundary).count t.boundary = 1) :
    ∃ layout trace, clause.layout usage optimise = .ok (layout, trace) ∧
      (∀ before t behind, clause.spine = before ++ .tag t :: behind →
        t.boundary.name ∉ usage.repeated → Decision usage optimise layout before t behind) ∧
      (∃ gone, Thinned usage gone clause.spine layout.regular.spine) ∧
      ∀ other : Tagged, other.spine = clause.spine →
        ∃ layout', other.layout usage optimise = .ok (layout', trace) ∧
          layout'.regular.spine = layout.regular.spine ∧
          layout'.addresses = layout.addresses ∧ layout'.captures = layout.captures ∧
          layout'.cells = layout.cells := by
  have hone := singlesOnce_spine honce
  obtain ⟨hleft, more, haccount⟩ := compute_account optimise hone
  refine ⟨_, _, layout_eq_ok optimise hactions hbound, fun before t behind hspine ht => ?_, ?_,
    fun other hspine => ?_⟩
  · exact haccount.decision hspine (decide_eq_false ht) hone hleft
  · rw [hleft]
    exact thinned_settle usage optimise clause.spine
  · have hactions' : other.hasActions = false := by
      rw [← hasActions_spine, hspine, hasActions_spine, hactions]
    have hbound' : ∀ t ∈ other.tags, t.boundary.name ∈ usage.bound := by
      rw [← Tagged.tags_spine, hspine, Tagged.tags_spine]
      exact hbound
    obtain ⟨regular, hregular, hrun⟩ := compute_of_spine optimise hone
    rw [← hspine] at hone
    obtain ⟨regular', hregular', hrun'⟩ := compute_of_spine optimise hone
    rw [hspine] at hregular' hrun'
    have hother := layout_eq_ok optimise hactions' hbound'
    rw [hrun'] at hother
    rw [hrun]
    exact ⟨_, hother, hregular'.trans hregular.symm, rfl, rfl, rfl⟩

/-- In `a*<x>ba*</x>` the first tag is at no known distance from either end, so it gets a cell,
and the last one is placed by the end. -/
theorem layout_by_distances_ends :
    ∃ layout trace,
      (Tagged.seq (.star (.chars 0)) (.seq (.tag ⟨.opening "x", 0⟩)
          (.seq (.chars 1) (.seq (.star (.chars 0)) (.tag ⟨.closing "x", 0⟩))))).layout
        ⟨⟨["x"], by decide⟩, .empty, .empty, .empty, ⟨["x"], by decide⟩⟩ true =
          .ok (layout, trace) ∧
      .tag ⟨.opening "x", 0⟩ ∈ layout.regular.spine ∧
      layout.addresses.get? (.closing "x") = some (.beforeEnd 0) := by
  obtain ⟨layout, trace, hlayout, hdecision, -⟩ := layout_by_distances
    ⟨⟨["x"], by decide⟩, .empty, .empty, .empty, ⟨["x"], by decide⟩⟩ true
    (.seq (.star (.chars 0)) (.seq (.tag ⟨.opening "x", 0⟩)
      (.seq (.chars 1) (.seq (.star (.chars 0)) (.tag ⟨.closing "x", 0⟩)))))
    rfl (by decide) (by decide)
  have hopening := hdecision [.star (.chars 0)] ⟨.opening "x", 0⟩
    [.chars 1, .star (.chars 0), .tag ⟨.closing "x", 0⟩] rfl (by decide)
  have hclosing := hdecision
    [.star (.chars 0), .tag ⟨.opening "x", 0⟩, .chars 1, .star (.chars 0)] ⟨.closing "x", 0⟩ []
    rfl (by decide)
  refine ⟨layout, trace, hlayout, (hopening.stored (fun _ => ⟨rfl, rfl⟩) ?_).1,
    (hclosing.fromEnd rfl rfl 0 rfl).1⟩
  rintro u d ⟨first, rest, heq, -⟩
  cases first with
  | nil => cases heq
  | cons x first => cases first <;> cases heq

end Layout

end LexTags
