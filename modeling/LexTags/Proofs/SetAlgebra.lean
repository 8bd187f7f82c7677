import LexTags.Proofs.NormalForm

/-!
# Sets of units as a Boolean algebra

Each operation does to the members what its name says, and since sets with the same members are
equal, the laws of Boolean algebra hold of the values themselves.

A unit is looked for in the intervals one by one, or by halving, which comes to the same on an
increasing list.
-/

namespace LexTags.CharSet

variable {s t : CharSet} {c : CodeUnit} {floor : Nat} {i : Interval} {is js : List Interval}

/-! ## Membership by halving -/

/-- Whether an increasing list has an interval with the unit. The interval in the middle has it,
or tells on which side to go on. -/
def searchIntervals (c : CodeUnit) (is : List Interval) : Bool :=
  match _h : is.drop (is.length / 2) with
  | [] => false
  | i :: rest =>
      if i.last < c then searchIntervals c rest
      else if c < i.first then searchIntervals c (is.take (is.length / 2))
      else true
termination_by is.length
decreasing_by
  all_goals
    have hlength := congrArg List.length _h
    rw [List.length_drop, List.length_cons] at hlength
    try rw [List.length_take]
    omega

/-- Whether a set has a unit, by halving where there is a list to search. -/
def search : CharSet → CodeUnit → Bool
  | empty, _ => false
  | single u, c => u = c
  | all, _ => true
  | ranges is, c => searchIntervals c is

/-- A unit behind the end of an interval in the middle is covered on its right or not at all. -/
theorem IncreasingFrom.covers_iff_right (h : IncreasingFrom floor (is ++ i :: js))
    (hlt : i.last.toNat < c.toNat) : Covers (is ++ i :: js) c ↔ Covers js c := by
  have hbehind : ¬ (i.first.toNat ≤ c.toNat ∧ c.toNat ≤ i.last.toNat) :=
    fun hi => Nat.not_le_of_lt hlt hi.2
  rw [covers_append, covers_cons, or_iff_right hbehind]
  refine or_iff_right fun ⟨j, hj, hcontains⟩ => ?_
  have hgap := (List.pairwise_append.1 h.pairwise).2.2 j hj i List.mem_cons_self
  have hproper := (h.of_mem (List.mem_append_right is List.mem_cons_self)).2
  have := (Interval.contains_iff.1 hcontains).2
  omega

/-- One before its start is covered on its left or not at all. -/
theorem IncreasingFrom.covers_iff_left (h : IncreasingFrom floor (is ++ i :: js))
    (hlt : c.toNat < i.first.toNat) : Covers (is ++ i :: js) c ↔ Covers is c := by
  have hright := h.sublist (List.sublist_append_right is (i :: js))
  rw [covers_append, or_iff_left (hright.atFirst.not_covers hlt)]

theorem searchIntervals_iff (h : IncreasingFrom floor is) :
    searchIntervals c is = true ↔ Covers is c := by
  fun_induction searchIntervals c is with
  | case1 is hdrop =>
      -- only the empty list has nothing from its middle on
      have hlength := List.drop_eq_nil_iff.1 hdrop
      obtain rfl : is = [] := List.eq_nil_of_length_eq_zero (by omega)
      simp
  | case2 is i rest hdrop hlt ih =>
      have hsplit := List.take_append_drop (is.length / 2) is
      rw [hdrop] at hsplit
      rw [← hsplit] at h
      have hsub : rest.Sublist (is.take (is.length / 2) ++ i :: rest) :=
        (List.sublist_cons_self i rest).trans (List.sublist_append_right _ _)
      calc searchIntervals c rest = true
        _ ↔ Covers rest c := ih (h.sublist hsub)
        _ ↔ Covers (is.take (is.length / 2) ++ i :: rest) c :=
            (h.covers_iff_right (UInt16.lt_iff_toNat_lt.1 hlt)).symm
        _ ↔ Covers is c := by rw [hsplit]
  | case3 is i rest hdrop hle hlt ih =>
      have hsplit := List.take_append_drop (is.length / 2) is
      rw [hdrop] at hsplit
      have hsub := List.take_sublist (is.length / 2) is
      calc searchIntervals c (is.take (is.length / 2)) = true
        _ ↔ Covers (is.take (is.length / 2)) c := ih (h.sublist hsub)
        _ ↔ Covers (is.take (is.length / 2) ++ i :: rest) c := by
            rw [← hsplit] at h
            exact (h.covers_iff_left (UInt16.lt_iff_toNat_lt.1 hlt)).symm
        _ ↔ Covers is c := by rw [hsplit]
  | case4 is i rest hdrop hle hge =>
      have hmem : i ∈ is := List.mem_of_mem_drop (hdrop ▸ List.mem_cons_self)
      have hlast := mt UInt16.lt_iff_toNat_lt.2 hle
      have hfirst := mt UInt16.lt_iff_toNat_lt.2 hge
      exact iff_of_true rfl ⟨i, hmem, Interval.contains_iff.2 (by omega)⟩

/-- Halving finds the members of a set. -/
theorem Canonical.search_eq (h : s.Canonical) : s.search c = s.contains c := by
  cases s with
  | empty => rfl
  | single u => rw [Bool.eq_iff_iff, search, contains_single, decide_eq_true_iff, eq_comm]
  | all => exact contains_all.symm
  | ranges is =>
      have hincreasing : IncreasingFrom 0 is := h.increasing
      rw [Bool.eq_iff_iff, search, searchIntervals_iff hincreasing, contains_iff_covers, intervals]

/-! ## The members of what an operation leaves -/

theorem contains_pack : (pack is).contains c = true ↔ Covers is c := by
  rw [contains_iff_covers, intervals_pack]

/-- The set of some units has these as its members. -/
theorem contains_ofUnits {units : List CodeUnit} :
    (ofUnits units).contains c = true ↔ c ∈ units := by
  rw [ofUnits, contains_pack, covers_coalesce (sorted_map_unit (pairwise_mergeSort_units units)),
    covers_map_unit, List.mem_mergeSort]

theorem Canonical.contains_union (hs : s.Canonical) (ht : t.Canonical) :
    (s.union t).contains c = (s.contains c || t.contains c) := by
  unfold CharSet.union
  split
  · rw [contains_empty, Bool.false_or]
  · rw [contains_empty, Bool.or_false]
  · rw [contains_all, Bool.true_or]
  · rw [contains_all, Bool.or_true]
  · have hsorted := hs.increasing.sorted.merge ht.increasing.sorted
    rw [Bool.eq_iff_iff, Bool.or_eq_true, contains_pack, covers_coalesce hsorted, covers_merge,
      ← contains_iff_covers, ← contains_iff_covers]

theorem Canonical.contains_inter (hs : s.Canonical) (ht : t.Canonical) :
    (s.inter t).contains c = (s.contains c && t.contains c) := by
  unfold CharSet.inter
  split
  · rw [contains_empty, Bool.false_and]
  · rw [contains_empty, Bool.and_false]
  · rw [contains_all, Bool.true_and]
  · rw [contains_all, Bool.and_true]
  · rw [Bool.eq_iff_iff, Bool.and_eq_true, contains_pack,
      covers_commonIntervals hs.increasing ht.increasing, ← contains_iff_covers,
      ← contains_iff_covers]

theorem Canonical.contains_diff (hs : s.Canonical) (ht : t.Canonical) :
    (s.diff t).contains c = (s.contains c && !t.contains c) := by
  unfold CharSet.diff
  split
  · rw [contains_empty, Bool.false_and]
  · rw [contains_all, contains_empty, Bool.not_true, Bool.and_false]
  · rw [contains_empty, Bool.not_false, Bool.and_true]
  · rw [Bool.eq_iff_iff, Bool.and_eq_true, Bool.not_eq_true', ← Bool.not_eq_true, contains_pack,
      covers_remainingIntervals hs.increasing ht.increasing, ← contains_iff_covers,
      ← contains_iff_covers]

theorem Canonical.contains_compl (hs : s.Canonical) : s.compl.contains c = !s.contains c := by
  rw [CharSet.compl, canonical_all.contains_diff hs, contains_all, Bool.true_and]

theorem Canonical.isEmpty_iff (h : s.Canonical) :
    s.isEmpty = true ↔ ∀ c, s.contains c = false := by
  rw [← h.normal.empty_iff]
  cases s <;> simp [isEmpty]

theorem Canonical.isSubset_iff (hs : s.Canonical) (ht : t.Canonical) :
    s.isSubset t = true ↔ ∀ c, s.contains c = true → t.contains c = true := by
  rw [isSubset, (hs.diff ht).isEmpty_iff]
  refine forall_congr' fun c => ?_
  rw [hs.contains_diff ht]
  cases s.contains c <;> cases t.contains c <;> simp

/-! ## Laws -/

theorem Canonical.compl_compl (h : s.Canonical) : s.compl.compl = s :=
  h.compl.compl.ext h fun c => by
    rw [h.compl.contains_compl, h.contains_compl, Bool.not_not]

theorem Canonical.union_compl (h : s.Canonical) : s.union s.compl = all :=
  (h.union h.compl).ext canonical_all fun c => by
    rw [h.contains_union h.compl, h.contains_compl, Bool.or_not_self, contains_all]

theorem Canonical.inter_compl (h : s.Canonical) : s.inter s.compl = empty :=
  (h.inter h.compl).ext canonical_empty fun c => by
    rw [h.contains_inter h.compl, h.contains_compl, Bool.and_not_self, contains_empty]

/-- Sets form the Boolean algebra of the sets of units, with membership as halving finds it. -/
theorem boolean_of_built (hs : s.Built) (ht : t.Built) :
    (∀ c, s.search c = s.contains c ∧
      (s.union t).contains c = (s.contains c || t.contains c) ∧
      (s.inter t).contains c = (s.contains c && t.contains c) ∧
      (s.diff t).contains c = (s.contains c && !t.contains c) ∧
      s.compl.contains c = !s.contains c) ∧
    (s.isSubset t = true ↔ ∀ c, s.contains c = true → t.contains c = true) ∧
    s.compl.compl = s ∧ s.union s.compl = all ∧ s.inter s.compl = empty := by
  have hs := hs.canonical
  have ht := ht.canonical
  exact ⟨fun c => ⟨hs.search_eq, hs.contains_union ht, hs.contains_inter ht,
    hs.contains_diff ht, hs.contains_compl⟩, hs.isSubset_iff ht, hs.compl_compl, hs.union_compl,
    hs.inter_compl⟩

/-- A set with the least and the largest unit, and the set of all units but the largest. -/
theorem boolean_of_built_ends :
    let s := ofUnits [0xFFFF, 98, 97, 0]
    s.Built ∧ ordinary.Built ∧
      (∀ c, (s.diff ordinary).contains c = (s.contains c && !ordinary.contains c)) ∧
      s.isSubset ordinary = false ∧ s.compl.compl = s := by
  have hmember : (ofUnits [0xFFFF, 98, 97, 0]).contains 0xFFFF = true :=
    contains_ofUnits.2 (by decide)
  intro s
  have hs : s.Built := .ofUnits _
  obtain ⟨hmembers, hsubset, hcompl, -⟩ := boolean_of_built hs .ordinary
  have hlargest : ordinary.contains 0xFFFF = false := by decide
  refine ⟨hs, .ordinary, fun c => (hmembers c).2.2.2.1, ?_, hcompl⟩
  rw [← Bool.not_eq_true, hsubset]
  exact fun h => Bool.false_ne_true (hlargest.symm.trans (h 0xFFFF hmember))

end LexTags.CharSet
