import LexTags.Proofs.Intervals

/-!
# The normal form of a set

A set is in normal form if its interval list is increasing and `pack` would give it the form
that it has. Every set that the operations lead to is in normal form, since each of them packs
an increasing list or gives back an operand. The members of a set then determine its list, the
list determines its form, and two sets with the same members are the same value.
-/

namespace LexTags.CharSet

variable {s t : CharSet} {c : CodeUnit} {floor : Nat} {i : Interval} {is : List Interval}

/-- The set is the one that its interval list stands for, and the list is in order. -/
def Canonical (s : CharSet) : Prop := ofIntervals s.intervals = .ok s

theorem canonical_iff : s.Canonical ↔ IncreasingFrom 0 s.intervals ∧ pack s.intervals = s := by
  rw [Canonical, ofIntervals, ← faultIn?_eq_none_iff]
  cases faultIn? none s.intervals <;> simp

theorem Canonical.increasing (h : s.Canonical) : IncreasingFrom 0 s.intervals :=
  (canonical_iff.1 h).1

theorem Canonical.pack_intervals (h : s.Canonical) : pack s.intervals = s :=
  (canonical_iff.1 h).2

theorem IncreasingFrom.canonical_pack (h : IncreasingFrom floor is) : (pack is).Canonical := by
  rw [canonical_iff, intervals_pack]
  exact ⟨h.mono (Nat.zero_le _), rfl⟩

/-- Sets in normal form with the same members are equal. -/
theorem Canonical.ext (hs : s.Canonical) (ht : t.Canonical)
    (h : ∀ c, s.contains c = t.contains c) : s = t := by
  have hlists : s.intervals = t.intervals := hs.increasing.ext ht.increasing fun c => by
    rw [← contains_iff_covers, ← contains_iff_covers, h]
  rw [← hs.pack_intervals, hlists, ht.pack_intervals]

/-- The unit that stands for a set is its least one. -/
theorem Canonical.witness?_eq_some_iff (h : s.Canonical) :
    s.witness? = some c ↔ s.contains c = true ∧ ∀ d, s.contains d = true → c ≤ d := by
  have hincreasing := h.increasing
  simp only [witness?, contains_iff_covers]
  cases hlist : s.intervals with
  | nil => simp
  | cons i is =>
      rw [hlist] at hincreasing
      have hleast : ∀ d, Covers (i :: is) d → i.first ≤ d := fun d hd =>
        UInt16.le_iff_toNat_le.2 (hincreasing.atFirst.le_of_covers hd)
      rw [List.head?_cons, Option.map_some, Option.some.injEq]
      constructor
      · rintro rfl
        exact ⟨hincreasing.covers_first, hleast⟩
      · intro hc
        exact UInt16.le_antisymm (hleast c hc.1) (hc.2 _ hincreasing.covers_first)

theorem Canonical.witness?_eq_none_iff (h : s.Canonical) :
    s.witness? = none ↔ ∀ c, s.contains c = false := by
  constructor
  · intro hnone c
    rw [witness?, Option.map_eq_none_iff, List.head?_eq_none_iff] at hnone
    simp [contains, hnone]
  · intro hnone
    refine Option.eq_none_iff_forall_ne_some.2 fun c hc => ?_
    have hmember := (h.witness?_eq_some_iff.1 hc).1
    exact Bool.false_ne_true ((hnone c).symm.trans hmember)

/-! ## Sets from units and intervals -/

theorem canonical_empty : empty.Canonical := rfl

theorem canonical_all : all.Canonical := rfl

theorem canonical_ordinary : ordinary.Canonical := rfl

theorem canonical_single (c : CodeUnit) : (single c).Canonical := by
  refine canonical_iff.2 ⟨⟨Nat.zero_le _, Nat.le_refl _, trivial⟩, if_pos rfl⟩

theorem canonical_of_interval {first last : CodeUnit} (h : interval first last = .ok s) :
    s.Canonical := by
  rw [interval] at h
  split at h
  · next hproper =>
      cases h
      have hincreasing : IncreasingFrom 0 [⟨first, last⟩] :=
        ⟨Nat.zero_le _, Interval.isProper_iff.1 hproper, trivial⟩
      exact hincreasing.canonical_pack
  · cases h

theorem canonical_ofUnits (units : List CodeUnit) : (ofUnits units).Canonical :=
  (increasingFrom_coalesce (sorted_map_unit (pairwise_mergeSort_units units))).canonical_pack

/-- A list that passes the check is the list of a set in normal form. -/
theorem eq_pack_of_ofIntervals (h : ofIntervals is = .ok s) :
    IncreasingFrom 0 is ∧ s = pack is := by
  rw [ofIntervals] at h
  split at h
  · cases h
  · next hnone => exact ⟨faultIn?_eq_none_iff.1 hnone, (Except.ok.inj h).symm⟩

theorem canonical_of_ofIntervals (h : ofIntervals is = .ok s) : s.Canonical := by
  obtain ⟨hincreasing, rfl⟩ := eq_pack_of_ofIntervals h
  exact hincreasing.canonical_pack

/-! ## Sets from sets -/

theorem Canonical.union (hs : s.Canonical) (ht : t.Canonical) : (s.union t).Canonical := by
  unfold CharSet.union
  split
  · exact ht
  · exact hs
  · exact canonical_all
  · exact canonical_all
  · have hsorted := hs.increasing.sorted.merge ht.increasing.sorted
    exact (increasingFrom_coalesce hsorted).canonical_pack

theorem Canonical.inter (hs : s.Canonical) (ht : t.Canonical) : (s.inter t).Canonical := by
  unfold CharSet.inter
  split
  · exact canonical_empty
  · exact canonical_empty
  · exact ht
  · exact hs
  · exact (increasingFrom_commonIntervals hs.increasing ht.increasing).canonical_pack

theorem Canonical.diff (hs : s.Canonical) (ht : t.Canonical) : (s.diff t).Canonical := by
  unfold CharSet.diff
  split
  · exact canonical_empty
  · exact canonical_empty
  · exact hs
  · exact (increasingFrom_remainingIntervals hs.increasing ht.increasing).canonical_pack

theorem Canonical.compl (hs : s.Canonical) : s.compl.Canonical := canonical_all.diff hs

/-- The set can be obtained from units, intervals and other sets. -/
inductive Built : CharSet → Prop where
  | empty : Built empty
  | all : Built all
  | ordinary : Built ordinary
  | eof : Built eof
  | single (c : CodeUnit) : Built (single c)
  | interval {first last : CodeUnit} {s : CharSet} (h : interval first last = .ok s) : Built s
  | ofUnits (units : List CodeUnit) : Built (ofUnits units)
  | ofIntervals {is : List Interval} {s : CharSet} (h : ofIntervals is = .ok s) : Built s
  | union {s t : CharSet} (hs : Built s) (ht : Built t) : Built (s.union t)
  | inter {s t : CharSet} (hs : Built s) (ht : Built t) : Built (s.inter t)
  | diff {s t : CharSet} (hs : Built s) (ht : Built t) : Built (s.diff t)
  | compl {s : CharSet} (hs : Built s) : Built s.compl

theorem Built.canonical (h : Built s) : s.Canonical := by
  induction h with
  | empty => exact canonical_empty
  | all => exact canonical_all
  | ordinary => exact canonical_ordinary
  | eof => exact canonical_single _
  | single c => exact canonical_single c
  | interval h => exact canonical_of_interval h
  | ofUnits units => exact canonical_ofUnits units
  | ofIntervals h => exact canonical_of_ofIntervals h
  | union _ _ ihs iht => exact ihs.union iht
  | inter _ _ ihs iht => exact ihs.inter iht
  | diff _ _ ihs iht => exact ihs.diff iht
  | compl _ ih => exact ih.compl

/-! ## What the normal form looks like -/

/-- The intervals are proper and apart from each other, in increasing order, and the three
special forms are kept for the sets that they are named for. -/
structure Normal (s : CharSet) : Prop where
  proper : ∀ i ∈ s.intervals, i.first ≤ i.last
  apart : s.intervals.Pairwise fun i j => i.last.toNat + 1 < j.first.toNat
  empty_iff : s = empty ↔ ∀ c, s.contains c = false
  single_iff : ∀ u, s = single u ↔ ∀ c, s.contains c = true ↔ c = u
  all_iff : s = all ↔ ∀ c, s.contains c = true

@[simp]
theorem contains_empty : empty.contains c = false := rfl

@[simp]
theorem contains_single {u : CodeUnit} : (single u).contains c = true ↔ c = u := by
  rw [contains_iff_covers, intervals, covers_cons, or_iff_left covers_nil, ← UInt16.toNat_inj]
  exact ⟨fun h => Nat.le_antisymm h.2 h.1, fun h => h ▸ ⟨Nat.le_refl _, Nat.le_refl _⟩⟩

@[simp]
theorem contains_all : all.contains c = true := by
  have hlt := c.toNat_lt
  rw [contains_iff_covers, intervals, covers_cons]
  exact .inl ⟨Nat.zero_le _, Nat.le_of_lt_succ hlt⟩

theorem Canonical.normal (h : s.Canonical) : s.Normal where
  proper _ hi := UInt16.le_iff_toNat_le.2 (h.increasing.of_mem hi).2
  apart := h.increasing.pairwise
  empty_iff := by
    refine ⟨?_, fun hc => h.ext canonical_empty fun c => (hc c).trans contains_empty.symm⟩
    rintro rfl c
    exact contains_empty
  single_iff u := by
    refine ⟨?_, fun hc => h.ext (canonical_single u) fun c => ?_⟩
    · rintro rfl c
      exact contains_single
    · rw [Bool.eq_iff_iff, hc, contains_single]
  all_iff := by
    refine ⟨?_, fun hc => h.ext canonical_all fun c => (hc c).trans contains_all.symm⟩
    rintro rfl c
    exact contains_all

/-- However a set has been obtained, it is in normal form, and it equals another one if the two
have the same members. -/
theorem normal_of_built (hs : s.Built) (ht : t.Built) :
    s.Normal ∧ (s = t ↔ ∀ c, s.contains c = t.contains c) :=
  ⟨hs.canonical.normal, fun h _ => h ▸ rfl, hs.canonical.ext ht.canonical⟩

/-- With the end of the input added, the other units fuse into the full set. -/
theorem normal_of_built_fused :
    (ordinary.union eof).Built ∧ all.Built ∧ (ordinary.union eof).Normal ∧
      ∀ c, (ordinary.union eof).contains c = all.contains c := by
  have hs : (ordinary.union eof).Built := .union .ordinary .eof
  obtain ⟨hnormal, hext⟩ := normal_of_built hs .all
  exact ⟨hs, .all, hnormal, hext.1 (by cbv)⟩

end LexTags.CharSet
