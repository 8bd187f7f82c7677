import Mathlib.Data.FinEnum
import Mathlib.Order.Interval.Finset.Nat
import LexTags.Offset
import LexTags.Proofs.SetAlgebra

/-!
# How many units a set has

The number of units is computed from the lengths of the intervals. It is right because the
intervals of a set are proper and no two of them share a unit, whatever operations have led to the
set, and so the numbers of a union, an intersection and a difference are related like those of
finite sets. Counted in 32 bits, neither a length nor a sum leaves the range: all intervals
together lie below the largest unit.

For the same reason the unit that stands for a set, the start of its first interval, is the least
one.
-/

namespace LexTags

/-- The length of an interval, computed in 32 bits. -/
def Interval.len? (i : Interval) : Option Nat :=
  if i.first ≤ i.last then addOffset? (i.last.toNat - i.first.toNat) 1 else none

namespace CharSet

variable {s t : CharSet} {c : CodeUnit} {floor n : Nat} {i : Interval} {is : List Interval}

/-- The number of units, summed up in 32 bits from the first interval to the last. -/
def cardinal? (s : CharSet) : Option Nat :=
  s.intervals.foldlM (fun n i => i.len?.bind (addOffset? n)) 0

/-- The units of a set. -/
def members (s : CharSet) : Finset CodeUnit :=
  Finset.univ.filter fun c => s.contains c = true

@[simp]
theorem mem_members : c ∈ s.members ↔ s.contains c = true := by
  simp [members]

/-! ## Lengths -/

theorem card_contains (i : Interval) :
    (Finset.univ.filter fun c => i.contains c = true).card = i.len := by
  have hmap : (Finset.univ.filter fun c => i.contains c = true).map
      ⟨UInt16.toNat, fun _ _ h => UInt16.toNat_inj.1 h⟩ =
        Finset.Icc i.first.toNat i.last.toNat := by
    ext n
    simp only [Finset.mem_map, Finset.mem_filter, Finset.mem_univ, true_and, Interval.contains_iff,
      Finset.mem_Icc]
    constructor
    · intro h
      obtain ⟨c, hc, rfl⟩ := h
      exact hc
    · intro hn
      have hlt : n < UInt16.size := Nat.lt_of_le_of_lt hn.2 i.last.toNat_lt
      have hof : (UInt16.ofNat n).toNat = n := UInt16.toNat_ofNat_of_lt hlt
      exact ⟨UInt16.ofNat n, by rwa [hof], hof⟩
  rw [← Finset.card_map, hmap, Nat.card_Icc, Interval.len]

/-- No unit is counted twice, since the intervals share none. -/
theorem IncreasingFrom.card_covered (h : IncreasingFrom floor is) :
    (Finset.univ.filter fun c => is.any (·.contains c) = true).card =
      is.foldr (fun i n => i.len + n) 0 := by
  induction is generalizing floor with
  | nil => simp
  | cons i is ih =>
      have hdisjoint : Disjoint (Finset.univ.filter fun c => i.contains c = true)
          (Finset.univ.filter fun c => is.any (·.contains c) = true) := by
        rw [Finset.disjoint_filter]
        intro c _ hi hrest
        have hcovers : Covers is c := by simpa [Covers] using hrest
        have hle := h.2.2.le_of_covers hcovers
        have hlast := (Interval.contains_iff.1 hi).2
        omega
      simp only [List.any_cons, Bool.or_eq_true, Finset.filter_or, List.foldr_cons]
      rw [Finset.card_union_of_disjoint hdisjoint, card_contains, ih h.2.2]

/-- All intervals together are no longer than what lies above the floor. -/
theorem IncreasingFrom.sum_le (h : IncreasingFrom floor is) :
    is.foldr (fun i n => i.len + n) 0 ≤ 0x10000 - floor := by
  induction is generalizing floor with
  | nil => exact Nat.zero_le _
  | cons i is ih =>
      obtain ⟨hfloor, hproper, hrest⟩ := h
      have hbehind := ih hrest
      have hlt := i.last.toNat_lt
      rw [List.foldr_cons, Interval.len]
      omega

/-- Where the whole sum stays in the range, so does each sum on the way. -/
theorem IncreasingFrom.foldlM_len? (h : IncreasingFrom floor is)
    (hn : n + is.foldr (fun i n => i.len + n) 0 ≤ maxOffset) :
    is.foldlM (fun n i => i.len?.bind (addOffset? n)) n =
      some (n + is.foldr (fun i n => i.len + n) 0) := by
  induction is generalizing floor n with
  | nil => rfl
  | cons i is ih =>
      obtain ⟨-, hproper, hrest⟩ := h
      rw [List.foldr_cons] at hn ⊢
      have hlen : i.len? = some i.len := by
        rw [Interval.len?, if_pos (UInt16.le_iff_toNat_le.2 hproper), addOffset?_eq_some_iff]
        rw [Interval.len] at hn ⊢
        omega
      have hsum : addOffset? n i.len = some (n + i.len) :=
        addOffset?_eq_some_iff.2 ⟨rfl, by omega⟩
      rw [List.foldlM_cons, hlen, Option.bind_some, hsum, ← Nat.add_assoc]
      exact ih hrest (by omega)

theorem Canonical.cardinal_eq (h : s.Canonical) : s.cardinal = s.members.card :=
  h.increasing.card_covered.symm

theorem Canonical.cardinal?_eq (h : s.Canonical) : s.cardinal? = some s.cardinal := by
  have hle : s.cardinal ≤ 0x10000 - 0 := h.increasing.sum_le
  have hsum := h.increasing.foldlM_len? (n := 0) (by
    show 0 + s.cardinal ≤ maxOffset
    rw [maxOffset]
    omega)
  rwa [Nat.zero_add] at hsum

/-! ## Members of what the operations leave -/

theorem Canonical.members_union (hs : s.Canonical) (ht : t.Canonical) :
    (s.union t).members = s.members ∪ t.members := by
  ext c
  simp [hs.contains_union ht]

theorem Canonical.members_inter (hs : s.Canonical) (ht : t.Canonical) :
    (s.inter t).members = s.members ∩ t.members := by
  ext c
  simp [hs.contains_inter ht]

theorem Canonical.members_diff (hs : s.Canonical) (ht : t.Canonical) :
    (s.diff t).members = s.members \ t.members := by
  ext c
  simp [hs.contains_diff ht]

theorem Canonical.cardinal_union_add_inter (hs : s.Canonical) (ht : t.Canonical) :
    (s.union t).cardinal + (s.inter t).cardinal = s.cardinal + t.cardinal := by
  rw [(hs.union ht).cardinal_eq, (hs.inter ht).cardinal_eq, hs.cardinal_eq, ht.cardinal_eq,
    hs.members_union ht, hs.members_inter ht, Finset.card_union_add_card_inter]

theorem Canonical.cardinal_diff_add_inter (hs : s.Canonical) (ht : t.Canonical) :
    (s.diff t).cardinal + (s.inter t).cardinal = s.cardinal := by
  rw [(hs.diff ht).cardinal_eq, (hs.inter ht).cardinal_eq, hs.cardinal_eq, hs.members_diff ht,
    hs.members_inter ht, Finset.card_sdiff_add_card_inter]

/-- The number that is computed for a set is the number of its units, and counting in 32 bits leads
to it without leaving the range. A union and an intersection have as many units together as the
two sets, and a difference has as many as the intersection leaves. The unit that stands for a set
is its least one, and only the empty set has none. -/
theorem cardinal_of_built (hs : s.Built) (ht : t.Built) :
    s.cardinal = s.members.card ∧ s.cardinal? = some s.cardinal ∧
    (s.union t).cardinal + (s.inter t).cardinal = s.cardinal + t.cardinal ∧
    (s.inter t).cardinal ≤ s.cardinal ∧
    (s.diff t).cardinal = s.cardinal - (s.inter t).cardinal ∧
    (∀ c, s.witness? = some c ↔ s.contains c = true ∧ ∀ d, s.contains d = true → c ≤ d) ∧
    (s.witness? = none ↔ ∀ c, s.contains c = false) := by
  have hs := hs.canonical
  have ht := ht.canonical
  have hdiff := hs.cardinal_diff_add_inter ht
  exact ⟨hs.cardinal_eq, hs.cardinal?_eq, hs.cardinal_union_add_inter ht, by omega, by omega,
    fun c => hs.witness?_eq_some_iff, hs.witness?_eq_none_iff⟩

/-- The full set has one unit more than there are ordinary ones, and the least one is zero. -/
theorem cardinal_of_built_ends :
    all.Built ∧ ordinary.Built ∧ all.members.card = 0x10000 ∧ all.cardinal? = some 0x10000 ∧
      (all.diff ordinary).cardinal = 1 ∧ all.witness? = some 0 := by
  obtain ⟨hcard, hcount, -, -, hdiff, hleast, -⟩ := cardinal_of_built .all .ordinary
  have hall : all.cardinal = 0x10000 := rfl
  have hordinary : (all.inter ordinary).cardinal = 0xFFFF := rfl
  refine ⟨.all, .ordinary, hcard.symm.trans hall, hcount.trans (congrArg some hall), ?_, ?_⟩
  · rw [hdiff, hall, hordinary]
  · exact (hleast 0).2 ⟨contains_all, fun d _ => UInt16.zero_le⟩

end CharSet

end LexTags
