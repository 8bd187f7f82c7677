import Mathlib.Order.WellFounded
import LexTags.Proofs.NormalForm

/-!
# The order on sets

Sets are compared like their interval lists. The first intervals in which the lists differ decide,
by where they start and then by where they end, and a list comes before one that goes on behind it.
This is a total order on lists, whatever is in them. It is one on sets because in normal form the
members determine the list.

The order can be told from the members alone. Two sets are compared at the least unit in which they
differ, and one of them goes without it. That set breaks off there if it has the unit just before,
so that its interval ends where the other one goes on, or if it has no unit behind, so that its
list ends where the other one goes on. Then it comes first. Otherwise its next interval starts
behind the one that the other set has there, and it comes second.
-/

namespace LexTags

namespace Interval

variable {i j : Interval}

instance : Std.TransOrd Interval :=
  inferInstanceAs (Std.TransCmp (compareLex (compareOn first) (compareOn last)))

/-- Where an interval starts is compared before where it ends. -/
theorem compare_eq (i j : Interval) :
    compare i j = (compare i.first j.first).then (compare i.last j.last) := rfl

theorem compare_eq_lt_iff :
    compare i j = .lt ↔ i.first < j.first ∨ i.first = j.first ∧ i.last < j.last := by
  rw [compare_eq, Ordering.then_eq_lt, Std.compare_eq_lt, Std.compare_eq_lt,
    Std.LawfulEqOrd.compare_eq_iff_eq]

instance : Std.LawfulEqOrd Interval where
  eq_of_compare := by
    intro i j h
    rw [compare_eq, Ordering.then_eq_eq, Std.LawfulEqOrd.compare_eq_iff_eq,
      Std.LawfulEqOrd.compare_eq_iff_eq] at h
    exact eq_of_ends h.1 h.2

end Interval

namespace CharSet

variable {s t : CharSet} {c d : CodeUnit} {floor floor' : Nat} {i j : Interval}
  {is js : List Interval} {p q : CodeUnit → Prop}

/-! ## The unit that decides -/

/-- Two properties of units agree below a unit, and of this one only the second holds. -/
structure DifferAt (p q : CodeUnit → Prop) (d : CodeUnit) : Prop where
  agree : ∀ c < d, p c ↔ q c
  absent : ¬ p d
  present : q d

/-- The property holds of the unit just before, or of none behind. -/
def BreaksOff (p : CodeUnit → Prop) (d : CodeUnit) : Prop :=
  (∃ c, c.toNat + 1 = d.toNat ∧ p c) ∨ ∀ c, d < c → ¬ p c

/-- At the least unit in which two properties differ, the first one goes without it and breaks
off, or the second one goes without it and does not break off. -/
def Precedes (p q : CodeUnit → Prop) : Prop :=
  (∃ d, DifferAt p q d ∧ BreaksOff p d) ∨ ∃ d, DifferAt q p d ∧ ¬ BreaksOff q d

/-- Properties that are not the same differ in some least unit. -/
theorem exists_differAt (h : ¬ ∀ c, p c ↔ q c) : ∃ d, DifferAt p q d ∨ DifferAt q p d := by
  obtain ⟨d, hd, hleast⟩ :=
    (measure UInt16.toNat).wf.has_min {c | ¬ (p c ↔ q c)} (not_forall.1 h)
  have hagree : ∀ c < d, p c ↔ q c := fun c hc =>
    not_not.1 fun hne => hleast c hne (UInt16.lt_iff_toNat_lt.1 hc)
  by_cases hp : p d
  · exact ⟨d, .inr ⟨fun c hc => (hagree c hc).symm, fun hq => hd (iff_of_true hp hq), hp⟩⟩
  · exact ⟨d, .inl ⟨hagree, hp, not_not.1 fun hq => hd (iff_of_false hp hq)⟩⟩

/-! ## Lists of intervals -/

theorem DifferAt.covers_iff (hd : DifferAt (Covers is) (Covers js) d) (hlt : c.toNat < d.toNat) :
    Covers is c ↔ Covers js c := hd.agree c (UInt16.lt_iff_toNat_lt.2 hlt)

/-- The list with the deciding unit does not start behind the other one. -/
theorem DifferAt.first_le (hd : DifferAt (Covers (i :: is)) (Covers (j :: js)) d)
    (h : IncreasingFrom floor (i :: is)) (h' : IncreasingFrom floor' (j :: js)) :
    j.first.toNat ≤ i.first.toNat := by
  have hle : j.first.toNat ≤ d.toNat := h'.atFirst.le_of_covers hd.present
  refine Nat.le_of_not_lt fun hlt => ?_
  have hcovered := (hd.covers_iff (by omega)).1 h.covers_first
  have := h'.atFirst.le_of_covers hcovered
  omega

/-- If it starts before the other one, it does so at the deciding unit. The other list is not
broken off there, it only starts later. -/
theorem DifferAt.not_breaksOff (hd : DifferAt (Covers (i :: is)) (Covers (j :: js)) d)
    (h : IncreasingFrom floor (i :: is)) (h' : IncreasingFrom floor' (j :: js))
    (hlt : j.first.toNat < i.first.toNat) : ¬ BreaksOff (Covers (i :: is)) d := by
  have hle : d.toNat ≤ j.first.toNat := by
    refine Nat.le_of_not_lt fun hlt' => ?_
    have hcovered := (hd.covers_iff hlt').2 h'.covers_first
    have := h.atFirst.le_of_covers hcovered
    omega
  rintro (hbefore | hnone)
  · obtain ⟨c, hnext, hcovered⟩ := hbefore
    have := h.atFirst.le_of_covers hcovered
    omega
  · exact hnone i.first (UInt16.lt_iff_toNat_lt.2 (by omega)) h.covers_first

/-- If both start alike, the list without the deciding unit has its first interval before it. -/
theorem DifferAt.last_lt (hd : DifferAt (Covers (i :: is)) (Covers (j :: js)) d)
    (h : IncreasingFrom floor (i :: is)) (h' : IncreasingFrom floor' (j :: js))
    (hfirst : i.first = j.first) : i.last.toNat < d.toNat := by
  refine Nat.lt_of_not_le fun hle => hd.absent ((h.covers_iff_of_le hle).2 ?_)
  rw [hfirst]
  exact h'.atFirst.le_of_covers hd.present

/-- That interval is all covered by the other list, so it ends no later than the first one there. -/
theorem DifferAt.last_le (hd : DifferAt (Covers (i :: is)) (Covers (j :: js)) d)
    (h : IncreasingFrom floor (i :: is)) (h' : IncreasingFrom floor' (j :: js))
    (hfirst : i.first = j.first) : i.last.toNat ≤ j.last.toNat := by
  have hlast := hd.last_lt h h' hfirst
  refine h'.last_le hfirst fun c hc => (hd.covers_iff ?_).1 ⟨i, List.mem_cons_self, hc⟩
  have := (Interval.contains_iff.1 hc).2
  omega

/-- If it ends earlier, the deciding unit is the next one, and the list is broken off there. -/
theorem DifferAt.breaksOff (hd : DifferAt (Covers (i :: is)) (Covers (j :: js)) d)
    (h : IncreasingFrom floor (i :: is)) (h' : IncreasingFrom floor' (j :: js))
    (hfirst : i.first = j.first) (hlt : i.last.toNat < j.last.toNat) :
    BreaksOff (Covers (i :: is)) d := by
  have hlast := hd.last_lt h h' hfirst
  have hproper : i.first.toNat ≤ i.last.toNat := h.2.1
  have hnext := CodeUnit.toNat_add_one hlt
  have hle : d.toNat ≤ (i.last + 1).toNat := by
    refine Nat.le_of_not_lt fun hlt' => ?_
    have hcovered : Covers (j :: js) (i.last + 1) :=
      covers_cons.2 (.inl (by rw [hnext, ← hfirst]; omega))
    have hrest := h.covers_rest_iff.2 ⟨(hd.covers_iff hlt').2 hcovered, by omega⟩
    have := h.2.2.le_of_covers hrest
    omega
  exact .inl ⟨i.last, by omega, covers_cons.2 (.inl ⟨hproper, Nat.le_refl _⟩)⟩

/-- If the first intervals are the same, the rest of the lists differ in the same unit. -/
theorem DifferAt.tail (hd : DifferAt (Covers (i :: is)) (Covers (i :: js)) d)
    (h : IncreasingFrom floor (i :: is)) (h' : IncreasingFrom floor' (i :: js)) :
    DifferAt (Covers is) (Covers js) d where
  agree c hc := by rw [h.covers_rest_iff, h'.covers_rest_iff, hd.agree c hc]
  absent hcovered := hd.absent (covers_cons.2 (.inr hcovered))
  present := h'.covers_rest_iff.2 ⟨hd.present, hd.last_lt h h' rfl⟩

/-- Whether a list is broken off is seen on what is behind its first interval, unless it is right
behind that interval. -/
theorem breaksOff_cons_iff (h : IncreasingFrom floor (i :: is))
    (hlt : i.last.toNat + 1 < d.toNat) :
    BreaksOff (Covers (i :: is)) d ↔ BreaksOff (Covers is) d := by
  refine or_congr (exists_congr fun c => and_congr_right fun hnext => ?_)
    (forall_congr' fun c => imp_congr_right fun hbehind => not_congr ?_)
  · rw [h.covers_rest_iff]
    exact (and_iff_left (by omega)).symm
  · have := UInt16.lt_iff_toNat_lt.1 hbehind
    rw [h.covers_rest_iff]
    exact (and_iff_left (by omega)).symm

/-- A list without the deciding unit is before the other one if it is broken off there. -/
theorem DifferAt.compare_eq_lt_iff (hd : DifferAt (Covers is) (Covers js) d)
    (h : IncreasingFrom floor is) (h' : IncreasingFrom floor' js) :
    compare is js = .lt ↔ BreaksOff (Covers is) d := by
  induction is generalizing js floor floor' with
  | nil =>
      cases js with
      | nil => exact absurd hd.present covers_nil
      | cons j js => exact iff_of_true List.compare_nil_cons (.inr fun c _ => covers_nil)
  | cons i is ih =>
      cases js with
      | nil => exact absurd hd.present covers_nil
      | cons j js =>
          rw [List.compare_cons_cons, Ordering.then_eq_lt, Interval.compare_eq_lt_iff,
            Std.LawfulEqOrd.compare_eq_iff_eq, UInt16.lt_iff_toNat_lt, UInt16.lt_iff_toNat_lt]
          -- The first intervals decide by their starts, then by their ends, or they are the same.
          rcases Nat.lt_or_eq_of_le (hd.first_le h h') with hlt | heq
          · refine iff_of_false ?_ (hd.not_breaksOff h h' hlt)
            rintro ((hfirst | ⟨hfirst, -⟩) | ⟨rfl, -⟩)
            · omega
            · rw [hfirst] at hlt
              omega
            · omega
          · have hfirst : i.first = j.first := UInt16.toNat_inj.1 heq.symm
            rcases Nat.lt_or_eq_of_le (hd.last_le h h' hfirst) with hlt | heq'
            · exact iff_of_true (.inl (.inr ⟨hfirst, hlt⟩)) (hd.breaksOff h h' hfirst hlt)
            · obtain rfl : i = j := Interval.eq_of_ends hfirst (UInt16.toNat_inj.1 heq')
              have htail := hd.tail h h'
              have hbehind := h'.2.2.le_of_covers htail.present
              rw [breaksOff_cons_iff h (by omega), ← ih htail h.2.2 h'.2.2]
              simp

/-! ## Sets -/

instance : Std.TransOrd CharSet := inferInstanceAs (Std.TransCmp (compareOn intervals))

theorem compare_eq (s t : CharSet) : compare s t = compare s.intervals t.intervals := rfl

/-- Sets in normal form compare as equal if and only if they have the same members. -/
theorem Canonical.compare_eq_eq_iff (hs : s.Canonical) (ht : t.Canonical) :
    compare s t = .eq ↔ ∀ c, s.contains c = t.contains c := by
  rw [compare_eq, Std.LawfulEqOrd.compare_eq_iff_eq]
  constructor
  · intro h c
    rw [contains, contains, h]
  · intro h
    rw [hs.ext ht h]

theorem Canonical.compare_eq_lt_iff_breaksOff (hs : s.Canonical) (ht : t.Canonical)
    (hd : DifferAt (s.contains ·) (t.contains ·) d) :
    compare s t = .lt ↔ BreaksOff (s.contains ·) d := by
  simp only [contains_iff_covers] at hd ⊢
  exact hd.compare_eq_lt_iff hs.increasing ht.increasing

/-- Sets in normal form are in the order of their members. -/
theorem Canonical.compare_eq_lt_iff (hs : s.Canonical) (ht : t.Canonical) :
    compare s t = .lt ↔ Precedes (s.contains ·) (t.contains ·) := by
  constructor
  · intro hlt
    have hne : ¬ ∀ c, s.contains c = true ↔ t.contains c = true := fun h => by
      have heq := (hs.compare_eq_eq_iff ht).2 fun c => Bool.eq_iff_iff.2 (h c)
      rw [hlt] at heq
      cases heq
    obtain ⟨d, hd | hd⟩ := exists_differAt hne
    · exact .inl ⟨d, hd, (hs.compare_eq_lt_iff_breaksOff ht hd).1 hlt⟩
    · refine .inr ⟨d, hd, fun hbreaks => ?_⟩
      have hgt := (ht.compare_eq_lt_iff_breaksOff hs hd).2 hbreaks
      exact Std.OrientedCmp.not_lt_of_lt hlt hgt
  · rintro (⟨d, hd, hbreaks⟩ | ⟨d, hd, hgoes⟩)
    · exact (hs.compare_eq_lt_iff_breaksOff ht hd).2 hbreaks
    · cases hcompare : compare s t with
      | lt => rfl
      | eq =>
          have hsame := (hs.compare_eq_eq_iff ht).1 hcompare d
          exact absurd (hsame.symm.trans hd.present) hd.absent
      | gt =>
          have hlt := Std.OrientedCmp.lt_of_gt hcompare
          exact absurd ((ht.compare_eq_lt_iff_breaksOff hs hd).1 hlt) hgoes

/-- Sets that the operations lead to are in a total order that depends on nothing but their
members. They compare as equal if and only if they have the same members, and one is before
another if and only if its members precede the other's. -/
theorem compare_of_built (hs : s.Built) (ht : t.Built) :
    (compare s t = .eq ↔ ∀ c, s.contains c = t.contains c) ∧
    (compare s t = .lt ↔ Precedes (s.contains ·) (t.contains ·)) ∧
    compare t s = (compare s t).swap ∧
    ((compare s t).isLE = true ∨ (compare t s).isLE = true) ∧
    ((compare s t).isLE = true → (compare t s).isLE = true →
      ∀ c, s.contains c = t.contains c) ∧
    ∀ u : CharSet, (compare s t).isLE = true → (compare t u).isLE = true →
      (compare s u).isLE = true := by
  have hs := hs.canonical
  have ht := ht.canonical
  have hequal := hs.compare_eq_eq_iff ht
  have hswap : compare t s = (compare s t).swap := Std.OrientedCmp.eq_swap
  refine ⟨hequal, hs.compare_eq_lt_iff ht, hswap, ?_, ?_, fun u => Std.TransCmp.isLE_trans⟩
  · rw [hswap]
    cases compare s t <;> simp
  · exact fun hle hge => hequal.1 (Std.OrientedCmp.isLE_antisymm hle hge)

/-- Of three intervals the first two start alike and the last two end alike. The first breaks off
before the second, and the third has not started where the second does. -/
theorem compare_of_built_intervals :
    let s : CharSet := ranges [⟨97, 98⟩]
    let t : CharSet := ranges [⟨97, 99⟩]
    let u : CharSet := ranges [⟨98, 99⟩]
    s.Built ∧ t.Built ∧ u.Built ∧ Precedes (s.contains ·) (t.contains ·) ∧
      Precedes (t.contains ·) (u.contains ·) ∧ (compare s u).isLE = true := by
  intro s t u
  have hs : s.Built := .interval (show interval 97 98 = .ok s from rfl)
  have ht : t.Built := .interval (show interval 97 99 = .ok t from rfl)
  have hu : u.Built := .interval (show interval 98 99 = .ok u from rfl)
  obtain ⟨-, hst, -, -, -, htrans⟩ := compare_of_built hs ht
  obtain ⟨-, htu, -⟩ := compare_of_built ht hu
  have hlt : compare s t = .lt := rfl
  have hlt' : compare t u = .lt := rfl
  exact ⟨hs, ht, hu, hst.1 hlt, htu.1 hlt', htrans u (by rw [hlt]; rfl) (by rw [hlt']; rfl)⟩

end CharSet

end LexTags
