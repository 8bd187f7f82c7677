import Mathlib.Data.List.Destutter
import LexTags.Proofs.SetAlgebra

/-!
# The set of a list of units

However a list of units is ordered, and whatever it repeats, its set is in normal form and has the
listed units as its members. Sets with the same members are equal, so the set depends on nothing
but the members of the list, and uniting the single units, in any order and put together in any
way, leads to the same value.

The intervals of the set are the runs of the list once it is in order and nothing is repeated.
There a unit goes on with a run if it is the next one behind it, and starts a new one if it is not.
Fusing the single units comes to the same, because a unit that lies behind a run is reached by it
only if it is the next one.
-/

namespace LexTags.CharSet

variable {s t : CharSet} {c : CodeUnit} {i : Interval} {units cs ds : List CodeUnit}

/-! ## Runs -/

/-- The runs of a list of units, of which `run` is the one that has been begun. -/
def runsFrom (run : Interval) : List CodeUnit → List Interval
  | [] => [run]
  | c :: units =>
      if run.last.toNat + 1 = c.toNat then runsFrom { run with last := c } units
      else run :: runsFrom (.unit c) units

/-- The runs of consecutive units in a list. -/
def runs : List CodeUnit → List Interval
  | [] => []
  | c :: units => runsFrom (.unit c) units

/-- Where the units behind a run increase, fusing them makes the runs. -/
theorem fuse_units (h : (i.last :: units).Pairwise (· < ·)) :
    fuse i (units.map .unit) = runsFrom i units := by
  induction units generalizing i with
  | nil => rfl
  | cons c units ih =>
      obtain ⟨hbehind, hunits⟩ := List.pairwise_cons.1 h
      have hlt := UInt16.lt_iff_toNat_lt.1 (hbehind c List.mem_cons_self)
      have hreaches : i.reaches (.unit c) = true ↔ c.toNat ≤ i.last.toNat + 1 :=
        Interval.reaches_iff
      rw [List.map_cons, fuse, runsFrom]
      by_cases hnext : i.last.toNat + 1 = c.toNat
      · have hextend : i.extend (.unit c) = { i with last := c } := by
          have hlast : max i.last c = c := by
            rw [← UInt16.toNat_inj, CodeUnit.toNat_max]
            omega
          rw [Interval.extend, Interval.unit, hlast]
        rw [if_pos (hreaches.2 (by omega)), if_pos hnext, hextend]
        exact ih hunits
      · rw [if_neg (mt hreaches.1 (by omega)), if_neg hnext]
        exact congrArg _ (ih hunits)

theorem coalesce_units (h : units.Pairwise (· < ·)) : coalesce (units.map .unit) = runs units := by
  cases units with
  | nil => rfl
  | cons c units => exact fuse_units (i := .unit c) h

/-- The runs of units that increase are the intervals of their set. -/
theorem pack_runs (h : units.Pairwise (· < ·)) :
    (pack (runs units)).Canonical ∧ ∀ c, (pack (runs units)).contains c = true ↔ c ∈ units := by
  have hsorted := sorted_map_unit (h.imp fun hlt => UInt16.le_of_lt hlt)
  rw [← coalesce_units h]
  refine ⟨(increasingFrom_coalesce hsorted).canonical_pack, fun c => ?_⟩
  rw [contains_pack, covers_coalesce hsorted, covers_map_unit]

/-- In order and without what is repeated, units increase. -/
theorem pairwise_destutter (h : units.Pairwise (· ≤ ·)) :
    (units.destutter (· ≠ ·)).Pairwise (· < ·) := by
  have hnodup : (units.destutter (· ≠ ·)).Nodup := by
    rw [h.destutter_eq_dedup]
    exact List.nodup_dedup units
  have horder := h.sublist (List.destutter_sublist (· ≠ ·) units)
  exact horder.imp₂ (fun a b hle hne => UInt16.lt_of_le_of_ne hle hne) hnodup

theorem mem_destutter (h : units.Pairwise (· ≤ ·)) : c ∈ units.destutter (· ≠ ·) ↔ c ∈ units := by
  rw [h.destutter_eq_dedup, List.mem_dedup]

/-! ## Unions of single units -/

/-- The set is a union of the sets of one unit each, for these units in this order, put together
in some way. -/
inductive UnionOf : List CodeUnit → CharSet → Prop where
  | nil : UnionOf [] empty
  | single (c : CodeUnit) : UnionOf [c] (single c)
  | union {cs ds : List CodeUnit} {s t : CharSet} (hs : UnionOf cs s) (ht : UnionOf ds t) :
      UnionOf (cs ++ ds) (s.union t)

theorem exists_unionOf (units : List CodeUnit) : ∃ s, UnionOf units s := by
  induction units with
  | nil => exact ⟨empty, .nil⟩
  | cons c units ih =>
      obtain ⟨s, hs⟩ := ih
      exact ⟨(single c).union s, .union (.single c) hs⟩

theorem UnionOf.canonical (h : UnionOf units s) : s.Canonical := by
  induction h with
  | nil => exact canonical_empty
  | single c => exact canonical_single c
  | union _ _ ihs iht => exact ihs.union iht

theorem UnionOf.contains_iff (h : UnionOf units s) : s.contains c = true ↔ c ∈ units := by
  induction h with
  | nil => simp
  | single d => simp
  | union hs ht ihs iht =>
      rw [hs.canonical.contains_union ht.canonical, Bool.or_eq_true, ihs, iht, List.mem_append]

/-- A set in normal form with the members of a list is the set of the list. -/
theorem Canonical.eq_ofUnits (h : s.Canonical) (hc : ∀ c, s.contains c = true ↔ c ∈ units) :
    s = ofUnits units := by
  refine h.ext (canonical_ofUnits units) fun c => ?_
  rw [Bool.eq_iff_iff, hc, contains_ofUnits]

/-- The set of a list of units is in normal form and has the units as its members. Its intervals
are the runs of the list in order and without what is repeated, and it is the union of the single
units in any order and put together in any way. Two lists have the same set if and only if they
have the same members. -/
theorem ofUnits_eq_union (units : List CodeUnit) :
    (ofUnits units).Normal ∧
    (∀ c, (ofUnits units).contains c = true ↔ c ∈ units) ∧
    ofUnits units = pack (runs ((units.mergeSort (· ≤ ·)).destutter (· ≠ ·))) ∧
    (∀ cs, cs.Perm units → (∃ s, UnionOf cs s) ∧ ∀ s, UnionOf cs s → s = ofUnits units) ∧
    ∀ cs, ofUnits cs = ofUnits units ↔ ∀ c, c ∈ cs ↔ c ∈ units := by
  refine ⟨(canonical_ofUnits units).normal, fun c => contains_ofUnits, ?_, ?_, ?_⟩
  · have horder := pairwise_mergeSort_units units
    obtain ⟨hcanonical, hmembers⟩ := pack_runs (pairwise_destutter horder)
    refine (hcanonical.eq_ofUnits fun c => ?_).symm
    rw [hmembers, mem_destutter horder, List.mem_mergeSort]
  · intro cs hperm
    refine ⟨exists_unionOf cs, fun s hs => hs.canonical.eq_ofUnits fun c => ?_⟩
    rw [hs.contains_iff, hperm.mem_iff]
  · intro cs
    constructor
    · intro h c
      rw [← contains_ofUnits, h, contains_ofUnits]
    · intro h
      exact (canonical_ofUnits cs).eq_ofUnits fun c => contains_ofUnits.trans (h c)

/-- Units in no order, one of them twice and the largest one among them, and a union of them in
another order. -/
theorem ofUnits_eq_union_ends :
    let units : List CodeUnit := [0xFFFF, 98, 97, 98]
    let s := ((single 98).union (single 97)).union ((single 98).union (single 0xFFFF))
    [98, 97, 98, 0xFFFF].Perm units ∧ UnionOf [98, 97, 98, 0xFFFF] s ∧ s = ofUnits units ∧
      ofUnits units = ranges [⟨97, 98⟩, ⟨0xFFFF, 0xFFFF⟩] := by
  intro units s
  obtain ⟨-, -, -, hunion, -⟩ := ofUnits_eq_union units
  have hperm : [98, 97, 98, 0xFFFF].Perm units := by decide
  have hs : UnionOf [98, 97, 98, 0xFFFF] s :=
    .union (.union (.single 98) (.single 97)) (.union (.single 98) (.single 0xFFFF))
  have heq : s = ofUnits units := (hunion _ hperm).2 s hs
  have hranges : s = ranges [⟨97, 98⟩, ⟨0xFFFF, 0xFFFF⟩] := by
    show ((single 98).union (single 97)).union ((single 98).union (single 0xFFFF)) = _
    cbv
  exact ⟨hperm, hs, heq, heq.symm.trans hranges⟩

end LexTags.CharSet
