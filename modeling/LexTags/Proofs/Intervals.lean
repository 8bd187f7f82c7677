import LexTags.CharSet.Algebra

/-!
# Increasing interval lists

The list of a set holds proper intervals in increasing order, and none of them touches the
next. Two such lists that cover the same units are equal: the first interval starts at the
least unit that is covered and stops before the first one behind it that is not, and so on
with what is left.

An operation on lists is described by two facts, that it leaves an increasing list, and which
units that list covers. Both are stated with a floor below which nothing lies, because a walk
along two lists always leaves behind what is below the place that it has reached. All bounds
are natural numbers, so nothing wraps at the largest unit.
-/

namespace LexTags

namespace CodeUnit

variable {a b : CodeUnit}

theorem toNat_max : (max a b : CodeUnit).toNat = max a.toNat b.toNat := by
  show (if a ≤ b then b else a).toNat = _
  split
  · next h => exact (Nat.max_eq_right (UInt16.le_iff_toNat_le.1 h)).symm
  · next h => exact (Nat.max_eq_left (Nat.le_of_not_le (mt UInt16.le_iff_toNat_le.2 h))).symm

theorem toNat_min : (min a b : CodeUnit).toNat = min a.toNat b.toNat := by
  show (if a ≤ b then a else b).toNat = _
  split
  · next h => exact (Nat.min_eq_left (UInt16.le_iff_toNat_le.1 h)).symm
  · next h => exact (Nat.min_eq_right (Nat.le_of_not_le (mt UInt16.le_iff_toNat_le.2 h))).symm

/-- A unit with one above it has a successor. -/
theorem toNat_add_one (h : a.toNat < b.toNat) : (a + 1).toNat = a.toNat + 1 := by
  have hb := b.toNat_lt
  rw [UInt16.toNat_add, UInt16.toNat_one]
  omega

/-- A unit with one below it has a predecessor. -/
theorem toNat_sub_one (h : a.toNat < b.toNat) : (b - 1).toNat = b.toNat - 1 := by
  refine UInt16.toNat_sub_of_le b 1 (UInt16.le_iff_toNat_le.2 ?_)
  rw [UInt16.toNat_one]
  omega

/-- A number is a unit if it is not above one. -/
theorem toNat_toUInt16 {n : Nat} (h : n ≤ a.toNat) : n.toUInt16.toNat = n :=
  UInt16.toNat_ofNat_of_lt (Nat.lt_of_le_of_lt h a.toNat_lt)

end CodeUnit

namespace Interval

variable {i j : Interval} {c : CodeUnit}

theorem eq_of_ends (hfirst : i.first = j.first) (hlast : i.last = j.last) : i = j := by
  cases i
  cases j
  exact congr (congrArg Interval.mk hfirst) hlast

theorem contains_iff :
    i.contains c = true ↔ i.first.toNat ≤ c.toNat ∧ c.toNat ≤ i.last.toNat := by
  simp [contains, UInt16.le_iff_toNat_le]

theorem isProper_iff : i.isProper = true ↔ i.first.toNat ≤ i.last.toNat := by
  simp [isProper, UInt16.le_iff_toNat_le]

theorem reaches_iff : i.reaches j = true ↔ j.first.toNat ≤ i.last.toNat + 1 := by
  simp [reaches]

end Interval

namespace CharSet

variable {floor floor' : Nat} {i j : Interval} {is js : List Interval} {c : CodeUnit}

/-- Some interval of the list holds the unit. -/
def Covers (is : List Interval) (c : CodeUnit) : Prop := ∃ i ∈ is, i.contains c = true

/-- The list holds proper intervals in increasing order, none touching the next and none
reaching below the floor. -/
def IncreasingFrom (floor : Nat) : List Interval → Prop
  | [] => True
  | i :: rest =>
      floor ≤ i.first.toNat ∧ i.first.toNat ≤ i.last.toNat ∧
        IncreasingFrom (i.last.toNat + 2) rest

theorem contains_iff_covers {s : CharSet} : s.contains c = true ↔ Covers s.intervals c := by
  simp [contains, Covers]

@[simp]
theorem covers_nil : ¬ Covers [] c := by
  simp [Covers]

@[simp]
theorem covers_cons :
    Covers (i :: is) c ↔
      (i.first.toNat ≤ c.toNat ∧ c.toNat ≤ i.last.toNat) ∨ Covers is c := by
  simp [Covers, Interval.contains_iff]

@[simp]
theorem covers_append : Covers (is ++ js) c ↔ Covers is c ∨ Covers js c := by
  simp [Covers, or_and_right, exists_or]

theorem IncreasingFrom.mono (h : IncreasingFrom floor is) (hle : floor' ≤ floor) :
    IncreasingFrom floor' is := by
  cases is with
  | nil => trivial
  | cons i is => exact ⟨Nat.le_trans hle h.1, h.2⟩

theorem IncreasingFrom.le_of_covers (h : IncreasingFrom floor is) (hc : Covers is c) :
    floor ≤ c.toNat := by
  induction is generalizing floor with
  | nil => exact absurd hc covers_nil
  | cons i is ih =>
      obtain ⟨hfloor, hproper, hrest⟩ := h
      rcases covers_cons.1 hc with hi | hc
      · omega
      · have := ih hrest hc
        omega

/-- Nothing below the floor is covered. -/
theorem IncreasingFrom.not_covers (h : IncreasingFrom floor is) (hlt : c.toNat < floor) :
    ¬ Covers is c := fun hc => Nat.not_le_of_lt hlt (h.le_of_covers hc)

theorem IncreasingFrom.of_mem (h : IncreasingFrom floor is) (hi : i ∈ is) :
    floor ≤ i.first.toNat ∧ i.first.toNat ≤ i.last.toNat := by
  induction is generalizing floor with
  | nil => exact absurd hi List.not_mem_nil
  | cons j is ih =>
      obtain ⟨hfloor, hproper, hrest⟩ := h
      rcases List.mem_cons.1 hi with rfl | hi
      · exact ⟨hfloor, hproper⟩
      · have := ih hrest hi
        omega

/-- Between any two intervals of the list there is a gap. -/
theorem IncreasingFrom.pairwise (h : IncreasingFrom floor is) :
    is.Pairwise fun i j => i.last.toNat + 1 < j.first.toNat := by
  induction is generalizing floor with
  | nil => exact .nil
  | cons i is ih => exact .cons (fun j hj => (h.2.2.of_mem hj).1) (ih h.2.2)

theorem IncreasingFrom.sublist (h : IncreasingFrom floor is) (hsub : js.Sublist is) :
    IncreasingFrom floor js := by
  induction hsub generalizing floor with
  | slnil => trivial
  | cons i _ ih =>
      obtain ⟨hfloor, hproper, hrest⟩ := h
      exact ih (hrest.mono (by omega))
  | cons_cons i _ ih => exact ⟨h.1, h.2.1, ih h.2.2⟩

/-- The list itself starts where its first interval does. -/
theorem IncreasingFrom.atFirst (h : IncreasingFrom floor (i :: is)) :
    IncreasingFrom i.first.toNat (i :: is) := ⟨Nat.le_refl _, h.2⟩

/-- The first interval starts at a unit that is covered. -/
theorem IncreasingFrom.covers_first (h : IncreasingFrom floor (i :: is)) :
    Covers (i :: is) i.first := covers_cons.2 (.inl ⟨Nat.le_refl _, h.2.1⟩)

/-- Up to where it ends, the first interval is all that there is. -/
theorem IncreasingFrom.covers_iff_of_le (h : IncreasingFrom floor (i :: is))
    (hle : c.toNat ≤ i.last.toNat) : Covers (i :: is) c ↔ i.first.toNat ≤ c.toNat := by
  have hrest : ¬ Covers is c := h.2.2.not_covers (by omega)
  simp [hrest, hle]

/-- The rest covers what the list covers behind its first interval. -/
theorem IncreasingFrom.covers_rest_iff (h : IncreasingFrom floor (i :: is)) :
    Covers is c ↔ Covers (i :: is) c ∧ i.last.toNat < c.toNat := by
  refine ⟨fun hc => ⟨covers_cons.2 (.inr hc), ?_⟩, fun ⟨hc, hlt⟩ => ?_⟩
  · have := h.2.2.le_of_covers hc
    omega
  · rcases covers_cons.1 hc with hi | hc
    · omega
    · exact hc

/-- An interval that starts like the first one and is covered does not go on beyond it, since
the unit behind the first interval is missing. -/
theorem IncreasingFrom.last_le (h : IncreasingFrom floor (j :: js)) (hfirst : i.first = j.first)
    (hc : ∀ c, i.contains c = true → Covers (j :: js) c) : i.last.toNat ≤ j.last.toNat := by
  refine Nat.le_of_not_lt fun hlt => ?_
  have hnext := CodeUnit.toNat_add_one hlt
  have hproper : j.first.toNat ≤ j.last.toNat := h.2.1
  have hcovered := hc (j.last + 1) (Interval.contains_iff.2 (by rw [hnext, hfirst]; omega))
  rcases covers_cons.1 hcovered with hj | hrest
  · omega
  · have := h.2.2.le_of_covers hrest
    omega

/-- Increasing lists that cover the same units are equal. -/
theorem IncreasingFrom.ext (h : IncreasingFrom floor is) (h' : IncreasingFrom floor' js)
    (hc : ∀ c, Covers is c ↔ Covers js c) : is = js := by
  induction is generalizing js floor floor' with
  | nil =>
      cases js with
      | nil => rfl
      | cons j js => exact absurd ((hc _).2 h'.covers_first) covers_nil
  | cons i is ih =>
      cases js with
      | nil => exact absurd ((hc _).1 h.covers_first) covers_nil
      | cons j js =>
          have hle := h.atFirst.le_of_covers ((hc _).2 h'.covers_first)
          have hge := h'.atFirst.le_of_covers ((hc _).1 h.covers_first)
          have hfirst : i.first = j.first := UInt16.toNat_inj.1 (Nat.le_antisymm hle hge)
          have hlast : i.last = j.last := UInt16.toNat_inj.1 <| Nat.le_antisymm
            (h'.last_le hfirst fun c hi => (hc c).1 ⟨i, List.mem_cons_self, hi⟩)
            (h.last_le hfirst.symm fun c hj => (hc c).2 ⟨j, List.mem_cons_self, hj⟩)
          have hrest : is = js := ih h.2.2 h'.2.2 fun c => by
            rw [h.covers_rest_iff, h'.covers_rest_iff, hc, hlast]
          rw [Interval.eq_of_ends hfirst hlast, hrest]

/-! ## The check of a list from outside -/

/-- Behind an interval a list is without fault if it is increasing from there on. -/
theorem faultIn?_some_eq_none_iff :
    faultIn? (some i) is = none ↔ IncreasingFrom (i.last.toNat + 2) is := by
  induction is generalizing i with
  | nil => exact iff_of_true rfl trivial
  | cons j js ih =>
      have hreaches : i.reaches j = false ↔ i.last.toNat + 2 ≤ j.first.toNat := by
        rw [← Bool.not_eq_true, Interval.reaches_iff]
        omega
      rw [faultIn?, IncreasingFrom, ← ih, ← Interval.isProper_iff, ← hreaches, Option.any_some]
      cases j.isProper <;> cases i.reaches j <;> simp

/-- A list is without fault if it is increasing. -/
theorem faultIn?_eq_none_iff : faultIn? none is = none ↔ IncreasingFrom 0 is := by
  cases is with
  | nil => exact iff_of_true rfl trivial
  | cons j js =>
      rw [faultIn?, IncreasingFrom, ← faultIn?_some_eq_none_iff, ← Interval.isProper_iff]
      cases j.isProper <;> simp

/-! ## Fusing what touches -/

/-- The intervals are proper, and in order of their first units. -/
def Sorted (is : List Interval) : Prop :=
  (∀ i ∈ is, i.isProper = true) ∧ is.Pairwise fun i j => i.first ≤ j.first

theorem Sorted.tail (h : Sorted (i :: is)) : Sorted is :=
  ⟨fun j hj => h.1 j (List.mem_cons_of_mem _ hj), (List.pairwise_cons.1 h.2).2⟩

/-- An interval stretched by the next one stands well in its place. -/
theorem Sorted.extend (h : Sorted (i :: j :: is)) : Sorted (i.extend j :: is) := by
  obtain ⟨hproper, horder⟩ := h
  obtain ⟨hfirst, hrest⟩ := List.pairwise_cons.1 horder
  refine ⟨fun k hk => ?_, List.pairwise_cons.2 ⟨fun k hk => ?_, (List.pairwise_cons.1 hrest).2⟩⟩
  · rcases List.mem_cons.1 hk with rfl | hk
    · have hi := Interval.isProper_iff.1 (hproper i List.mem_cons_self)
      rw [Interval.isProper_iff, Interval.extend, CodeUnit.toNat_max]
      dsimp only
      omega
    · exact hproper k (List.mem_cons_of_mem _ (List.mem_cons_of_mem _ hk))
  · exact hfirst k (List.mem_cons_of_mem _ hk)

theorem increasingFrom_fuse (h : Sorted (i :: is)) :
    IncreasingFrom i.first.toNat (fuse i is) := by
  induction is generalizing i with
  | nil => exact ⟨Nat.le_refl _, Interval.isProper_iff.1 (h.1 i List.mem_cons_self), trivial⟩
  | cons j is ih =>
      rw [fuse]
      split
      · exact ih h.extend
      · next hreach =>
          have hgap := mt Interval.reaches_iff.2 hreach
          exact ⟨Nat.le_refl _, Interval.isProper_iff.1 (h.1 i List.mem_cons_self),
            (ih h.tail).mono (by omega)⟩

/-- Fusing leaves the units covered as they are: what is stretched over was covered, because
the next interval starts at most one behind the end. -/
theorem covers_fuse (h : Sorted (i :: is)) : Covers (fuse i is) c ↔ Covers (i :: is) c := by
  induction is generalizing i with
  | nil => rfl
  | cons j is ih =>
      rw [fuse]
      split
      · next hreach =>
          have hnear := Interval.reaches_iff.1 hreach
          have horder := UInt16.le_iff_toNat_le.1
            ((List.pairwise_cons.1 h.2).1 j List.mem_cons_self)
          have hi := Interval.isProper_iff.1 (h.1 i List.mem_cons_self)
          have hj := Interval.isProper_iff.1 (h.1 j (List.mem_cons_of_mem _ List.mem_cons_self))
          rw [ih h.extend, covers_cons, covers_cons, covers_cons, Interval.extend,
            CodeUnit.toNat_max, ← or_assoc]
          dsimp only
          exact or_congr_left (by omega)
      · rw [covers_cons, ih h.tail, ← covers_cons]

theorem increasingFrom_coalesce (h : Sorted is) : IncreasingFrom 0 (coalesce is) := by
  cases is with
  | nil => trivial
  | cons i is => exact (increasingFrom_fuse h).mono (Nat.zero_le _)

theorem covers_coalesce (h : Sorted is) : Covers (coalesce is) c ↔ Covers is c := by
  cases is with
  | nil => rfl
  | cons i is => exact covers_fuse h

theorem IncreasingFrom.sorted (h : IncreasingFrom floor is) : Sorted is := by
  refine ⟨fun i hi => Interval.isProper_iff.2 (h.of_mem hi).2, ?_⟩
  refine h.pairwise.imp_of_mem fun hi _ hgap => UInt16.le_iff_toNat_le.2 ?_
  have := (h.of_mem hi).2
  omega

theorem Sorted.merge (h : Sorted is) (h' : Sorted js) :
    Sorted (is.merge js fun i j => i.first ≤ j.first) := by
  refine ⟨fun i hi => (List.mem_merge.1 hi).elim (h.1 i) (h'.1 i), ?_⟩
  refine (List.pairwise_merge ?_ ?_ is js ?_ ?_).imp fun hle => of_decide_eq_true hle
  · simpa using fun i j k : Interval => UInt16.le_trans
  · simpa using fun i j : Interval => UInt16.le_total i.first j.first
  · exact h.2.imp fun hle => decide_eq_true hle
  · exact h'.2.imp fun hle => decide_eq_true hle

theorem covers_merge {le : Interval → Interval → Bool} :
    Covers (is.merge js le) c ↔ Covers is c ∨ Covers js c := by
  simp [Covers, List.mem_merge, or_and_right, exists_or]

theorem pairwise_mergeSort_units (units : List CodeUnit) :
    (units.mergeSort (· ≤ ·)).Pairwise (· ≤ ·) := by
  have horder : (units.mergeSort (· ≤ ·)).Pairwise fun a b => decide (a ≤ b) = true :=
    List.pairwise_mergeSort (by simpa using fun a b c => UInt16.le_trans)
      (by simpa using UInt16.le_total) units
  exact horder.imp fun hle => of_decide_eq_true hle

/-- Single units in order make a sorted list. -/
theorem sorted_map_unit {units : List CodeUnit} (h : units.Pairwise (· ≤ ·)) :
    Sorted (units.map .unit) := by
  refine ⟨fun i hi => ?_, List.pairwise_map.2 h⟩
  obtain ⟨c, -, rfl⟩ := List.mem_map.1 hi
  exact Interval.isProper_iff.2 (Nat.le_refl _)

theorem covers_map_unit {units : List CodeUnit} : Covers (units.map .unit) c ↔ c ∈ units := by
  simp only [Covers, List.mem_map, Interval.contains_iff, Interval.unit]
  constructor
  · rintro ⟨i, ⟨d, hd, rfl⟩, hle⟩
    obtain rfl : d = c := UInt16.toNat_inj.1 (Nat.le_antisymm hle.1 hle.2)
    exact hd
  · exact fun hc => ⟨_, ⟨c, hc, rfl⟩, by simp⟩

/-! ## Walking along two lists

Each step looks at the two leading intervals and goes on with the lists that are left. What is
left covers what both lists come to behind the place where the step ends, so it is that place
which the step is described by. -/

theorem increasingFrom_commonIntervals {is js : List Interval} {floor floor' : Nat}
    (h : IncreasingFrom floor is) (h' : IncreasingFrom floor' js) :
    IncreasingFrom (max floor floor') (commonIntervals is js) := by
  match is, js with
  | [], _ | _ :: _, [] =>
      rw [commonIntervals]
      trivial
  | i :: is, j :: js =>
      have hfloor : floor ≤ i.first.toNat := h.1
      have hproper : i.first.toNat ≤ i.last.toNat := h.2.1
      have hfloor' : floor' ≤ j.first.toNat := h'.1
      have hproper' : j.first.toNat ≤ j.last.toNat := h'.2.1
      have hbehind : IncreasingFrom (max (max floor floor') (min i.last.toNat j.last.toNat + 2))
          (if i.last < j.last then commonIntervals is (j :: js)
            else commonIntervals (i :: is) js) := by
        split
        · exact (increasingFrom_commonIntervals h.2.2 h').mono (by omega)
        · exact (increasingFrom_commonIntervals h h'.2.2).mono (by omega)
      rw [commonIntervals]
      split
      · next hshare =>
          refine ⟨?_, Interval.isProper_iff.1 hshare, hbehind.mono ?_⟩
          · rw [Interval.overlap, CodeUnit.toNat_max]
            omega
          · rw [Interval.overlap, CodeUnit.toNat_min]
            omega
      · exact hbehind.mono (Nat.le_max_left _ _)
termination_by is.length + js.length

/-- The overlap of the leading intervals is what both lists cover up to the end of one. -/
theorem IncreasingFrom.contains_overlap (h : IncreasingFrom floor (i :: is))
    (h' : IncreasingFrom floor' (j :: js)) :
    (i.overlap j).contains c = true ↔
      (Covers (i :: is) c ∧ Covers (j :: js) c) ∧ c.toNat ≤ min i.last.toNat j.last.toNat := by
  rw [Interval.contains_iff, Interval.overlap, CodeUnit.toNat_max, CodeUnit.toNat_min]
  refine ⟨fun hc => ?_, fun ⟨⟨hi, hj⟩, hle⟩ => ?_⟩
  · exact ⟨⟨(h.covers_iff_of_le (by omega)).2 (by omega),
      (h'.covers_iff_of_le (by omega)).2 (by omega)⟩, by omega⟩
  · have := (h.covers_iff_of_le (by omega)).1 hi
    have := (h'.covers_iff_of_le (by omega)).1 hj
    omega

theorem covers_commonIntervals {is js : List Interval} {floor floor' : Nat} {c : CodeUnit}
    (h : IncreasingFrom floor is) (h' : IncreasingFrom floor' js) :
    Covers (commonIntervals is js) c ↔ Covers is c ∧ Covers js c := by
  match is, js with
  | [], _ | _ :: _, [] =>
      rw [commonIntervals]
      simp
  | i :: is, j :: js =>
      have hbehind : Covers (if i.last < j.last then commonIntervals is (j :: js)
            else commonIntervals (i :: is) js) c ↔
          (Covers (i :: is) c ∧ Covers (j :: js) c) ∧
            min i.last.toNat j.last.toNat < c.toNat := by
        split
        · next hlt =>
            rw [covers_commonIntervals h.2.2 h', h.covers_rest_iff, and_right_comm]
            have := UInt16.lt_iff_toNat_lt.1 hlt
            exact and_congr_right fun _ => by omega
        · next hlt =>
            rw [covers_commonIntervals h h'.2.2, h'.covers_rest_iff, and_assoc]
            have := mt UInt16.lt_iff_toNat_lt.2 hlt
            exact and_congr_right fun _ => and_congr_right fun _ => by omega
      have hsplit : Covers (i :: is) c ∧ Covers (j :: js) c ↔
          (i.overlap j).contains c = true ∨ Covers (if i.last < j.last
            then commonIntervals is (j :: js) else commonIntervals (i :: is) js) c := by
        rw [h.contains_overlap h', hbehind, ← and_or_left]
        exact (and_iff_left (Nat.lt_or_ge _ _).symm).symm
      rw [commonIntervals, hsplit]
      split
      · rw [covers_cons, ← Interval.contains_iff]
      · next hshare =>
          refine (or_iff_right fun hc => hshare ?_).symm
          have := Interval.contains_iff.1 hc
          exact Interval.isProper_iff.2 (by omega)
termination_by is.length + js.length

/-! ## Cutting intervals out

While an interval is cut, its next piece starts at `first`, and what is below has been settled. The
lemmas are about the list that a cut leads to with the last piece at its end. Behind the empty list,
the cases of the induction are that the next interval to be cut out lies below `first`, lies behind
`last`, goes on behind it, or ends before it does. -/

variable {first : Nat} {last : CodeUnit} {more : List Interval}

/-- What there is before an interval goes in front of what lies behind its start. -/
theorem IncreasingFrom.pieceBefore (hmore : IncreasingFrom (max first (j.first.toNat + 1)) more) :
    IncreasingFrom first (pieceBefore first j ++ more) := by
  rw [CharSet.pieceBefore]
  split
  · next hlt =>
      have hfirst := CodeUnit.toNat_toUInt16 (Nat.le_of_lt hlt)
      have hprev := CodeUnit.toNat_sub_one (hfirst.symm ▸ hlt)
      refine ⟨Nat.le_of_eq hfirst.symm, ?_, hmore.mono ?_⟩
      · show first.toUInt16.toNat ≤ (j.first - 1).toNat
        omega
      · rw [hprev]
        omega
  · exact hmore.mono (Nat.le_max_left _ _)

theorem covers_pieceBefore :
    Covers (pieceBefore first j) c ↔ first ≤ c.toNat ∧ c.toNat < j.first.toNat := by
  rw [pieceBefore]
  split
  · next hlt =>
      have hfirst := CodeUnit.toNat_toUInt16 (Nat.le_of_lt hlt)
      have hprev := CodeUnit.toNat_sub_one (hfirst.symm ▸ hlt)
      rw [covers_cons, hfirst, hprev, or_iff_left covers_nil]
      omega
  · exact iff_of_false covers_nil (by omega)

/-- The last piece goes in front of what lies behind the end. -/
theorem IncreasingFrom.lastPiece (hmore : IncreasingFrom (last.toNat + 2) more)
    (hle : first ≤ last.toNat + 1) :
    IncreasingFrom first
      ((if first ≤ last.toNat then [⟨first.toUInt16, last⟩] else []) ++ more) := by
  split
  · next hfirst =>
      have hnat := CodeUnit.toNat_toUInt16 hfirst
      exact ⟨Nat.le_of_eq hnat.symm, hnat.symm ▸ hfirst, hmore⟩
  · exact hmore.mono (by omega)

theorem covers_lastPiece :
    Covers (if first ≤ last.toNat then [⟨first.toUInt16, last⟩] else []) c ↔
      first ≤ c.toNat ∧ c.toNat ≤ last.toNat := by
  split
  · next hfirst =>
      rw [covers_cons, CodeUnit.toNat_toUInt16 hfirst, or_iff_left covers_nil]
  · exact iff_of_false covers_nil (by omega)

theorem increasingFrom_cutOut (h : IncreasingFrom floor js)
    (hmore : IncreasingFrom (last.toNat + 2) more) (hle : first ≤ last.toNat + 1) :
    IncreasingFrom first ((cutOut last first js).piecesTo last ++ more) := by
  fun_induction cutOut last first js generalizing floor with
  | case1 => exact hmore.lastPiece hle
  | case2 first j js hlt ih => exact ih h.2.2 hle
  | case3 first j js hleft hlt => exact hmore.lastPiece hle
  | case4 first j js hleft hright hlt =>
      have hright := mt UInt16.lt_iff_toNat_lt.2 hright
      have hlt := UInt16.lt_iff_toNat_lt.1 hlt
      rw [Cut.piecesTo, if_neg (Nat.not_le_of_gt (Nat.lt_succ_of_lt hlt)), List.append_nil]
      refine (hmore.mono ?_).pieceBefore
      omega
  | case5 first j js hleft hright hge ih =>
      have hproper : j.first.toNat ≤ j.last.toNat := h.2.1
      have hge := mt UInt16.lt_iff_toNat_lt.2 hge
      have hbehind : IncreasingFrom (j.last.toNat + 1)
          ((cutOut last (j.last.toNat + 1) js).piecesTo last ++ more) := ih h.2.2 (by omega)
      rw [Cut.piecesTo_prepend, List.append_assoc]
      refine (hbehind.mono ?_).pieceBefore
      omega

/-- The pieces cover what the interval has from `first` on and the list has not. -/
theorem covers_cutOut (h : IncreasingFrom floor js) :
    Covers ((cutOut last first js).piecesTo last) c ↔
      (first ≤ c.toNat ∧ c.toNat ≤ last.toNat) ∧ ¬ Covers js c := by
  fun_induction cutOut last first js generalizing floor with
  | case1 => exact covers_lastPiece.trans (and_iff_left covers_nil).symm
  | case2 first j js hlt ih =>
      rw [ih h.2.2, h.covers_rest_iff]
      refine and_congr_right fun hc => not_congr (and_iff_left ?_)
      omega
  | case3 first j js hleft hlt =>
      have hlt := UInt16.lt_iff_toNat_lt.1 hlt
      refine covers_lastPiece.trans (and_iff_left_of_imp fun hc => ?_).symm
      exact h.atFirst.not_covers (by omega)
  | case4 first j js hleft hright hlt =>
      have hlt := UInt16.lt_iff_toNat_lt.1 hlt
      rw [Cut.piecesTo, if_neg (Nat.not_le_of_gt (Nat.lt_succ_of_lt hlt)), List.append_nil,
        covers_pieceBefore]
      have hright := mt UInt16.lt_iff_toNat_lt.2 hright
      by_cases hc : c.toNat ≤ last.toNat
      · rw [h.covers_iff_of_le (by omega)]
        omega
      · omega
  | case5 first j js hleft hright hge ih =>
      have hproper : j.first.toNat ≤ j.last.toNat := h.2.1
      have hge := mt UInt16.lt_iff_toNat_lt.2 hge
      rw [Cut.piecesTo_prepend, covers_append, ih h.2.2, covers_pieceBefore]
      by_cases hc : c.toNat ≤ j.last.toNat
      · rw [h.covers_iff_of_le hc]
        omega
      · have hc := Nat.lt_of_not_le hc
        rw [h.covers_rest_iff, and_iff_left hc, or_iff_right (by omega)]
        exact and_congr_left fun _ => by omega

/-- Behind the interval nothing has been lost. -/
theorem covers_others_cutOut (h : IncreasingFrom floor js) (hle : first ≤ last.toNat + 1)
    (hc : last.toNat < c.toNat) : Covers (cutOut last first js).others c ↔ Covers js c := by
  fun_induction cutOut last first js generalizing floor with
  | case1 | case3 | case4 => rfl
  | case2 first j js hlt ih =>
      rw [ih h.2.2 hle, h.covers_rest_iff]
      exact and_iff_left (by omega)
  | case5 first j js hleft hright hge ih =>
      have hge := mt UInt16.lt_iff_toNat_lt.2 hge
      exact (ih h.2.2 (by omega)).trans (h.covers_rest_iff.trans (and_iff_left (by omega)))

theorem others_cutOut_sublist : (cutOut last first js).others.Sublist js := by
  fun_induction cutOut last first js with
  | case1 | case3 | case4 => exact List.Sublist.refl _
  | case2 first j js hlt ih => exact ih.cons j
  | case5 first j js hleft hright hge ih => exact ih.cons j

theorem IncreasingFrom.others_cutOut (h : IncreasingFrom floor js) (last : CodeUnit)
    (first : Nat) : IncreasingFrom floor (cutOut last first js).others :=
  h.sublist others_cutOut_sublist

theorem increasingFrom_remainingIntervals (h : IncreasingFrom floor is)
    (h' : IncreasingFrom floor' js) : IncreasingFrom floor (remainingIntervals is js) := by
  induction is generalizing floor js with
  | nil => trivial
  | cons i is ih =>
      obtain ⟨hfloor, hproper, hrest⟩ := h
      have hmore := ih hrest (h'.others_cutOut i.last i.first.toNat)
      exact (increasingFrom_cutOut h' hmore (by omega)).mono hfloor

theorem covers_remainingIntervals (h : IncreasingFrom floor is) (h' : IncreasingFrom floor' js) :
    Covers (remainingIntervals is js) c ↔ Covers is c ∧ ¬ Covers js c := by
  induction is generalizing floor js with
  | nil => simp [remainingIntervals]
  | cons i is ih =>
      obtain ⟨hfloor, hproper, hrest⟩ := h
      rw [remainingIntervals, covers_append, covers_cutOut h', covers_cons, or_and_right,
        ih hrest (h'.others_cutOut i.last i.first.toNat)]
      refine or_congr_right (and_congr_right fun hc => not_congr ?_)
      have hbehind := hrest.le_of_covers hc
      exact covers_others_cutOut h' (by omega) (by omega)

end CharSet

end LexTags
