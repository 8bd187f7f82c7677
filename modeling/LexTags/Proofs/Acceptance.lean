import Mathlib.Data.List.Chain
import LexTags.Proofs.SetAlgebra

/-!
# Which interval lists are accepted

A list of intervals that comes from outside is taken as a set if its intervals are proper and each
starts at least two past the end of the one before, so that between any two a unit is missing. The
bounds are compared as numbers, so an interval that ends at the largest unit is the last one.

Otherwise the list is refused, and the complaint is about the first interval that does not fit
behind the ones before it: those are a list that would be accepted. A reversed interval is refused
as such, whatever stands before it.

What is accepted is read back: the intervals of the set are the list, and the list of every set is
accepted and gives the set back.
-/

namespace LexTags.CharSet

variable {s : CharSet} {floor : Nat} {i : Interval} {is before : List Interval}
  {previous? : Option Interval} {e : Error} {c : CodeUnit}

/-- The intervals are proper, and each starts at least two past the end of the one before. -/
structure Separate (is : List Interval) : Prop where
  proper : ∀ i ∈ is, i.first ≤ i.last
  apart : is.IsChain fun i j => i.last.toNat + 2 ≤ j.first.toNat

/-- Why an interval does not fit behind the one before it, if there is one. -/
inductive Flaw (previous? : Option Interval) (i : Interval) : Error → Prop where
  | reversed (hreversed : i.last < i.first) : Flaw previous? i (.invalidInterval i)
  | near {previous : Interval} (hproper : i.first ≤ i.last)
      (hprevious : previous? = some previous)
      (hnear : i.first.toNat < previous.last.toNat + 2) : Flaw previous? i (.notCanonical i)

theorem separate_cons_iff :
    Separate (i :: is) ↔ i.first ≤ i.last ∧
      (∀ j ∈ is.head?, i.last.toNat + 2 ≤ j.first.toNat) ∧ Separate is := by
  constructor
  · intro h
    obtain ⟨hi, hproper⟩ := List.forall_mem_cons.1 h.proper
    obtain ⟨hhead, hapart⟩ := List.isChain_cons.1 h.apart
    exact ⟨hi, hhead, hproper, hapart⟩
  · intro h
    obtain ⟨hi, hhead, hproper, hapart⟩ := h
    exact ⟨List.forall_mem_cons.2 ⟨hi, hproper⟩, List.isChain_cons.2 ⟨hhead, hapart⟩⟩

/-- Being increasing from a floor on is a condition on neighbours, and on the first interval. -/
theorem increasingFrom_iff_separate :
    IncreasingFrom floor is ↔ (∀ i ∈ is.head?, floor ≤ i.first.toNat) ∧ Separate is := by
  induction is generalizing floor with
  | nil =>
      have hnil : Separate [] := ⟨by simp, .nil⟩
      simpa [IncreasingFrom] using hnil
  | cons i is ih =>
      rw [IncreasingFrom, ih, separate_cons_iff, UInt16.le_iff_toNat_le]
      simp

theorem faultIn?_eq_none_iff_separate : faultIn? none is = none ↔ Separate is := by
  rw [faultIn?_eq_none_iff, increasingFrom_iff_separate]
  simp

/-- An interval is refused for its flaw. -/
theorem faultIn?_singleton_eq_some_iff : faultIn? previous? [i] = some e ↔ Flaw previous? i e := by
  rw [faultIn?]
  constructor
  · intro h
    split at h
    · next hreversed =>
        cases h
        exact .reversed (by simpa [Interval.isProper] using hreversed)
    · next hproper =>
        split at h
        · next hnear =>
            cases h
            obtain ⟨previous, rfl, hreaches⟩ := (Option.any_eq_true ..).1 hnear
            have hle := Interval.reaches_iff.1 hreaches
            exact .near (by simpa [Interval.isProper] using hproper) rfl (by omega)
        · cases h
  · intro h
    cases h with
    | reversed hreversed => simp [Interval.isProper, hreversed]
    | near hproper hprevious hnear =>
        subst hprevious
        have hreaches := Interval.reaches_iff.2 (Nat.le_of_lt_succ hnear)
        simp [Interval.isProper, hproper, hreaches]

/-- A list is searched interval by interval, each behind the one before it. -/
theorem faultIn?_append (is : List Interval) :
    faultIn? previous? (before ++ is) =
      (faultIn? previous? before).or (faultIn? (before.getLast?.or previous?) is) := by
  induction before generalizing previous? with
  | nil => rfl
  | cons j before ih =>
      have hlast : (j :: before).getLast?.or previous? = before.getLast?.or (some j) := by
        rw [List.getLast?_cons]
        cases before.getLast? <;> rfl
      rw [List.cons_append, faultIn?, faultIn?, hlast]
      split
      · rfl
      · split
        · rfl
        · exact ih

/-- The fault of a list is the flaw of its first interval that has one. -/
theorem faultIn?_eq_some_iff :
    faultIn? previous? is = some e ↔ ∃ before i behind, is = before ++ i :: behind ∧
      faultIn? previous? before = none ∧ Flaw (before.getLast?.or previous?) i e := by
  constructor
  · intro h
    induction is generalizing previous? with
    | nil => cases h
    | cons i is ih =>
        cases hi : faultIn? previous? [i] with
        | some e' =>
            rw [← List.singleton_append, faultIn?_append, hi] at h
            cases h
            exact ⟨[], i, is, rfl, rfl, faultIn?_singleton_eq_some_iff.1 hi⟩
        | none =>
            rw [← List.singleton_append, faultIn?_append, hi] at h
            obtain ⟨before, j, behind, rfl, hbefore, hflaw⟩ := ih h
            refine ⟨i :: before, j, behind, rfl, ?_, ?_⟩
            · rw [← List.singleton_append, faultIn?_append, hi]
              exact hbefore
            · rw [List.getLast?_cons]
              cases hlast : before.getLast? <;> simpa [hlast] using hflaw
  · intro h
    obtain ⟨before, i, behind, rfl, hbefore, hflaw⟩ := h
    rw [faultIn?_append, hbefore, ← List.singleton_append, faultIn?_append,
      faultIn?_singleton_eq_some_iff.2 hflaw]
    rfl

theorem ofIntervals_eq_ok_iff : ofIntervals is = .ok s ↔ Separate is ∧ s = pack is := by
  rw [← faultIn?_eq_none_iff_separate, ofIntervals]
  cases faultIn? none is <;> simp [eq_comm]

theorem ofIntervals_eq_error_iff : ofIntervals is = .error e ↔ faultIn? none is = some e := by
  rw [ofIntervals]
  cases faultIn? none is <;> simp

/-- A list of intervals is a set if and only if they are proper and each starts at least two past
the end of the one before. The set has the list as its intervals, and what these cover as its
members. A list that is refused is so for the flaw of the first interval that has one. The list of
any set that the operations lead to is accepted, and gives the set back. -/
theorem ofIntervals_reads_back (is : List Interval) :
    ((∃ s, ofIntervals is = .ok s) ↔ Separate is) ∧
    (∀ s, ofIntervals is = .ok s → s.intervals = is ∧ ∀ c, s.search c = s.contains c ∧
      (s.search c = true ↔ ∃ i ∈ is, i.first ≤ c ∧ c ≤ i.last)) ∧
    (∀ e, ofIntervals is = .error e ↔ ∃ before i behind, is = before ++ i :: behind ∧
      Separate before ∧ Flaw before.getLast? i e) ∧
    ∀ s : CharSet, s.Built → ofIntervals s.intervals = .ok s := by
  refine ⟨?_, ?_, ?_, ?_⟩
  · simp only [ofIntervals_eq_ok_iff, exists_and_left, exists_eq, and_true]
  · intro s h
    obtain ⟨-, rfl⟩ := ofIntervals_eq_ok_iff.1 h
    have hcanonical := canonical_of_ofIntervals h
    refine ⟨intervals_pack is, fun c => ⟨hcanonical.search_eq, ?_⟩⟩
    rw [hcanonical.search_eq, contains_pack]
    simp [Covers, Interval.contains]
  · intro e
    rw [ofIntervals_eq_error_iff, faultIn?_eq_some_iff]
    simp only [faultIn?_eq_none_iff_separate, Option.or_none]
  · intro s hs
    exact hs.canonical

/-- The units but one, which are two intervals that reach both ends, and a list with two flaws: its
second interval touches the first one, and its third one is reversed. -/
theorem ofIntervals_reads_back_ends :
    let is : List Interval := [⟨0, 0x60⟩, ⟨0x62, 0xFFFF⟩]
    let s := (single 0x61).compl
    s.Built ∧ ofIntervals is = .ok s ∧ s.intervals = is ∧ s.search 0x61 = false ∧
      ofIntervals [⟨0, 0x60⟩, ⟨0x61, 0xFFFF⟩, ⟨3, 2⟩] =
        .error (.notCanonical ⟨0x61, 0xFFFF⟩) := by
  intro is s
  have hs : s.Built := .compl (.single _)
  have hlist : s.intervals = is := by
    show (single 0x61).compl.intervals = [⟨0, 0x60⟩, ⟨0x62, 0xFFFF⟩]
    cbv
  obtain ⟨-, haccepted, -, hback⟩ := ofIntervals_reads_back is
  have hok : ofIntervals is = .ok s := by
    rw [← hlist]
    exact hback s hs
  obtain ⟨hintervals, hmembers⟩ := haccepted s hok
  have hmissing : s.search 0x61 = false := by
    rw [← Bool.not_eq_true, (hmembers 0x61).2]
    decide
  refine ⟨hs, hok, hintervals, hmissing, ?_⟩
  refine ((ofIntervals_reads_back _).2.2.1 _).2
    ⟨[⟨0, 0x60⟩], ⟨0x61, 0xFFFF⟩, [⟨3, 2⟩], rfl, ⟨by decide, .singleton _⟩, ?_⟩
  exact .near (by decide) rfl (by decide)

end LexTags.CharSet
