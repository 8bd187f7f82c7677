import LexTags.CharSet.Printer
import LexTags.Proofs.NormalForm

/-!
# The text of a set tells the set

No two sets are printed alike. The spelling of a unit has no characters but letters, digits and
backslashes, and it tells the unit. So spellings that are joined by any other character can be
taken apart at that character: a list of intervals at the spaces, and an interval at its dash. The
signs of the empty and the full set, and the bracket that opens a list, do not occur in a spelling
either.

What is printed is the form in which a set is kept, and for a set in normal form the members
determine that form. So two such sets are printed alike if and only if they have the same members.
-/

namespace LexTags

namespace CodeUnit

variable {c d : CodeUnit} {x : Char} {rest : List Char}

/-! ## The spelling of a unit -/

theorem toUpper_digitChar_inj : ∀ m < 16, ∀ n < 16,
    (Nat.digitChar m).toUpper = (Nat.digitChar n).toUpper → m = n := by
  decide

theorem isAlphanum_toUpper_digitChar : ∀ n < 16, (Nat.digitChar n).toUpper.isAlphanum = true := by
  decide

/-- Four digits are enough for the number of a unit. -/
theorem hexDigits_toUpper_inj (h : c.hexDigits.map Char.toUpper = d.hexDigits.map Char.toUpper) :
    c = d := by
  have hc := c.toNat_lt
  have hd := d.toNat_lt
  simp only [hexDigits, List.map_cons, List.map_nil, List.cons.injEq, and_true] at h
  obtain ⟨h3, h2, h1, h0⟩ := h
  have h3 := toUpper_digitChar_inj _ (by omega) _ (by omega) h3
  have h2 := toUpper_digitChar_inj _ (by omega) _ (by omega) h2
  have h1 := toUpper_digitChar_inj _ (by omega) _ (by omega) h1
  have h0 := toUpper_digitChar_inj _ (by omega) _ (by omega) h0
  exact UInt16.toNat_inj.1 (by omega)

theorem isAlphanum_of_mem_hexDigits (h : x ∈ c.hexDigits.map Char.toUpper) :
    x.isAlphanum = true := by
  have hc := c.toNat_lt
  simp only [hexDigits, List.map_cons, List.map_nil, List.mem_cons, List.not_mem_nil, or_false] at h
  rcases h with rfl | rfl | rfl | rfl <;> exact isAlphanum_toUpper_digitChar _ (by omega)

/-- A unit that is shown as a letter or digit is not half of a pair, so it is the number of that
character. -/
theorem toNat_toChar (h : c.toChar.isAlphanum = true) : c.toChar.toNat = c.toNat := by
  rw [toChar] at h ⊢
  split at h
  · cases h
  · next hpair =>
      have hvalid : c.toNat.isValidChar := by
        have hc := c.toNat_lt
        simp only [isLeading, isTrailing, UInt16.le_iff_toNat_le, UInt16.lt_iff_toNat_lt,
          UInt16.reduceToNat, Bool.or_eq_true, Bool.and_eq_true, decide_eq_true_eq] at hpair
        rw [Nat.isValidChar]
        omega
      rw [if_neg hpair, Char.ofNat, dif_pos hvalid]
      rfl

/-- The three kinds of spelling differ in length, and each tells the unit. -/
theorem spell_injective : Function.Injective spell := by
  intro c d h
  rw [spell, spell] at h
  split at h
  · next hc =>
      -- the end of the input
      split at h
      · next hd => exact hc.trans hd.symm
      · split at h <;> simp at h
  · split at h
    · next hc =>
        -- a letter or digit
        split at h
        · simp at h
        · split at h
          · next hd =>
              have hchar : c.toChar = d.toChar := List.singleton_inj.1 h
              rw [← UInt16.toNat_inj, ← toNat_toChar hc, hchar, toNat_toChar hd]
          · simp at h
    · -- four digits behind a backslash
      split at h
      · simp at h
      · split at h
        · simp at h
        · exact hexDigits_toUpper_inj (List.cons.inj (List.cons.inj h).2).2

/-- What is neither a letter nor a digit does not stand in a spelling, but for a backslash. -/
theorem isAlphanum_or_eq_of_mem_spell (h : x ∈ c.spell) : x.isAlphanum = true ∨ x = '\\' := by
  rw [spell] at h
  split at h
  · simp only [List.mem_cons, List.not_mem_nil, or_false] at h
    rcases h with rfl | rfl | rfl <;> exact .inl rfl
  · split at h
    · next hc => exact .inl (List.mem_singleton.1 h ▸ hc)
    · rcases List.mem_cons.1 h with rfl | h
      · exact .inr rfl
      · rcases List.mem_cons.1 h with rfl | h
        · exact .inl rfl
        · exact .inl (isAlphanum_of_mem_hexDigits h)

theorem spell_ne_nil : c.spell ≠ [] := by
  rw [spell]
  split
  · simp
  · split <;> simp

theorem notMem_spell (hx : x.isAlphanum = false) (hslash : x ≠ '\\') : x ∉ c.spell := by
  intro hmem
  rcases isAlphanum_or_eq_of_mem_spell hmem with halpha | rfl
  · rw [hx] at halpha
    cases halpha
  · exact hslash rfl

theorem spell_ne_cons (hx : x.isAlphanum = false) (hslash : x ≠ '\\') : c.spell ≠ x :: rest :=
  fun h => notMem_spell hx hslash (h ▸ List.mem_cons_self)

end CodeUnit

/-! ## Joined spellings -/

/-- Words that are joined by a character which occurs in none of them can be taken apart at it.
No word is empty, or else the list of this word would be joined like the empty list. -/
theorem intercalate_injective {α : Type} {word : α → List Char} {x : Char}
    (hword : Function.Injective word) (hx : ∀ a, x ∉ word a) (hne : ∀ a, word a ≠ []) :
    Function.Injective fun as : List α => [x].intercalate (as.map word) := by
  have hsplit : ∀ a as, ([x].intercalate ((a :: as).map word)).splitOn x = (a :: as).map word :=
    fun a as => List.splitOn_intercalate x (by simpa using ⟨hx a, fun b _ => hx b⟩) (by simp)
  have hnil : ([x].intercalate (([] : List α).map word)).splitOn x = [[]] := List.splitOn_nil x
  intro as bs h
  have hwords := congrArg (List.splitOn x) h
  match as, bs with
  | [], [] => rfl
  | [], b :: bs =>
      rw [hnil, hsplit] at hwords
      exact absurd (List.cons.inj hwords).1.symm (hne b)
  | a :: as, [] =>
      rw [hnil, hsplit] at hwords
      exact absurd (List.cons.inj hwords).1 (hne a)
  | a :: as, b :: bs =>
      rw [hsplit, hsplit] at hwords
      exact (List.map_inj_right fun _ _ h => hword h).1 hwords

namespace Interval

variable {i : Interval} {x : Char}

/-- The units by which an interval is written. -/
def ends (i : Interval) : List CodeUnit :=
  if i.last = i.first then [i.first] else [i.first, i.last]

theorem ends_injective : Function.Injective ends := by
  intro i j h
  cases i
  cases j
  rw [ends, ends] at h
  split at h <;> split at h <;> simp_all

theorem spell_eq_intercalate (i : Interval) :
    i.spell = ['-'].intercalate (i.ends.map CodeUnit.spell) := by
  rw [spell, ends]
  split <;> simp [List.intercalate]

theorem spell_injective : Function.Injective spell := by
  have hends : Function.Injective fun cs : List CodeUnit =>
      ['-'].intercalate (cs.map CodeUnit.spell) :=
    intercalate_injective CodeUnit.spell_injective
      (fun _ => CodeUnit.notMem_spell rfl (by decide)) fun _ => CodeUnit.spell_ne_nil
  intro i j h
  rw [spell_eq_intercalate, spell_eq_intercalate] at h
  exact ends_injective (hends h)

theorem notMem_spell (hx : x.isAlphanum = false) (hslash : x ≠ '\\') (hdash : x ≠ '-') :
    x ∉ i.spell := by
  have hunit : ∀ c : CodeUnit, x ∉ c.spell := fun c => CodeUnit.notMem_spell hx hslash
  rw [spell]
  split
  · exact hunit _
  · simp [hunit, hdash]

theorem spell_ne_nil : i.spell ≠ [] := by
  rw [spell]
  split
  · exact CodeUnit.spell_ne_nil
  · simp

end Interval

namespace CharSet

variable {s t : CharSet}

/-! ## Printed sets -/

theorem printedIntervals_injective :
    Function.Injective fun is : List Interval => [' '].intercalate (is.map Interval.spell) :=
  intercalate_injective Interval.spell_injective
    (fun _ => Interval.notMem_spell rfl (by decide) (by decide)) fun _ => Interval.spell_ne_nil

/-- The first character tells the form of a set, and the others tell what is in it. -/
theorem spell_injective : Function.Injective spell := by
  intro s t h
  match s, t with
  | empty, empty | all, all => rfl
  | single c, single d => exact congrArg single (CodeUnit.spell_injective h)
  | ranges is, ranges js =>
      have hlists := List.append_cancel_right (List.cons.inj h).2
      exact congrArg ranges (printedIntervals_injective hlists)
  | single c, empty | single c, all | single c, ranges _ =>
      exact absurd h (CodeUnit.spell_ne_cons rfl (by decide))
  | empty, single c | all, single c | ranges _, single c =>
      exact absurd h.symm (CodeUnit.spell_ne_cons rfl (by decide))
  | empty, all | empty, ranges _ | all, empty | all, ranges _ | ranges _, empty | ranges _, all =>
      exact absurd (List.cons.inj h).1 (by decide)

/-- Two sets that the operations lead to are printed alike if and only if they have the same
members. -/
theorem toString_eq_iff_of_built (hs : s.Built) (ht : t.Built) :
    toString s = toString t ↔ ∀ c, s.contains c = t.contains c := by
  constructor
  · intro h c
    rw [spell_injective (String.ofList_injective h)]
  · intro h
    rw [hs.canonical.ext ht.canonical h]

/-- The letters of the sign for the end of the input are not printed like the end of the input. -/
theorem toString_eq_iff_of_built_letters :
    let s : CharSet := ranges [⟨0x45, 0x46⟩, ⟨0x4F, 0x4F⟩]
    s.Built ∧ eof.Built ∧ toString s = "[E-F O]" ∧ toString eof = "EOF" ∧
      toString s ≠ toString eof := by
  intro s
  have hs : s.Built :=
    .ofIntervals (show ofIntervals [⟨0x45, 0x46⟩, ⟨0x4F, 0x4F⟩] = .ok s from rfl)
  refine ⟨hs, .eof, rfl, rfl, fun h => ?_⟩
  have hsame := (toString_eq_iff_of_built hs .eof).1 h 0x45
  have hletter : s.contains 0x45 = true := rfl
  have hend : eof.contains 0x45 = false := rfl
  rw [hletter, hend] at hsame
  cases hsame

end CharSet

end LexTags
