import LexTags.Pattern.Semantics
import LexTags.Tagged.Semantics

/-!
# The simplifying constructors mean what the plain ones mean

Both kinds of expression come with `append`, `either` and `many`, which leave a node out
where it changes nothing. That it changes nothing is meant literally: the matches are the
same, log and all. Every pass puts its result together with these constructors, so their
equivalences are what lets a proof treat the result as if it had been built plainly.

A repetition is read by induction on the number of its rounds. `Reads.starInduction` is that
induction, with the body fixed.
-/

namespace LexTags

namespace Pattern

variable {w : Text} {a b l r p : Pattern} {i j k : Nat} {log rest : List (String × Span)}

/-- Induction on the rounds of a repetition. -/
theorem Reads.starInduction {motive : Nat → Nat → List (String × Span) → Prop}
    (nil : ∀ i, i ≤ w.length → motive i i [])
    (cons : ∀ i j k log rest, Reads w p i j log → Reads w (star p) j k rest →
      motive j k rest → motive i k (log ++ rest))
    (h : Reads w (star p) i j log) : motive i j log := by
  generalize hq : star p = q at h
  induction h with
  | starNil hi => exact nil _ hi
  | starCons hp hs _ ih =>
      cases hq
      exact cons _ _ _ _ _ hp hs (ih rfl)
  | _ => cases hq

theorem reads_epsilon_iff :
    Reads w epsilon i j log ↔ i = j ∧ log = [] ∧ i ≤ w.length := by
  constructor
  · intro h
    cases h with
    | epsilon hi => exact ⟨rfl, rfl, hi⟩
  · rintro ⟨rfl, rfl, hi⟩
    exact .epsilon hi

theorem reads_seq_iff :
    Reads w (seq a b) i k log ↔
      ∃ j first second, Reads w a i j first ∧ Reads w b j k second ∧
        log = first ++ second := by
  constructor
  · intro h
    cases h with
    | seq ha hb => exact ⟨_, _, _, ha, hb, rfl⟩
  · rintro ⟨j, first, second, ha, hb, rfl⟩
    exact .seq ha hb

theorem reads_alt_iff :
    Reads w (alt l r) i j log ↔ Reads w l i j log ∨ Reads w r i j log := by
  constructor
  · intro h
    cases h with
    | altLeft hl => exact .inl hl
    | altRight hr => exact .inr hr
  · rintro (hl | hr)
    · exact .altLeft hl
    · exact .altRight hr

theorem reads_append_iff : Reads w (a ++ b) i k log ↔ Reads w (seq a b) i k log := by
  rw [reads_seq_iff]
  by_cases ha : a = epsilon
  · subst ha
    rw [epsilon_append]
    constructor
    · intro h
      exact ⟨i, [], log, .epsilon (Nat.le_trans h.bounds.1 h.bounds.2), h, rfl⟩
    · rintro ⟨j, first, second, hfirst, h, rfl⟩
      obtain ⟨rfl, rfl, -⟩ := reads_epsilon_iff.1 hfirst
      exact h
  · by_cases hb : b = epsilon
    · subst hb
      rw [append_epsilon]
      constructor
      · intro h
        exact ⟨k, log, [], h, .epsilon h.bounds.2, (List.append_nil _).symm⟩
      · rintro ⟨j, first, second, h, hsecond, rfl⟩
        obtain ⟨rfl, rfl, -⟩ := reads_epsilon_iff.1 hsecond
        rw [List.append_nil]
        exact h
    · rw [append_of_ne ha hb, reads_seq_iff]

theorem reads_either_iff : Reads w (either l r) i j log ↔ Reads w (alt l r) i j log := by
  rw [reads_alt_iff]
  by_cases h : l = r
  · subst h
    rw [either_self, or_self]
  · rw [either_of_ne h, reads_alt_iff]

theorem reads_many_iff : Reads w (many p) i j log ↔ Reads w (star p) i j log := by
  by_cases hp : p = epsilon
  · subst hp
    constructor
    · intro h
      obtain ⟨rfl, rfl, hi⟩ := reads_epsilon_iff.1 h
      exact .starNil hi
    · refine Reads.starInduction (fun _ hi => .epsilon hi) ?_
      intro i j k log rest hbody _ ih
      obtain ⟨rfl, rfl, -⟩ := reads_epsilon_iff.1 hbody
      exact ih
  · rw [many_of_ne hp]

/-- Every span that is logged lies inside the match. -/
theorem Reads.span_bounds (h : Reads w p i j log) {e : String × Span} (he : e ∈ log) :
    i ≤ e.2.start ∧ e.2.start ≤ e.2.stop ∧ e.2.stop ≤ j := by
  induction h with
  | epsilon _ | eof | chars _ _ | starNil _ => cases he
  | altLeft _ ih | altRight _ ih => exact ih he
  | seq ha hb iha ihb | starCons ha hb iha ihb =>
      have hle := ha.bounds.1
      have hle' := hb.bounds.1
      rcases List.mem_append.1 he with hfirst | hsecond
      · have hbounds := iha hfirst
        omega
      · have hbounds := ihb hsecond
        omega
  | bind hp ih =>
      have hle := hp.bounds.1
      rcases List.mem_append.1 he with hinner | hself
      · exact ih hinner
      · obtain rfl := List.mem_singleton.1 hself
        exact ⟨Nat.le_refl _, hle, Nat.le_refl _⟩

end Pattern

namespace Tagged

variable {pool : Pool} {w : Text} {a b l r p : Tagged} {i j k : Nat}
  {log rest : List (Tag × Nat)}

/-- Induction on the rounds of a repetition. -/
theorem Reads.starInduction {motive : Nat → Nat → List (Tag × Nat) → Prop}
    (nil : ∀ i, i ≤ w.length → motive i i [])
    (cons : ∀ i j k log rest, Reads pool w p i j log → Reads pool w (star p) j k rest →
      motive j k rest → motive i k (log ++ rest))
    (h : Reads pool w (star p) i j log) : motive i j log := by
  generalize hq : star p = q at h
  induction h with
  | starNil hi => exact nil _ hi
  | starCons hp hs _ ih =>
      cases hq
      exact cons _ _ _ _ _ hp hs (ih rfl)
  | _ => cases hq

theorem reads_epsilon_iff :
    Reads pool w epsilon i j log ↔ i = j ∧ log = [] ∧ i ≤ w.length := by
  constructor
  · intro h
    cases h with
    | epsilon hi => exact ⟨rfl, rfl, hi⟩
  · rintro ⟨rfl, rfl, hi⟩
    exact .epsilon hi

theorem reads_tag_iff {t : Tag} :
    Reads pool w (tag t) i j log ↔ i = j ∧ log = [(t, i)] ∧ i ≤ w.length := by
  constructor
  · intro h
    cases h with
    | tag hi => exact ⟨rfl, rfl, hi⟩
  · rintro ⟨rfl, rfl, hi⟩
    exact .tag hi

theorem reads_seq_iff :
    Reads pool w (seq a b) i k log ↔
      ∃ j first second, Reads pool w a i j first ∧ Reads pool w b j k second ∧
        log = first ++ second := by
  constructor
  · intro h
    cases h with
    | seq ha hb => exact ⟨_, _, _, ha, hb, rfl⟩
  · rintro ⟨j, first, second, ha, hb, rfl⟩
    exact .seq ha hb

theorem reads_alt_iff :
    Reads pool w (alt l r) i j log ↔ Reads pool w l i j log ∨ Reads pool w r i j log := by
  constructor
  · intro h
    cases h with
    | altLeft hl => exact .inl hl
    | altRight hr => exact .inr hr
  · rintro (hl | hr)
    · exact .altLeft hl
    · exact .altRight hr

theorem reads_append_iff :
    Reads pool w (a ++ b) i k log ↔ Reads pool w (seq a b) i k log := by
  rw [reads_seq_iff]
  by_cases ha : a = epsilon
  · subst ha
    rw [epsilon_append]
    constructor
    · intro h
      exact ⟨i, [], log, .epsilon (Nat.le_trans h.bounds.1 h.bounds.2), h, rfl⟩
    · rintro ⟨j, first, second, hfirst, h, rfl⟩
      obtain ⟨rfl, rfl, -⟩ := reads_epsilon_iff.1 hfirst
      exact h
  · by_cases hb : b = epsilon
    · subst hb
      rw [append_epsilon]
      constructor
      · intro h
        exact ⟨k, log, [], h, .epsilon h.bounds.2, (List.append_nil _).symm⟩
      · rintro ⟨j, first, second, h, hsecond, rfl⟩
        obtain ⟨rfl, rfl, -⟩ := reads_epsilon_iff.1 hsecond
        rw [List.append_nil]
        exact h
    · rw [append_of_ne ha hb, reads_seq_iff]

theorem reads_either_iff :
    Reads pool w (either l r) i j log ↔ Reads pool w (alt l r) i j log := by
  rw [reads_alt_iff]
  by_cases h : l = r
  · subst h
    rw [either_self, or_self]
  · rw [either_of_ne h, reads_alt_iff]

/-- Rounds of a repetition after rounds of the same repetition are more rounds. -/
theorem Reads.starAppend (h : Reads pool w (star p) i j log)
    (hrest : Reads pool w (star p) j k rest) :
    Reads pool w (star p) i k (log ++ rest) := by
  revert hrest
  refine Reads.starInduction (motive := fun i j log =>
    Reads pool w (star p) j k rest → Reads pool w (star p) i k (log ++ rest)) ?_ ?_ h
  · intro _ _ hrest
    exact hrest
  · intro _ _ _ _ _ hbody _ ih hrest
    rw [List.append_assoc]
    exact .starCons hbody (ih hrest)

theorem reads_star_star_iff :
    Reads pool w (star (star p)) i j log ↔ Reads pool w (star p) i j log := by
  constructor
  · refine Reads.starInduction (fun _ hi => .starNil hi) ?_
    intro _ _ _ _ _ hround _ ih
    exact hround.starAppend ih
  · intro h
    rw [← List.append_nil log]
    exact .starCons h (.starNil h.bounds.2)

theorem reads_many_iff : Reads pool w (many p) i j log ↔ Reads pool w (star p) i j log := by
  match p with
  | .epsilon =>
      constructor
      · intro h
        obtain ⟨rfl, rfl, hi⟩ := reads_epsilon_iff.1 h
        exact .starNil hi
      · refine Reads.starInduction (fun _ hi => .epsilon hi) ?_
        intro i j k log rest hbody _ ih
        obtain ⟨rfl, rfl, -⟩ := reads_epsilon_iff.1 hbody
        exact ih
  | .star q => exact reads_star_star_iff.symm
  | .chars _ | .eof _ | .tag _ | .action _ | .alt _ _ | .seq _ _ => rfl

/-- A match crosses only the tags of its expression. -/
theorem Reads.mem_tags (h : Reads pool w p i j log) {e : Tag × Nat} (he : e ∈ log) :
    e.1 ∈ p.tags := by
  induction h with
  | epsilon _ | chars _ _ _ | eof | action _ | starNil _ => cases he
  | tag _ => exact List.mem_singleton.2 (congrArg Prod.fst (List.mem_singleton.1 he))
  | altLeft _ ih => exact List.mem_append_left _ (ih he)
  | altRight _ ih => exact List.mem_append_right _ (ih he)
  | seq _ _ iha ihb =>
      rcases List.mem_append.1 he with ha | hb
      · exact List.mem_append_left _ (iha ha)
      · exact List.mem_append_right _ (ihb hb)
  | starCons _ _ ihp ihs =>
      rcases List.mem_append.1 he with hp | hs
      · exact ihp hp
      · exact ihs hs

end Tagged

end LexTags
