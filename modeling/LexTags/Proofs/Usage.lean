import LexTags.Pattern.Semantics
import LexTags.Pattern.Usage
import LexTags.Proofs.Repeats

/-!
# The usage of names describes every match

The usage is computed from the tree alone, and the encoding and the layout take it at its
word. Here it is held against the matches: only names of the pattern are logged, a name that
is not optional is logged in every match, and a name without a binding of another size has
spans of one unit only. All three are inductions over a match, since that is where the rounds
of a repetition are.

Whether a name is repeated is a question about where its bindings stand, and the layout uses
it in that form. For a match it means that a name that is not repeated is bound at most once.
`names` lists the binding occurrences from left to right, and the bound names are in the order
of this list.
-/

namespace LexTags

theorem OrderedSet.toList_union_of_eraseDups {α : Type} [DecidableEq α] {s t : OrderedSet α}
    {as bs : List α} (hs : s.toList = as.eraseDups) (ht : t.toList = bs.eraseDups) :
    (s ∪ t).toList = (as ++ bs).eraseDups := by
  show s.toList ++ t.toList.filter (· ∉ s) = _
  rw [List.eraseDups_append, List.removeAll, eraseDups_filter, ht, hs]
  refine congrArg (_ ++ ·) (List.filter_congr fun b _ => ?_)
  have hmem : b ∈ s ↔ b ∈ as := by rw [mem_def, hs, List.mem_eraseDups]
  simp [hmem]

namespace Pattern

/-- The names of the bindings, from left to right and each as often as it is bound. -/
def names : Pattern → List String
  | alt l r => l.names ++ r.names
  | seq a b => a.names ++ b.names
  | star p => p.names
  | bind name p => name :: p.names
  | _ => []

theorem mem_bound_iff {p : Pattern} {n : String} : n ∈ p.usage.bound ↔ n ∈ p.names := by
  induction p with
  | epsilon | eof | chars _ => simp [usage, Usage.none, names]
  | alt l r ihl ihr => simp [usage, Usage.alternation, Usage.merge, names, ihl, ihr]
  | seq a b iha ihb => simp [usage, Usage.sequence, Usage.merge, names, iha, ihb]
  | star p ih => simp [usage, Usage.repetition, names, ih]
  | bind m p ih => simp [usage, Usage.binding, names, ih]

/-- The bound names are in the order in which they are first met, a binding before its body. -/
theorem toList_bound (p : Pattern) : p.usage.bound.toList = p.names.eraseDups := by
  induction p with
  | epsilon | eof | chars _ => rfl
  | alt l r ihl ihr => exact OrderedSet.toList_union_of_eraseDups ihl ihr
  | seq a b iha ihb => exact OrderedSet.toList_union_of_eraseDups iha ihb
  | star p ih => exact ih
  | bind name p ih =>
      show name :: p.usage.bound.toList.filter (· != name) = (name :: p.names).eraseDups
      rw [List.eraseDups_cons, eraseDups_filter, ih]
      rfl

theorem mem_otherSized_bind {m n : String} {p : Pattern} :
    n ∈ (bind m p).usage.otherSized ↔
      n ∈ p.usage.otherSized ∨ (n = m ∧ p.size? ≠ some 1) := by
  rw [usage, Usage.binding]
  by_cases h : p.size? = some 1 <;> simp [h]

theorem mem_repeated_bind {m n : String} {p : Pattern} :
    n ∈ (bind m p).usage.repeated ↔
      n ∈ p.usage.repeated ∨ (n = m ∧ m ∈ p.names) := by
  rw [usage, Usage.binding]
  by_cases h : m ∈ p.usage.bound
  · simp [h, mem_bound_iff.1 h]
  · simp [h, mt mem_bound_iff.2 h]

/-- What an alternation binds in every match, both sides bind in every match. -/
theorem bound_of_not_optional_alt {l r : Pattern} {n : String}
    (h : n ∉ (alt l r).usage.optional) (hn : n ∈ l.names ∨ n ∈ r.names) :
    (n ∈ l.names ∧ n ∈ r.names) ∧ n ∉ l.usage.optional ∧ n ∉ r.usage.optional := by
  simp only [usage, Usage.alternation, Usage.merge, OrderedSet.mem_union,
    OrderedSet.mem_symmDiff, mem_bound_iff, not_or] at h
  obtain ⟨⟨hl, hr⟩, hopt⟩ := h
  have hboth : n ∈ l.names ∧ n ∈ r.names := by
    rcases hn with hn | hn
    · exact ⟨hn, Decidable.byContradiction fun h => hl ⟨hn, h⟩⟩
    · exact ⟨Decidable.byContradiction fun h => hr ⟨hn, h⟩, hn⟩
  exact ⟨hboth, hopt⟩

theorem mem_charNames_iff {u : Usage} {n : String} :
    n ∈ u.charNames ↔ n ∈ u.unitSized ∧ n ∉ u.otherSized := by
  simp [Usage.charNames]

variable {w : Text} {p : Pattern} {i j : Nat} {log : List (String × Span)} {n : String}

/-- A match binds only names of the pattern. -/
theorem Reads.mem_names (h : Reads w p i j log) {e : String × Span} (he : e ∈ log) :
    e.1 ∈ p.names := by
  induction h with
  | epsilon _ | eof | chars _ _ | starNil _ => cases he
  | altLeft _ ih => exact List.mem_append_left _ (ih he)
  | altRight _ ih => exact List.mem_append_right _ (ih he)
  | seq _ _ iha ihb =>
      rcases List.mem_append.1 he with ha | hb
      · exact List.mem_append_left _ (iha ha)
      · exact List.mem_append_right _ (ihb hb)
  | starCons _ _ ihp ihs =>
      rcases List.mem_append.1 he with hp | hs
      · exact ihp hp
      · exact ihs hs
  | bind _ ih =>
      rcases List.mem_append.1 he with hp | hlast
      · exact List.mem_cons_of_mem _ (ih hp)
      · rw [List.mem_singleton.1 hlast]
        exact List.mem_cons_self

/-- A name that is bound and not optional is bound in every match. -/
theorem Reads.exists_of_not_optional (h : Reads w p i j log) (hn : n ∈ p.names)
    (hopt : n ∉ p.usage.optional) : ∃ e ∈ log, e.1 = n := by
  induction h with
  | epsilon _ | eof | chars _ _ => cases hn
  | altLeft _ ih =>
      obtain ⟨hboth, hl, -⟩ := bound_of_not_optional_alt hopt (List.mem_append.1 hn)
      exact ih hboth.1 hl
  | altRight _ ih =>
      obtain ⟨hboth, -, hr⟩ := bound_of_not_optional_alt hopt (List.mem_append.1 hn)
      exact ih hboth.2 hr
  | seq _ _ iha ihb =>
      simp only [usage, Usage.sequence, Usage.merge, OrderedSet.mem_union] at hopt
      rcases List.mem_append.1 hn with ha | hb
      · obtain ⟨e, he, hen⟩ := iha ha fun ho => hopt (.inl ho)
        exact ⟨e, List.mem_append_left _ he, hen⟩
      · obtain ⟨e, he, hen⟩ := ihb hb fun ho => hopt (.inr ho)
        exact ⟨e, List.mem_append_right _ he, hen⟩
  | starNil _ | starCons _ _ _ _ => exact absurd (mem_bound_iff.2 hn) hopt
  | bind _ ih =>
      rcases List.mem_cons.1 hn with rfl | hp
      · exact ⟨_, List.mem_append_right _ (List.mem_singleton_self _), rfl⟩
      · obtain ⟨e, he, hen⟩ := ih hp hopt
        exact ⟨e, List.mem_append_left _ he, hen⟩

/-- A name without a binding of another size has spans of one unit. -/
theorem Reads.stop_of_unit (h : Reads w p i j log) (hn : n ∉ p.usage.otherSized)
    {s : Span} (hs : (n, s) ∈ log) : s.stop = s.start + 1 := by
  induction h with
  | epsilon _ | eof | chars _ _ | starNil _ => cases hs
  | altLeft _ ih | altRight _ ih =>
      simp only [usage, Usage.alternation, Usage.merge, OrderedSet.mem_union, not_or] at hn
      first
        | exact ih hn.1 hs
        | exact ih hn.2 hs
  | seq _ _ iha ihb =>
      simp only [usage, Usage.sequence, Usage.merge, OrderedSet.mem_union, not_or] at hn
      rcases List.mem_append.1 hs with ha | hb
      · exact iha hn.1 ha
      · exact ihb hn.2 hb
  | starCons _ _ ihp ihs =>
      rcases List.mem_append.1 hs with hp | hrest
      · exact ihp hn hp
      · exact ihs hn hrest
  | bind hp ih =>
      rw [mem_otherSized_bind, not_or, not_and, Decidable.not_not] at hn
      rcases List.mem_append.1 hs with hbody | hlast
      · exact ih hn.1 hbody
      · obtain ⟨hname, hspan⟩ := Prod.mk.inj (List.mem_singleton.1 hlast)
        rw [hspan]
        exact hp.stop_eq (hn.2 hname)

/-- A match does not bind other names than those of the pattern. -/
theorem Reads.count_eq_zero (h : Reads w p i j log) (hn : n ∉ p.names) :
    (log.map Prod.fst).count n = 0 := by
  rw [List.count_eq_zero]
  intro hmem
  obtain ⟨e, he, rfl⟩ := List.mem_map.1 hmem
  exact hn (h.mem_names he)

/-- A name that is not repeated is bound at most once in a match. -/
theorem Reads.count_le_one (h : Reads w p i j log) (hrep : n ∉ p.usage.repeated) :
    (log.map Prod.fst).count n ≤ 1 := by
  induction h with
  | epsilon _ | eof | chars _ _ | starNil _ => exact Nat.zero_le 1
  | altLeft _ ih =>
      rw [usage, Usage.alternation, Usage.merge, OrderedSet.mem_union, not_or] at hrep
      exact ih hrep.1
  | altRight _ ih =>
      rw [usage, Usage.alternation, Usage.merge, OrderedSet.mem_union, not_or] at hrep
      exact ih hrep.2
  | @seq a b _ _ _ _ _ ha hb iha ihb =>
      simp only [usage, Usage.sequence, Usage.merge, OrderedSet.mem_union,
        OrderedSet.mem_inter, mem_bound_iff, not_or, not_and] at hrep
      obtain ⟨hboth, hra, hrb⟩ := hrep
      rw [List.map_append, List.count_append]
      by_cases hname : n ∈ a.names
      · rw [hb.count_eq_zero (hboth hname)]
        exact iha hra
      · rw [ha.count_eq_zero hname, Nat.zero_add]
        exact ihb hrb
  | starCons hp hs _ _ =>
      -- Every name of the body is repeated, so no round binds this one.
      have hname : n ∉ names _ := mt mem_bound_iff.2 hrep
      rw [List.map_append, List.count_append, hp.count_eq_zero hname, hs.count_eq_zero hname]
      exact Nat.zero_le 1
  | @bind name p _ _ _ hp ih =>
      rw [mem_repeated_bind, not_or, not_and] at hrep
      rw [List.map_append, List.count_append]
      by_cases hname : n = name
      · subst hname
        rw [hp.count_eq_zero (hrep.2 rfl), Nat.zero_add]
        exact @List.count_le_length _ _ n [n]
      · have hlast : [name].count n = 0 :=
          List.count_eq_zero.2 fun hmem => hname (List.mem_singleton.1 hmem)
        exact hlast.symm ▸ ih hrep.1

end Pattern

/-- The usage is right about what a match has logged. -/
structure Usage.Summarises (u : Usage) (log : List (String × Span)) : Prop where
  bound : ∀ e ∈ log, e.1 ∈ u.bound
  always : ∀ n ∈ u.bound, n ∉ u.optional → ∃ e ∈ log, e.1 = n
  once : ∀ n, n ∉ u.repeated → (log.map Prod.fst).count n ≤ 1
  unit : ∀ e ∈ log, e.1 ∈ u.charNames → e.2.stop = e.2.start + 1

/-- The usage of a pattern is right about every match. -/
theorem Pattern.usage_summarises {w : Text} {p : Pattern} {i j : Nat}
    {log : List (String × Span)} (h : Reads w p i j log) : p.usage.Summarises log where
  bound := fun _ he => mem_bound_iff.2 (h.mem_names he)
  always := fun _ hn hopt => h.exists_of_not_optional (mem_bound_iff.1 hn) hopt
  once := fun _ hrep => h.count_le_one hrep
  unit := fun _ he hchar => h.stop_of_unit (mem_charNames_iff.1 hchar).2 he

/-- In `(x:a)*(y:b)` the rounds bind `x` twice and `y`, which is not repeated, is bound once. -/
theorem Pattern.usage_summarises_rounds :
    Reads [97, 97, 98] (seq (star (bind "x" (chars (.single 97)))) (bind "y" (chars (.single 98))))
        0 3 [("x", ⟨0, 1⟩), ("x", ⟨1, 2⟩), ("y", ⟨2, 3⟩)] ∧
      (seq (star (bind "x" (chars (.single 97)))) (bind "y" (chars (.single 98)))).usage.Summarises
        [("x", ⟨0, 1⟩), ("x", ⟨1, 2⟩), ("y", ⟨2, 3⟩)] := by
  have hround : ∀ i, ([97, 97, 98] : Text)[i]? = some 97 →
      Reads [97, 97, 98] (bind "x" (chars (.single 97))) i (i + 1) [("x", ⟨i, i + 1⟩)] :=
    fun _ hc => .bind (.chars hc (by decide))
  have h : Reads [97, 97, 98]
      (seq (star (bind "x" (chars (.single 97)))) (bind "y" (chars (.single 98))))
      0 3 [("x", ⟨0, 1⟩), ("x", ⟨1, 2⟩), ("y", ⟨2, 3⟩)] :=
    .seq (.starCons (hround 0 rfl) (.starCons (hround 1 rfl) (.starNil (by decide))))
      (.bind (.chars rfl (by decide)))
  exact ⟨h, usage_summarises h⟩

end LexTags
