import LexTags.Proofs.Encoding
import LexTags.Proofs.NormalForm

/-!
# Patterns that are built by the simplifying constructors

A pattern that is put together with `append`, `either` and `many` has no node that these
would have left out: no empty part in a sequence, no alternation of a pattern with itself, no
repetition of the empty pattern. Since dropping shadowed bindings uses the same constructors,
it leads to such a pattern again.

Sets of units are taken to be in normal form, as every set that is read or computed is. The
constructors put the sets of their parts together and bring in no others.
-/

namespace LexTags

namespace Pattern

variable {p l r a b : Pattern} {enclosing : List String}

/-- The pattern can be put together with the simplifying constructors. -/
inductive Built : Pattern → Prop where
  | epsilon : Built epsilon
  | eof : Built eof
  | chars {set : CharSet} (hset : set.Canonical) : Built (chars set)
  | either {l r : Pattern} (hl : Built l) (hr : Built r) : Built (either l r)
  | append {a b : Pattern} (ha : Built a) (hb : Built b) : Built (a ++ b)
  | many {p : Pattern} (hp : Built p) : Built (many p)
  | bind {p : Pattern} (name : String) (hp : Built p) : Built (bind name p)

/-- No node is one that the simplifying constructors leave out. -/
def Reduced : Pattern → Prop
  | chars set => set.Canonical
  | alt l r => l ≠ r ∧ l.Reduced ∧ r.Reduced
  | seq a b => (a ≠ epsilon ∧ b ≠ epsilon) ∧ a.Reduced ∧ b.Reduced
  | star p => p ≠ epsilon ∧ p.Reduced
  | bind _ p => p.Reduced
  | _ => True

theorem Reduced.either (hl : l.Reduced) (hr : r.Reduced) : (Pattern.either l r).Reduced := by
  by_cases h : l = r
  · rw [h, either_self]
    exact hr
  · rw [either_of_ne h]
    exact ⟨h, hl, hr⟩

theorem Reduced.append (ha : a.Reduced) (hb : b.Reduced) : (a ++ b).Reduced := by
  by_cases hae : a = epsilon
  · rw [hae, epsilon_append]
    exact hb
  · by_cases hbe : b = epsilon
    · rw [hbe, append_epsilon]
      exact ha
    · rw [append_of_ne hae hbe]
      exact ⟨⟨hae, hbe⟩, ha, hb⟩

theorem Reduced.many (h : p.Reduced) : (Pattern.many p).Reduced := by
  by_cases hp : p = epsilon
  · rw [hp]
    trivial
  · rw [many_of_ne hp]
    exact ⟨hp, h⟩

/-- What is built is reduced. -/
theorem Built.reduced (h : Built p) : p.Reduced := by
  induction h with
  | epsilon | eof => trivial
  | chars hset => exact hset
  | either _ _ ihl ihr => exact ihl.either ihr
  | append _ _ iha ihb => exact iha.append ihb
  | many _ ih => exact ih.many
  | bind _ _ ih => exact ih

/-- Dropping shadowed bindings leaves a reduced pattern. -/
theorem Reduced.stripUnder (h : p.Reduced) (enclosing : List String) :
    (p.stripUnder enclosing).Reduced := by
  induction p generalizing enclosing with
  | epsilon | eof => trivial
  | chars _ => exact h
  | alt l r ihl ihr =>
      rw [Pattern.stripUnder]
      split
      · exact (ihl h.2.1 _).either (ihr h.2.2 _)
      · exact h
  | seq a b iha ihb =>
      rw [Pattern.stripUnder]
      split
      · exact (iha h.2.1 _).append (ihb h.2.2 _)
      · exact h
  | star p ih =>
      rw [Pattern.stripUnder]
      split
      · exact (ih h.2 _).many
      · exact h
  | bind name p ih =>
      rw [Pattern.stripUnder]
      split
      · exact ih h _
      · exact ih h _

theorem Reduced.withoutShadowed (h : p.Reduced) : p.withoutShadowed.Reduced := by
  rw [withoutShadowed_eq]
  exact h.stripUnder []

/-- The sets of a reduced pattern are in normal form. -/
theorem Reduced.canonical (h : p.Reduced) : ∀ s ∈ p.leaves, s.Canonical := by
  induction p with
  | epsilon => exact fun s hs => absurd hs List.not_mem_nil
  | eof =>
      intro s hs
      rw [List.mem_singleton.1 hs]
      exact CharSet.canonical_single _
  | chars set =>
      intro s hs
      rw [List.mem_singleton.1 hs]
      exact h
  | alt l r ihl ihr =>
      intro s hs
      exact (List.mem_append.1 hs).elim (ihl h.2.1 s) (ihr h.2.2 s)
  | seq a b iha ihb =>
      intro s hs
      exact (List.mem_append.1 hs).elim (iha h.2.1 s) (ihb h.2.2 s)
  | star p ih => exact ih h.2
  | bind name p ih => exact ih h

/-! ## The sets of a simplified pattern -/

theorem leaves_append : (a ++ b).leaves = a.leaves ++ b.leaves := by
  by_cases ha : a = epsilon
  · rw [ha, epsilon_append]
    rfl
  · by_cases hb : b = epsilon
    · rw [hb, append_epsilon]
      exact (List.append_nil _).symm
    · rw [append_of_ne ha hb, leaves]

theorem leaves_many : (many p).leaves = p.leaves := by
  cases p <;> rfl

theorem leaves_either_subset : (either l r).leaves ⊆ l.leaves ++ r.leaves := by
  by_cases h : l = r
  · rw [h, either_self]
    exact List.subset_append_left _ _
  · rw [either_of_ne h]
    exact List.Subset.refl _

/-- Dropping shadowed bindings brings in no sets. -/
theorem mem_leaves_of_stripUnder {s : CharSet} (h : s ∈ (p.stripUnder enclosing).leaves) :
    s ∈ p.leaves := by
  induction p generalizing enclosing with
  | epsilon | eof | chars _ => exact h
  | alt l r ihl ihr =>
      rw [Pattern.stripUnder] at h
      split at h
      · exact List.mem_append.2 ((List.mem_append.1 (leaves_either_subset h)).imp ihl ihr)
      · exact h
  | seq a b iha ihb =>
      rw [Pattern.stripUnder] at h
      split at h
      · rw [leaves_append] at h
        exact List.mem_append.2 ((List.mem_append.1 h).imp iha ihb)
      · exact h
  | star p ih =>
      rw [Pattern.stripUnder] at h
      split at h
      · rw [leaves_many] at h
        exact ih h
      · exact h
  | bind name p ih =>
      rw [Pattern.stripUnder] at h
      split at h
      · exact ih h
      · exact ih h

theorem mem_leaves_of_withoutShadowed {s : CharSet} (h : s ∈ p.withoutShadowed.leaves) :
    s ∈ p.leaves := by
  rw [withoutShadowed_eq] at h
  exact mem_leaves_of_stripUnder h

end Pattern

end LexTags
