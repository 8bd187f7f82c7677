import LexTags.Proofs.Reads

/-!
# The top-level sequence of an expression

The passes of the layout look at nothing but the sequence that an expression is at its top:
what stands in it one after the other, however the sequence nodes are nested, and whether or
not an empty expression stands between. That list is the spine. Two expressions with the
same spine have the same matches, so what a pass does can be followed on lists.

The tags on the spine are the ones that every match crosses, once. They are the open tags;
all others stand under an alternation or a repetition.
-/

namespace LexTags.Tagged

/-- What stands in the top-level sequence, from left to right. -/
def spine : Tagged → List Tagged
  | epsilon => []
  | seq a b => a.spine ++ b.spine
  | p => [p]

/-- The tags that stand under no alternation and no repetition, from left to right. -/
def openTags : Tagged → List Tag
  | tag t => [t]
  | seq a b => a.openTags ++ b.openTags
  | _ => []

variable {a b l r p : Tagged} {t : Tag}

theorem spine_append : (a ++ b).spine = a.spine ++ b.spine := by
  by_cases ha : a = epsilon
  · rw [ha, epsilon_append]
    rfl
  · by_cases hb : b = epsilon
    · rw [hb, append_epsilon]
      exact (List.append_nil _).symm
    · rw [append_of_ne ha hb, spine]

theorem tags_spine : p.spine.flatMap tags = p.tags := by
  induction p with
  | seq a b iha ihb => rw [spine, List.flatMap_append, iha, ihb, tags]
  | epsilon => rfl
  | _ => exact List.append_nil _

theorem tags_append : (a ++ b).tags = a.tags ++ b.tags := by
  rw [← tags_spine, spine_append, List.flatMap_append, tags_spine, tags_spine]

theorem mem_openTags_iff : t ∈ p.openTags ↔ tag t ∈ p.spine := by
  induction p with
  | seq a b iha ihb => rw [openTags, spine, List.mem_append, List.mem_append, iha, ihb]
  | tag s => simp [openTags, spine]
  | _ => simp [openTags, spine]

theorem mem_openTags_append : t ∈ (a ++ b).openTags ↔ t ∈ a.openTags ∨ t ∈ b.openTags := by
  rw [mem_openTags_iff, spine_append, List.mem_append, mem_openTags_iff, mem_openTags_iff]

theorem mem_tags_of_mem_openTags (h : t ∈ p.openTags) : t ∈ p.tags := by
  rw [← tags_spine]
  exact List.mem_flatMap.2 ⟨_, mem_openTags_iff.1 h, List.mem_singleton_self t⟩

theorem mem_tags_either : t ∈ (either l r).tags ↔ t ∈ l.tags ∨ t ∈ r.tags := by
  by_cases hlr : l = r
  · rw [hlr, either_self, or_self]
  · rw [either_of_ne hlr, tags, List.mem_append]

theorem tags_many : (many p).tags = p.tags := by
  cases p <;> rfl

theorem openTags_many : (many p).openTags = [] := by
  cases p <;> rfl

theorem hasActions_append : (a ++ b).hasActions = (a.hasActions || b.hasActions) := by
  by_cases ha : a = epsilon
  · rw [ha, epsilon_append]
    exact (Bool.false_or _).symm
  · by_cases hb : b = epsilon
    · rw [hb, append_epsilon]
      exact (Bool.or_false _).symm
    · rw [append_of_ne ha hb, hasActions]

theorem hasActions_either : (either l r).hasActions = (l.hasActions || r.hasActions) := by
  by_cases h : l = r
  · rw [h, either_self, Bool.or_self]
  · rw [either_of_ne h, hasActions]

theorem hasActions_many : (many p).hasActions = p.hasActions := by
  cases p <;> rfl

/-! ## Matching a list one by one -/

/-- The expressions match one after the other. -/
inductive ReadsAll (pool : Pool) (w : Text) :
    List Tagged → Nat → Nat → List (Tag × Nat) → Prop where
  | nil {i : Nat} (hi : i ≤ w.length) : ReadsAll pool w [] i i []
  | cons {x : Tagged} {xs : List Tagged} {i j k : Nat} {log rest : List (Tag × Nat)}
      (hx : Reads pool w x i j log) (hxs : ReadsAll pool w xs j k rest) :
      ReadsAll pool w (x :: xs) i k (log ++ rest)

variable {pool : Pool} {w : Text} {x : Tagged} {xs ys : List Tagged} {i j k : Nat}
  {log : List (Tag × Nat)}

theorem ReadsAll.bounds (h : ReadsAll pool w xs i j log) : i ≤ j ∧ j ≤ w.length := by
  induction h with
  | nil hi => exact ⟨Nat.le_refl _, hi⟩
  | cons hx _ ih => exact ⟨Nat.le_trans hx.bounds.1 ih.1, ih.2⟩

theorem readsAll_nil_iff :
    ReadsAll pool w [] i j log ↔ i = j ∧ log = [] ∧ i ≤ w.length := by
  refine ⟨fun h => ?_, ?_⟩
  · cases h with
    | nil hi => exact ⟨rfl, rfl, hi⟩
  · rintro ⟨rfl, rfl, hi⟩
    exact .nil hi

theorem readsAll_cons_iff :
    ReadsAll pool w (x :: xs) i k log ↔
      ∃ j first rest, Reads pool w x i j first ∧ ReadsAll pool w xs j k rest ∧
        log = first ++ rest := by
  refine ⟨fun h => ?_, ?_⟩
  · cases h with
    | cons hx hxs => exact ⟨_, _, _, hx, hxs, rfl⟩
  · rintro ⟨j, first, rest, hx, hxs, rfl⟩
    exact .cons hx hxs

theorem readsAll_append_iff :
    ReadsAll pool w (xs ++ ys) i k log ↔
      ∃ j first rest, ReadsAll pool w xs i j first ∧ ReadsAll pool w ys j k rest ∧
        log = first ++ rest := by
  induction xs generalizing i log with
  | nil =>
      refine ⟨fun h => ?_, ?_⟩
      · exact ⟨i, [], log, .nil (Nat.le_trans h.bounds.1 h.bounds.2), h, rfl⟩
      · rintro ⟨j, first, rest, hnil, hys, rfl⟩
        obtain ⟨rfl, rfl, -⟩ := readsAll_nil_iff.1 hnil
        exact hys
  | cons x xs ih =>
      rw [List.cons_append, readsAll_cons_iff]
      refine ⟨?_, ?_⟩
      · rintro ⟨m, first, rest, hx, hrest, rfl⟩
        obtain ⟨j, mid, last, hxs, hys, rfl⟩ := ih.1 hrest
        exact ⟨j, first ++ mid, last, .cons hx hxs, hys, (List.append_assoc ..).symm⟩
      · rintro ⟨j, first, rest, hxxs, hys, rfl⟩
        obtain ⟨m, first, mid, hx, hxs, rfl⟩ := readsAll_cons_iff.1 hxxs
        exact ⟨m, first, mid ++ rest, hx, ih.2 ⟨j, mid, rest, hxs, hys, rfl⟩,
          List.append_assoc ..⟩

theorem readsAll_singleton_iff :
    ReadsAll pool w [x] i j log ↔ Reads pool w x i j log := by
  rw [readsAll_cons_iff]
  refine ⟨?_, fun h => ?_⟩
  · rintro ⟨m, first, rest, hx, hnil, rfl⟩
    obtain ⟨rfl, rfl, -⟩ := readsAll_nil_iff.1 hnil
    rw [List.append_nil]
    exact hx
  · exact ⟨j, log, [], h, .nil h.bounds.2, (List.append_nil _).symm⟩

/-- An expression matches what its spine matches one by one. -/
theorem reads_iff_readsAll_spine :
    Reads pool w p i k log ↔ ReadsAll pool w p.spine i k log := by
  induction p generalizing i k log with
  | epsilon => rw [spine, reads_epsilon_iff, readsAll_nil_iff]
  | seq a b iha ihb =>
      rw [spine, reads_seq_iff, readsAll_append_iff]
      simp only [iha, ihb]
  | _ => exact readsAll_singleton_iff.symm

theorem ReadsAll.mem_tags (h : ReadsAll pool w xs i j log) {e : Tag × Nat} (he : e ∈ log) :
    e.1 ∈ xs.flatMap tags := by
  induction h with
  | nil _ => cases he
  | cons hx _ ih =>
      rw [List.flatMap_cons]
      rcases List.mem_append.1 he with hx' | hxs
      · exact List.mem_append_left _ (hx.mem_tags hx')
      · exact List.mem_append_right _ (ih hxs)

end LexTags.Tagged
