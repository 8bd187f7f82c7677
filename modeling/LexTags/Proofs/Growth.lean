import LexTags.Proofs.Pruning

/-!
# What leaving tags out adds

Behind the end of the input the matcher crosses a tag, but not a sequence of two. So while no
match is lost when tags are left out, some may be added: where a stretch of tags has come down
to one or to none, it no longer stands in the way of a match that has reached the end of the
input. All that is added has reached it, so a search that comes up with anything else comes up
with the same as before.

Nothing is added where no stretch of tags comes down that far behind something that can end at
the end of the input. This is `tailKept`, and it holds of a clause with a clear tail whatever is
left out.
-/

namespace LexTags

open Layout (Pruned)

namespace Outcome

/-- The second list has the outcomes of the first in order, and in between, if there are `late`
ones, others that have reached the end of the input. -/
inductive Grown (late : Prop) : List Outcome → List Outcome → Prop
  | nil : Grown late [] []
  | keep {xs ys : List Outcome} (o : Outcome) (h : Grown late xs ys) :
      Grown late (o :: xs) (o :: ys)
  | late {xs ys : List Outcome} (o : Outcome) (hlate : late) (ho : o.reachedEof = true)
      (h : Grown late xs ys) : Grown late xs (o :: ys)

variable {late : Prop} {xs ys xs' ys' heads : List Outcome} {tails tails' : Nat → List Outcome}

theorem Grown.refl (xs : List Outcome) : Grown late xs xs := by
  induction xs with
  | nil => exact .nil
  | cons o xs ih => exact .keep o ih

theorem Grown.eq_of_not (h : Grown late xs ys) (hlate : ¬late) : xs = ys := by
  induction h with
  | nil => rfl
  | keep o _ ih => rw [ih]
  | late _ hl _ _ _ => exact absurd hl hlate

theorem Grown.append (h : Grown late xs ys) (h' : Grown late xs' ys') :
    Grown late (xs ++ xs') (ys ++ ys') := by
  induction h with
  | nil => exact h'
  | keep o _ ih => exact .keep o ih
  | late o hlate ho _ ih => exact .late o hlate ho ih

theorem Grown.map {f : Outcome → Outcome} (hf : ∀ o, (f o).reachedEof = o.reachedEof)
    (h : Grown late xs ys) : Grown late (xs.map f) (ys.map f) := by
  induction h with
  | nil => exact .nil
  | keep o _ ih => exact .keep (f o) ih
  | late o hlate ho _ ih => exact .late (f o) hlate ((hf o).trans ho) ih

theorem Grown.thenAll (h : ∀ o ∈ heads, Grown late (tails o.stop) (tails' o.stop)) :
    Grown late (thenAll heads tails) (thenAll heads tails') := by
  induction heads with
  | nil => exact .nil
  | cons o heads ih =>
      refine Grown.append ?_ (ih fun o' ho' => h o' (List.mem_cons_of_mem _ ho'))
      show Grown late (if o.reachedEof then _ else _) (if o.reachedEof then _ else _)
      split
      · exact .nil
      · exact (h o List.mem_cons_self).map fun _ => rfl

/-- A list has grown from the outcomes in it that have not reached the end of the input. -/
theorem Grown.pending (h : ∀ o ∈ ys, o.reachedEof = true → late) :
    Grown late (pending ys) ys := by
  induction ys with
  | nil => exact .nil
  | cons o ys ih =>
      have hrest := ih fun o' ho' => h o' (List.mem_cons_of_mem _ ho')
      rw [Outcome.pending] at *
      cases ho : o.reachedEof with
      | true =>
          rw [List.filter_cons_of_neg (by simp [ho])]
          exact .late o (h o List.mem_cons_self ho) ho hrest
      | false =>
          rw [List.filter_cons_of_pos (by simp [ho])]
          exact .keep o hrest

/-- No outcome is lost. -/
theorem Grown.subset (h : Grown late xs ys) : ∀ o ∈ xs, o ∈ ys := by
  induction h with
  | nil => exact fun _ ho => ho
  | keep o _ ih =>
      intro o' ho'
      exact List.mem_cons.2 ((List.mem_cons.1 ho').imp_right (ih o'))
  | late _ _ _ _ ih => exact fun o' ho' => List.mem_cons_of_mem _ (ih o' ho')

/-- A search that finds nothing at the end of the input finds what it did before. -/
theorem Grown.find? {q : Outcome → Bool} (h : Grown late xs ys)
    (hfirst : ∀ o, ys.find? q = some o → o.reachedEof = false) :
    ys.find? q = xs.find? q := by
  induction h with
  | nil => rfl
  | keep o _ ih =>
      cases hq : q o with
      | true => rw [List.find?_cons_of_pos hq, List.find?_cons_of_pos hq]
      | false =>
          have hskip : ¬q o = true := by simp [hq]
          rw [List.find?_cons_of_neg hskip] at hfirst
          rw [List.find?_cons_of_neg hskip, List.find?_cons_of_neg hskip, ih hfirst]
  | late o _ ho _ ih =>
      cases hq : q o with
      | true =>
          have heof := hfirst o (List.find?_cons_of_pos hq)
          rw [ho] at heof
          cases heof
      | false =>
          have hskip : ¬q o = true := by simp [hq]
          rw [List.find?_cons_of_neg hskip] at hfirst
          rw [List.find?_cons_of_neg hskip, ih hfirst]

end Outcome

open Outcome (Grown)

namespace Tagged

/-- At the end of the sequence, no stretch of marks behind what can end at the end of the input
comes down to less than two tags if only the given ones are kept. -/
def tailKept (kept : List Tag) : Tagged → Bool
  | seq a (tag _) => a.tailKept kept
  | seq a b =>
      if b.hollow then !a.endsAtEof || 2 ≤ (b.tags.filter (· ∈ kept)).length
      else b.tailKept kept
  | _ => true

variable {pool : Pool} {text : Array CodeUnit} {action : Nat} {p a b t t' : Tagged} {i : Nat}
  {gone : List Boundary} {kept : List Tag} {late : Prop}

theorem tailKept_seq (hb : ∀ x, b ≠ tag x) :
    (seq a b).tailKept kept =
      if b.hollow then !a.endsAtEof || 2 ≤ (b.tags.filter (· ∈ kept)).length
      else b.tailKept kept := by
  rw [tailKept]
  exact hb

/-- A clear tail is kept, whatever is left out. -/
theorem tailKept_of_tailClear (h : t.tailClear = true) : t.tailKept kept = true := by
  induction t with
  | epsilon | chars _ | eof _ | tag _ | action _ | alt _ _ _ _ | star _ _ => rfl
  | seq a b iha ihb =>
      by_cases hx : ∃ x, b = tag x
      · obtain ⟨x, rfl⟩ := hx
        exact iha h
      · have hb : ∀ x, b ≠ tag x := fun x hbx => hx ⟨x, hbx⟩
        rw [tailClear_seq hb] at h
        rw [tailKept_seq hb]
        cases hhollow : b.hollow with
        | true =>
            rw [hhollow, if_pos rfl] at h
            rw [if_pos rfl, h, Bool.true_or]
        | false =>
            rw [hhollow, if_neg Bool.false_ne_true] at h
            rw [if_neg Bool.false_ne_true, ihb h]

/-- The tags that are not left out are still there. -/
theorem length_filter_le_of_pruned (h : Pruned gone t t') (hgone : ∀ x ∈ kept, x.boundary ∉ gone) :
    (t.tags.filter (· ∈ kept)).length ≤ t'.tags.length := by
  induction h with
  | same p => exact List.length_filter_le _ _
  | @tag x hx =>
      have hnot : x ∉ kept := fun hmem => hgone x hmem hx
      simp [tags, hnot]
  | seq _ _ iha ihb =>
      rw [tags_append, tags, List.filter_append, List.length_append, List.length_append]
      exact Nat.add_le_add iha ihb

theorem isMark_of_two_tags (h : 2 ≤ t.tags.length) : t.isMark = false := by
  cases t with
  | tag _ => exact absurd h (by decide : ¬2 ≤ 1)
  | action _ => exact absurd h (by decide : ¬2 ≤ 0)
  | _ => rfl

/-- A stretch of marks that is no mark itself is not crossed behind the end of the input. -/
theorem not_reachedEof_of_hollow (hb : b.hollow = true) (hmark : b.isMark = false)
    (hi : i ≤ text.size) {o : Outcome} (ho : o ∈ (seq a b).outcomes pool action text i) :
    o.reachedEof = false := by
  obtain ⟨m, hm, rfl⟩ := List.mem_map.1 ho
  rw [matchesFrom_seq hi] at hm
  exact reachedEof_of_mem_followed (fun _ _ _ => hmark)
    (fun j m hm => not_reachedEof_of_mem_matchesFrom b (endsAtEof_of_hollow hb) hm) hm

theorem isMark_of_hollow (hb : b.hollow = true) (hactions : b.hasActions = false)
    (hx : ∀ x, b ≠ tag x) : b.isMark = false := by
  cases b with
  | tag x => exact absurd rfl (hx x)
  | action _ => cases hactions
  | _ => rfl

/-- A tag behind a sequence is crossed or forgotten. -/
theorem grown_of_pruned_seq_tag {x : Tag} {a' b' : Tagged} (hb : Pruned gone (tag x) b')
    (hx : x.action = action) (hgone : ∀ y ∈ b'.tags, y.boundary ∉ gone) (hi : i ≤ text.size)
    (ha : Grown late ((a.outcomes pool action text i).map (Outcome.without gone))
      (a'.outcomes pool action text i)) :
    Grown late (((seq a (tag x)).outcomes pool action text i).map (Outcome.without gone))
      ((a' ++ b').outcomes pool action text i) := by
  obtain ⟨o, k⟩ := x
  obtain rfl : k = action := hx
  rw [outcomes_seq_tag hi, List.map_map]
  cases hb with
  | same =>
      have ho : o ∉ gone := hgone ⟨o, k⟩ (List.mem_singleton_self _)
      have hcross := ha.map (f := Outcome.cross o) fun _ => rfl
      rw [List.map_map] at hcross
      rw [Pattern.outcomes_append_tag hi]
      refine Eq.subst (motive := fun xs => Grown late xs _) ?_ hcross
      exact List.map_congr_left fun _ _ => (Outcome.without_cross_of_notMem ho).symm
  | tag ho =>
      rw [append_epsilon]
      refine Eq.subst (motive := fun xs => Grown late xs _) ?_ ha
      exact List.map_congr_left fun _ _ => (Outcome.without_cross_of_mem ho).symm

/-- What is left of a stretch of marks that is kept holds up what it did before. -/
theorem not_reachedEof_of_tailKept {a' b' : Tagged} (ha : Pruned gone a a')
    (hb : Pruned gone b b') (hhollow : b.hollow = true) (hx : ∀ x, b ≠ tag x)
    (hgone : ∀ x ∈ kept, x.boundary ∉ gone) (hkept : (seq a b).tailKept kept = true)
    (hi : i ≤ text.size) {o : Outcome} (ho : o ∈ (a' ++ b').outcomes pool action text i) :
    o.reachedEof = false := by
  have hhollow' : b'.hollow = true := (hollow_of_pruned hb).trans hhollow
  have hends' := endsAtEof_of_hollow hhollow'
  rw [tailKept_seq hx, hhollow, if_pos rfl, Bool.or_eq_true, Bool.not_eq_true',
    decide_eq_true_iff] at hkept
  rcases hkept with hends | htwo
  · refine not_reachedEof_of_mem_outcomes ?_ ho
    rw [endsAtEof_append, hends', endsAtEof_of_pruned ha, hends, Bool.and_false, Bool.or_false]
  · have htwo' := Nat.le_trans htwo (length_filter_le_of_pruned hb hgone)
    by_cases hae : a' = epsilon
    · rw [hae, epsilon_append] at ho
      exact not_reachedEof_of_mem_outcomes hends' ho
    · have hbe : b' ≠ epsilon := by
        rintro rfl
        exact absurd htwo' (by decide : ¬2 ≤ 0)
      rw [append_of_ne hae hbe] at ho
      exact not_reachedEof_of_hollow hhollow' (isMark_of_two_tags htwo') hi ho

/-- A stretch of marks lets outcomes through that it has held up, unless it is kept. -/
theorem grown_of_pruned_seq_hollow {a' b' : Tagged} (ha : Pruned gone a a')
    (hb : Pruned gone b b') (hhollow : b.hollow = true) (hx : ∀ x, b ≠ tag x)
    (hactions : b.hasActions = false) (haction : ∀ x ∈ (seq a b).tags, x.action = action)
    (hleft : ∀ x ∈ (a' ++ b').tags, x.boundary ∉ gone) (hgone : ∀ x ∈ kept, x.boundary ∉ gone)
    (hi : i ≤ text.size) :
    Grown ((seq a b).tailKept kept = false)
      (((seq a b).outcomes pool action text i).map (Outcome.without gone))
      ((a' ++ b').outcomes pool action text i) := by
  have hmark := isMark_of_hollow hhollow hactions hx
  have hheld : Outcome.pending ((seq a b).outcomes pool action text i) =
      (seq a b).outcomes pool action text i :=
    Outcome.pending_eq_self fun _ ho => not_reachedEof_of_hollow hhollow hmark hi ho
  rw [← hheld, ← pending_outcomes_of_pruned (.seq ha hb) haction hleft hi]
  refine Grown.pending fun o ho heof => Bool.eq_false_iff.2 fun htail => ?_
  rw [not_reachedEof_of_tailKept ha hb hhollow hx hgone htail hi ho] at heof
  cases heof

theorem outcomes_append (hb : b.isMark = false) (hi : i ≤ text.size) (hne : b ≠ epsilon) :
    (a ++ b).outcomes pool action text i =
      Outcome.thenAll (a.outcomes pool action text i) (b.outcomes pool action text) := by
  by_cases ha : a = epsilon
  · rw [ha, epsilon_append, outcomes_epsilon, Outcome.thenAll_bare]
  · rw [append_of_ne ha hne, outcomes_seq hb hi]

/-- What is not crossed behind the end of the input goes on from the same heads, as those that
are not pending do not count. -/
theorem grown_of_pruned_seq_solid {a' b' : Tagged} (ha : Pruned gone a a')
    (hb : Pruned gone b b') (hsolid : b.hollow = false) (haction : ∀ x ∈ a.tags, x.action = action)
    (hleft : ∀ x ∈ a'.tags, x.boundary ∉ gone) (hi : i ≤ text.size)
    (hrest : ∀ j ≤ text.size, Grown late ((b.outcomes pool action text j).map
      (Outcome.without gone)) (b'.outcomes pool action text j)) :
    Grown late (((seq a b).outcomes pool action text i).map (Outcome.without gone))
      ((a' ++ b').outcomes pool action text i) := by
  have hsolid' : b'.hollow = false := (hollow_of_pruned hb).trans hsolid
  have hne : b' ≠ epsilon := by
    rintro rfl
    cases hsolid'
  have hheads := @pending_outcomes_of_pruned pool text _ _ _ _ _ ha haction hleft hi
  rw [outcomes_append (isMark_eq_false hsolid') hi hne, outcomes_seq (isMark_eq_false hsolid) hi,
    ← @Outcome.thenAll_pending (a'.outcomes pool action text i), hheads,
    ← @Outcome.thenAll_pending (a.outcomes pool action text i), Outcome.map_without_thenAll]
  refine Grown.thenAll fun o ho => ?_
  obtain ⟨o', ho', rfl⟩ := List.mem_map.1 ho
  exact hrest _ (@stop_le_of_mem_outcomes pool text action a i o' hi (List.mem_filter.1 ho').1)

/-- Leaving tags out forgets their crossings, and adds nothing but outcomes that have reached
the end of the input, and none if the tail is kept. -/
theorem grown_outcomes_of_pruned (h : Pruned gone t t') (hactions : t.hasActions = false)
    (haction : ∀ x ∈ t.tags, x.action = action) (hsub : ∀ x ∈ t'.tags, x ∈ kept)
    (hgone : ∀ x ∈ kept, x.boundary ∉ gone) (hi : i ≤ text.size) :
    Grown (t.tailKept kept = false) ((t.outcomes pool action text i).map (Outcome.without gone))
      (t'.outcomes pool action text i) := by
  induction h generalizing i with
  | same p =>
      rw [map_without_outcomes hi fun x hx => hgone x (hsub x hx)]
      exact .refl _
  | @tag x hx =>
      obtain ⟨o, k⟩ := x
      obtain rfl : k = action := haction _ (List.mem_singleton_self _)
      rw [outcomes_epsilon, outcomes_tag, List.map_singleton, Outcome.without_cross_of_mem hx,
        Outcome.without_eq_self fun _ _ => rfl]
      exact .refl _
  | @seq a b a' b' ha hb iha ihb =>
      have hleft : ∀ x ∈ (a' ++ b').tags, x.boundary ∉ gone := fun x hx => hgone x (hsub x hx)
      rw [tags_append] at hsub
      rw [hasActions, Bool.or_eq_false_iff] at hactions
      have hsuba : ∀ x ∈ a'.tags, x ∈ kept := fun x hx => hsub x (List.mem_append_left _ hx)
      have hsubb : ∀ x ∈ b'.tags, x ∈ kept := fun x hx => hsub x (List.mem_append_right _ hx)
      have hactiona : ∀ x ∈ a.tags, x.action = action := fun x hx =>
        haction x (List.mem_append_left _ hx)
      have hactionb : ∀ x ∈ b.tags, x.action = action := fun x hx =>
        haction x (List.mem_append_right _ hx)
      by_cases hx : ∃ x, b = tag x
      · obtain ⟨x, rfl⟩ := hx
        exact grown_of_pruned_seq_tag hb (hactionb x (List.mem_singleton_self x))
          (fun y hy => hgone y (hsubb y hy)) hi (iha hactions.1 hactiona hsuba hi)
      · have hx : ∀ x, b ≠ tag x := fun x hbx => hx ⟨x, hbx⟩
        cases hhollow : b.hollow with
        | true =>
            exact grown_of_pruned_seq_hollow ha hb hhollow hx hactions.2 haction hleft hgone hi
        | false =>
            rw [tailKept_seq hx, hhollow, if_neg Bool.false_ne_true]
            exact grown_of_pruned_seq_solid ha hb hhollow hactiona
              (fun x hx => hgone x (hsuba x hx)) hi fun j hj => ihb hactions.2 hactionb hsubb hj

/-- Where the tail is clear, leaving tags out only forgets their crossings. -/
theorem outcomes_of_pruned (h : Pruned gone t t') (hclear : t.tailClear = true)
    (hactions : t.hasActions = false) (haction : ∀ x ∈ t.tags, x.action = action)
    (hkept : ∀ x ∈ t'.tags, x.boundary ∉ gone) (hi : i ≤ text.size) :
    t'.outcomes pool action text i =
      (t.outcomes pool action text i).map (Outcome.without gone) := by
  have hgrown := @grown_outcomes_of_pruned pool text _ _ _ _ _ _ h hactions haction
    (fun _ hx => hx) hkept hi
  exact (hgrown.eq_of_not (by simp [tailKept_of_tailClear hclear])).symm

end Tagged

end LexTags
