import Mathlib.Data.List.Basic
import LexTags.Proofs.Agreement
import LexTags.Proofs.Sweep

/-!
# What is matched when tags are left out

A layout drops the tags that it can place by other means, and with them their nodes. To the
relation this makes no difference, but the matcher is sensitive to it behind the end of the
input, where a tag is crossed and a sequence of two tags is not. So a clause that did not
match there may match once its tags are gone.

Among the outcomes that have not reached the end of the input nothing of the kind can happen:
leaving tags out of the sequence only forgets their crossings. What becomes of the others is
decided at the end of the clause, where a stretch of tags may stand behind something that can
end there. The tail is clear if there is none.
-/

namespace LexTags

open Layout (Pruned)

namespace Outcome

variable {gone : List Boundary} {heads : List Outcome} {tails tails' : Nat → List Outcome}
  {o head tail : Outcome} {i : Nat}

/-- The outcome without the crossings of some boundaries. -/
def without (gone : List Boundary) (o : Outcome) : Outcome :=
  { o with crossed := fun b => if b ∈ gone then none else o.crossed b }

/-- The outcomes that have not reached the end of the input. -/
def pending (os : List Outcome) : List Outcome := os.filter fun o => !o.reachedEof

theorem without_eq_self (h : ∀ b ∈ gone, o.crossed b = none) : o.without gone = o := by
  refine ext' rfl rfl fun b => ?_
  show (if b ∈ gone then none else o.crossed b) = o.crossed b
  split
  · next hb => exact (h b hb).symm
  · rfl

theorem without_followedBy :
    (head.followedBy tail).without gone = (head.without gone).followedBy (tail.without gone) := by
  refine ext' rfl rfl fun b => ?_
  show (if b ∈ gone then none else _) = (if b ∈ gone then none else _).or
    (if b ∈ gone then none else _)
  split <;> rfl

theorem without_cross_of_mem {b : Boundary} (hb : b ∈ gone) :
    (o.cross b).without gone = o.without gone := by
  refine ext' rfl rfl fun b' => ?_
  show (if b' ∈ gone then none else if b' = b then some o.stop else o.crossed b') =
    if b' ∈ gone then none else o.crossed b'
  by_cases hb' : b' = b
  · rw [hb', if_pos hb, if_pos hb]
  · rw [if_neg hb']

theorem without_cross_of_notMem {b : Boundary} (hb : b ∉ gone) :
    (o.cross b).without gone = (o.without gone).cross b := by
  refine ext' rfl rfl fun b' => ?_
  show (if b' ∈ gone then none else if b' = b then some o.stop else o.crossed b') =
    if b' = b then some o.stop else if b' ∈ gone then none else o.crossed b'
  by_cases hb' : b' = b
  · rw [hb', if_neg hb, if_pos rfl, if_pos rfl]
  · rw [if_neg hb', if_neg hb']

theorem bare_followedBy : (bare i false).followedBy tail = tail :=
  ext' rfl rfl fun _ => Option.or_none

theorem followedBy_bare : head.followedBy (bare head.stop head.reachedEof) = head :=
  ext' rfl rfl fun _ => rfl

theorem thenAll_congr (h : ∀ o ∈ heads, tails o.stop = tails' o.stop) :
    thenAll heads tails = thenAll heads tails' := by
  refine List.flatMap_congr fun o ho => ?_
  rw [h o ho]

theorem map_without_thenAll :
    (thenAll heads tails).map (without gone) =
      thenAll (heads.map (without gone)) fun j => (tails j).map (without gone) := by
  rw [thenAll, thenAll, List.map_flatMap, List.flatMap_map]
  refine List.flatMap_congr fun o _ => ?_
  show List.map _ (if o.reachedEof then _ else _) = if o.reachedEof then _ else _
  split
  · rfl
  · rw [List.map_map, List.map_map]
    exact List.map_congr_left fun _ _ => without_followedBy

/-- Outcomes at the end of the input are not continued. -/
theorem thenAll_pending : thenAll (pending heads) tails = thenAll heads tails := by
  induction heads with
  | nil => rfl
  | cons o heads ih =>
      rw [thenAll, thenAll, pending] at *
      cases ho : o.reachedEof with
      | true =>
          rw [List.filter_cons_of_neg (by simp [ho]), List.flatMap_cons, ih, ho]
          rfl
      | false =>
          rw [List.filter_cons_of_pos (by simp [ho]), List.flatMap_cons, List.flatMap_cons, ih]

theorem map_without_pending :
    (pending heads).map (without gone) = pending (heads.map (without gone)) := by
  rw [pending, pending, List.filter_map]
  rfl

theorem thenAll_bare : thenAll [bare i false] tails = tails i := by
  rw [thenAll, List.flatMap_singleton]
  show (tails i).map _ = tails i
  exact (List.map_congr_left fun _ _ => bare_followedBy).trans (List.map_id _)

theorem thenAll_pending_bare :
    thenAll (pending heads) (fun j => [bare j false]) = pending heads := by
  rw [thenAll]
  refine Eq.trans (List.flatMap_congr fun o ho => ?_) (List.flatMap_singleton' _)
  have heof : o.reachedEof = false := by simpa [pending] using (List.mem_filter.1 ho).2
  show (if o.reachedEof then [] else [o.followedBy (bare o.stop false)]) = [o]
  rw [if_neg (by simp [heof]), ← heof, followedBy_bare]

theorem pending_eq_self (h : ∀ o ∈ heads, o.reachedEof = false) : pending heads = heads := by
  refine List.filter_eq_self.2 fun o ho => ?_
  simp [h o ho]

end Outcome

namespace Tagged

/-! ## Tests on the end of a clause -/

/-- Nothing but zero-width marks, in a row. -/
def hollow : Tagged → Bool
  | epsilon => true
  | tag _ => true
  | action _ => true
  | seq a b => a.hollow && b.hollow
  | _ => false

/-- Some match may end with the end of the input behind it. -/
def endsAtEof : Tagged → Bool
  | eof _ => true
  | alt l r => l.endsAtEof || r.endsAtEof
  | seq a b => b.endsAtEof || (b.hollow && a.endsAtEof)
  | star p => p.endsAtEof
  | _ => false

/-- At its end, the sequence has no stretch of marks behind what can end at the end of the
input; a single tag there does no harm. -/
def tailClear : Tagged → Bool
  | seq a (tag _) => a.tailClear
  | seq a b => if b.hollow then !a.endsAtEof else b.tailClear
  | _ => true

variable {pool : Pool} {text : Array CodeUnit} {action : Nat} {p a b t t' : Tagged} {i : Nat}
  {gone : List Boundary}

theorem tailClear_seq (hb : ∀ x, b ≠ tag x) :
    (seq a b).tailClear = if b.hollow then !a.endsAtEof else b.tailClear := by
  rw [tailClear]
  exact hb

theorem hollow_append : (a ++ b).hollow = (a.hollow && b.hollow) := by
  by_cases ha : a = epsilon
  · rw [ha, epsilon_append]
    rfl
  · by_cases hb : b = epsilon
    · rw [hb, append_epsilon]
      exact (Bool.and_true _).symm
    · rw [append_of_ne ha hb, hollow]

theorem endsAtEof_append :
    (a ++ b).endsAtEof = (b.endsAtEof || (b.hollow && a.endsAtEof)) := by
  by_cases ha : a = epsilon
  · rw [ha, epsilon_append]
    show b.endsAtEof = (b.endsAtEof || (b.hollow && false))
    rw [Bool.and_false, Bool.or_false]
  · by_cases hb : b = epsilon
    · rw [hb, append_epsilon]
      rfl
    · rw [append_of_ne ha hb, endsAtEof]

theorem endsAtEof_of_hollow (h : p.hollow = true) : p.endsAtEof = false := by
  induction p with
  | epsilon | tag _ | action _ => rfl
  | seq a b iha ihb =>
      rw [hollow, Bool.and_eq_true] at h
      rw [endsAtEof, iha h.1, ihb h.2]
      simp
  | chars _ | eof _ | alt _ _ _ _ | star _ _ => cases h

theorem isMark_eq_false (h : p.hollow = false) : p.isMark = false := by
  cases p with
  | tag _ | action _ => cases h
  | _ => rfl

theorem tags_of_pruned (h : Pruned gone t t') : ∀ x ∈ t'.tags, x ∈ t.tags := by
  induction h with
  | same p => exact fun x hx => hx
  | tag _ => exact fun x hx => nomatch hx
  | seq _ _ iha ihb =>
      intro x hx
      rw [tags_append] at hx
      rcases List.mem_append.1 hx with ha | hb
      · exact List.mem_append_left _ (iha x ha)
      · exact List.mem_append_right _ (ihb x hb)

theorem hasActions_of_pruned (h : Pruned gone t t') : t'.hasActions = t.hasActions := by
  induction h with
  | same p => rfl
  | tag _ => rfl
  | seq _ _ iha ihb => rw [hasActions_append, iha, ihb, hasActions]

theorem hollow_of_pruned (h : Pruned gone t t') : t'.hollow = t.hollow := by
  induction h with
  | same p => rfl
  | tag _ => rfl
  | seq _ _ iha ihb => rw [hollow_append, iha, ihb, hollow]

theorem endsAtEof_of_pruned (h : Pruned gone t t') : t'.endsAtEof = t.endsAtEof := by
  induction h with
  | same p => rfl
  | tag _ => rfl
  | seq _ hb iha ihb => rw [endsAtEof_append, iha, ihb, hollow_of_pruned hb, endsAtEof]

/-- Behind the end of the input a match is that of a mark, and stays there. -/
theorem reachedEof_of_mem_matchesFrom {m : Match Tag Nat}
    (h : m ∈ p.matchesFrom pool text i true) : p.isMark = true ∧ m.reachedEof = true := by
  have hmark : p.isMark = true := Decidable.byContradiction fun hne => by
    rw [matchesFrom_of_not_isMark (Bool.eq_false_iff.2 hne)] at h
    cases h
  refine ⟨hmark, ?_⟩
  unfold matchesFrom at h
  have h := mem_of_mem_ite (mem_of_mem_ite h)
  cases p with
  | tag _ | action _ =>
      obtain rfl := List.mem_singleton.1 h
      rfl
  | _ => cases hmark

theorem reachedEof_of_mem_followed {m : Match Tag Nat} {heads : List (Match Tag Nat)}
    (ha : ∀ head ∈ heads, head.reachedEof = true → b.isMark = false)
    (hb : ∀ j, ∀ m ∈ b.matchesFrom pool text j false, m.reachedEof = false)
    (h : m ∈ followed heads (b.matchesFrom pool text)) : m.reachedEof = false := by
  obtain ⟨head, hhead, hm⟩ := List.mem_flatMap.1 h
  obtain ⟨tail, htail, rfl⟩ := List.mem_map.1 hm
  show tail.reachedEof = false
  cases heof : head.reachedEof with
  | false =>
      rw [heof] at htail
      exact hb _ _ htail
  | true =>
      rw [heof] at htail
      have hmark := (reachedEof_of_mem_matchesFrom htail).1
      rw [ha head hhead heof] at hmark
      cases hmark

/-- What cannot end at the end of the input does not reach it. -/
theorem not_reachedEof_of_mem_matchesFrom (p : Tagged) (hp : p.endsAtEof = false)
    {m : Match Tag Nat} (h : m ∈ p.matchesFrom pool text i false) : m.reachedEof = false := by
  induction p generalizing i m with
  | eof _ => cases hp
  | epsilon | tag _ | action _ =>
      rw [matchesFrom] at h
      obtain rfl := List.mem_singleton.1 (mem_of_mem_ite (mem_of_mem_ite h))
      rfl
  | chars id =>
      rw [matchesFrom] at h
      have h := mem_of_mem_ite (mem_of_mem_ite h)
      split at h
      · split at h
        · obtain rfl := List.mem_singleton.1 h
          rfl
        · cases h
      · cases h
  | alt l r ihl ihr =>
      rw [endsAtEof, Bool.or_eq_false_iff] at hp
      rw [matchesFrom] at h
      rcases List.mem_append.1 (mem_of_mem_ite (mem_of_mem_ite h)) with hl | hr
      · exact ihl hp.1 hl
      · exact ihr hp.2 hr
  | seq a b iha ihb =>
      rw [endsAtEof, Bool.or_eq_false_iff, Bool.and_eq_false_iff] at hp
      obtain ⟨hb, hor⟩ := hp
      rw [matchesFrom] at h
      refine reachedEof_of_mem_followed (fun head hhead heof => ?_) (fun j m hm => ihb hb hm)
        (mem_of_mem_ite (mem_of_mem_ite h))
      rcases hor with hhollow | ha
      · exact isMark_eq_false hhollow
      · rw [iha ha hhead] at heof
        cases heof
  | star q ih =>
      rw [matchesFrom] at h
      have h := mem_of_mem_ite (mem_of_mem_ite h)
      rcases List.mem_append.1 h with hhead | htwice
      · rcases List.mem_cons.1 hhead with rfl | honce
        · rfl
        · exact ih hp honce
      · refine reachedEof_of_mem_followed (fun head hhead heof => ?_) (fun j m hm => ih hp hm)
          (mem_of_mem_ite htwice)
        rw [ih hp hhead] at heof
        cases heof

theorem not_reachedEof_of_mem_outcomes (hp : p.endsAtEof = false) {o : Outcome}
    (ho : o ∈ p.outcomes pool action text i) : o.reachedEof = false := by
  obtain ⟨m, hm, rfl⟩ := List.mem_map.1 ho
  exact not_reachedEof_of_mem_matchesFrom p hp hm

/-! ## Short of the end of the input -/

theorem pending_outcomes_seq (hi : i ≤ text.size) :
    Outcome.pending ((seq a b).outcomes pool action text i) =
      Outcome.thenAll (Outcome.pending (a.outcomes pool action text i))
        fun j => Outcome.pending (b.outcomes pool action text j) := by
  rw [Outcome.thenAll_pending, outcomes, matchesFrom_seq hi, followed, List.map_flatMap,
    Outcome.pending, List.filter_flatMap, outcomes, Outcome.thenAll, List.flatMap_map]
  refine List.flatMap_congr fun head _ => ?_
  show List.filter _ (List.map _ (List.map _ (b.matchesFrom pool text head.stop head.reachedEof)))
    = if head.reachedEof then _ else _
  cases heof : head.reachedEof with
  | true =>
      refine List.filter_eq_nil_iff.2 fun o ho => ?_
      rw [List.map_map] at ho
      obtain ⟨tail, htail, rfl⟩ := List.mem_map.1 ho
      have heof' := (reachedEof_of_mem_matchesFrom htail).2
      show ¬(!tail.reachedEof) = true
      rw [heof']
      simp
  | false =>
      rw [if_neg Bool.false_ne_true, Outcome.pending, outcomes, List.map_map, List.filter_map,
        List.filter_map, List.map_map]
      refine List.map_congr_left fun tail _ => ?_
      exact outcome_followedBy head tail

theorem pending_outcomes_append (hi : i ≤ text.size) :
    Outcome.pending ((a ++ b).outcomes pool action text i) =
      Outcome.thenAll (Outcome.pending (a.outcomes pool action text i))
        fun j => Outcome.pending (b.outcomes pool action text j) := by
  by_cases ha : a = epsilon
  · rw [ha, epsilon_append, outcomes_epsilon, Outcome.thenAll_pending, Outcome.thenAll_bare]
  · by_cases hb : b = epsilon
    · rw [hb, append_epsilon]
      refine Eq.trans Outcome.thenAll_pending_bare.symm (Outcome.thenAll_congr fun o _ => ?_)
      rw [outcomes_epsilon]
      rfl
    · rw [append_of_ne ha hb, pending_outcomes_seq hi]

theorem map_without_outcomes (hi : i ≤ text.size) (hkept : ∀ x ∈ p.tags, x.boundary ∉ gone) :
    (p.outcomes pool action text i).map (Outcome.without gone) =
      p.outcomes pool action text i := by
  refine (List.map_congr_left fun o ho => ?_).trans (List.map_id _)
  refine Outcome.without_eq_self fun b hb => ?_
  exact crossed_eq_none hi ho fun x hx hxb => hkept x hx (hxb ▸ hb)

/-- Short of the end of the input, leaving tags out only forgets their crossings. -/
theorem pending_outcomes_of_pruned (h : Pruned gone t t')
    (haction : ∀ x ∈ t.tags, x.action = action) (hkept : ∀ x ∈ t'.tags, x.boundary ∉ gone)
    (hi : i ≤ text.size) :
    Outcome.pending (t'.outcomes pool action text i) =
      (Outcome.pending (t.outcomes pool action text i)).map (Outcome.without gone) := by
  induction h generalizing i with
  | same p => rw [Outcome.map_without_pending, map_without_outcomes hi hkept]
  | @tag t ht =>
      obtain ⟨b, k⟩ := t
      obtain rfl : k = action := haction _ (List.mem_singleton_self _)
      rw [outcomes_epsilon, outcomes_tag, Outcome.map_without_pending]
      show Outcome.pending [_] = Outcome.pending [Outcome.without gone _]
      rw [Outcome.without_cross_of_mem ht, Outcome.without_eq_self fun _ _ => rfl]
  | @seq a b a' b' _ _ iha ihb =>
      rw [tags_append] at hkept
      have ha := iha (fun x hx => haction x (List.mem_append_left _ hx))
        (fun x hx => hkept x (List.mem_append_left _ hx)) hi
      rw [pending_outcomes_append hi, pending_outcomes_seq hi, ha, Outcome.map_without_thenAll]
      refine Outcome.thenAll_congr fun o ho => ?_
      obtain ⟨o', ho', rfl⟩ := List.mem_map.1 ho
      exact ihb (fun x hx => haction x (List.mem_append_right _ hx))
        (fun x hx => hkept x (List.mem_append_right _ hx))
        (@stop_le_of_mem_outcomes pool text action a i o' hi (List.mem_filter.1 ho').1)

end Tagged

end LexTags
