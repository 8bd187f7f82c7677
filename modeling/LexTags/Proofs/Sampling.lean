import LexTags.Certification
import LexTags.Proofs.Construction
import LexTags.Proofs.Agreement

/-!
# Samples are matched

The samples of a pattern and the matcher bound repetitions in the same way, so what is
sampled is also found: the matcher lists a match that takes exactly the text of the sample.
This holds wherever the sample may stand, and a sample that is closed may only stand at the
end of the text. The match has then reached the end of the input, and nothing is put behind
it, neither by the matcher nor in the sample of a sequence.
-/

namespace LexTags.Pattern

variable {charNames : OrderedSet String} {text : Array CodeUnit} {p a b : Pattern} {i : Nat}
  {limit : Nat} {w head tail : Witness}

/-- The text of the witness stands at a position, and at the end if it is closed. -/
def Witness.StandsAt (text : Array CodeUnit) (i : Nat) (w : Witness) : Prop :=
  ∃ before after, text.toList = before ++ (w.text ++ after) ∧ before.length = i ∧
    (w.closed = true → after = [])

theorem Witness.StandsAt.le (h : w.StandsAt text i) : i + w.text.length ≤ text.size := by
  obtain ⟨before, after, htext, rfl, -⟩ := h
  have hlength := congrArg List.length htext
  rw [Array.length_toList, List.length_append, List.length_append] at hlength
  omega

theorem Witness.StandsAt.left (h : (head.followedBy tail).StandsAt text i)
    (hopen : head.closed = false) : head.StandsAt text i := by
  obtain ⟨before, after, htext, hbefore, -⟩ := h
  refine ⟨before, tail.text ++ after, ?_, hbefore, fun hclosed => ?_⟩
  · rw [htext, Witness.followedBy, List.append_assoc]
  · rw [hopen] at hclosed
    cases hclosed

theorem Witness.StandsAt.right (h : (head.followedBy tail).StandsAt text i) :
    tail.StandsAt text (i + head.text.length) := by
  obtain ⟨before, after, htext, rfl, hclosed⟩ := h
  refine ⟨before ++ head.text, after, ?_, List.length_append, hclosed⟩
  rw [htext, Witness.followedBy, List.append_assoc, List.append_assoc]

/-- Some outcome takes the text of the witness. -/
def Takes (os : List Outcome) (i : Nat) (w : Witness) : Prop :=
  ∃ o ∈ os, o.stop = i + w.text.length ∧ o.reachedEof = w.closed

theorem Takes.mono {os os' : List Outcome} (h : Takes os i w) (hsub : ∀ o ∈ os, o ∈ os') :
    Takes os' i w := by
  obtain ⟨o, ho, hw⟩ := h
  exact ⟨o, hsub o ho, hw⟩

theorem Takes.thenAll {heads : List Outcome} {tails : Nat → List Outcome}
    (hhead : Takes heads i head) (hopen : head.closed = false)
    (htail : Takes (tails (i + head.text.length)) (i + head.text.length) tail) :
    Takes (Outcome.thenAll heads tails) i (head.followedBy tail) := by
  obtain ⟨o, ho, hstop, heof⟩ := hhead
  obtain ⟨o', ho', hstop', heof'⟩ := htail
  refine ⟨o.followedBy o', List.mem_flatMap.2 ⟨o, ho, ?_⟩, ?_, heof'⟩
  · rw [if_neg (by simp [heof, hopen]), hstop]
    exact List.mem_map_of_mem ho'
  · refine hstop'.trans ?_
    rw [Witness.followedBy, List.length_append, Nat.add_assoc]

/-- All continuations of the heads that are not closed, head by head. -/
def Witness.continuations (heads tails : List Witness) : List Witness :=
  heads.flatMap fun head => if head.closed then [] else tails.map head.followedBy

/-- A product is what the limit lets through of all continuations. -/
theorem product_eq_take (heads tails : List Witness) :
    Witness.product limit heads tails = (Witness.continuations heads tails).take limit := by
  induction heads generalizing limit with
  | nil => exact List.take_nil.symm
  | cons head heads ih =>
      rw [Witness.product, Witness.continuations, List.flatMap_cons]
      cases head.closed with
      | true => exact ih
      | false =>
          simp only [Bool.false_eq_true, if_false]
          rw [ih, List.take_append, List.map_take, List.length_take, List.length_map]
          -- Cutting the row first leaves as much of the limit for the rows behind it.
          congr 2
          omega

/-- A witness of a product is one of the heads, continued by one of the tails. -/
theorem mem_product {heads tails : List Witness} (h : w ∈ Witness.product limit heads tails) :
    ∃ head ∈ heads, head.closed = false ∧ ∃ tail ∈ tails, w = head.followedBy tail := by
  rw [product_eq_take] at h
  obtain ⟨head, hhead, hw⟩ := List.mem_flatMap.1 (List.mem_of_mem_take h)
  cases hclosed : head.closed with
  | true => simp [hclosed] at hw
  | false =>
      simp only [hclosed, Bool.false_eq_true, if_false] at hw
      obtain ⟨tail, htail, rfl⟩ := List.mem_map.1 hw
      exact ⟨head, hhead, hclosed, tail, htail, rfl⟩

/-- What is sampled for one part after the other is taken by one after the other. -/
theorem takes_of_mem_product {heads tails : List Witness}
    (ha : ∀ {i w}, w ∈ heads → w.StandsAt text i → Takes (a.outcomes charNames text i) i w)
    (hb : ∀ {i w}, w ∈ tails → w.StandsAt text i → Takes (b.outcomes charNames text i) i w)
    (hw : w ∈ Witness.product limit heads tails) (hat : w.StandsAt text i) :
    Takes (Outcome.thenAll (a.outcomes charNames text i) (b.outcomes charNames text)) i w := by
  obtain ⟨head, hhead, hopen, tail, htail, rfl⟩ := mem_product hw
  exact (ha hhead (hat.left hopen)).thenAll hopen (hb htail hat.right)

/-- A sample of a pattern is matched wherever it may stand. -/
theorem takes_of_mem_sample (p : Pattern) (hsets : ∀ s ∈ p.leaves, s.Canonical)
    (hw : w ∈ p.sample limit) (hat : w.StandsAt text i) :
    Takes (p.outcomes charNames text i) i w := by
  have hi : i ≤ text.size := Nat.le_trans (Nat.le_add_right _ _) hat.le
  induction p generalizing i w limit with
  | epsilon =>
      obtain rfl := List.mem_singleton.1 (List.mem_of_mem_take hw)
      rw [outcomes_epsilon]
      exact ⟨_, List.mem_singleton_self _, rfl, rfl⟩
  | eof =>
      obtain rfl := List.mem_singleton.1 (List.mem_of_mem_take hw)
      obtain ⟨before, after, htext, rfl, hclosed⟩ := hat
      have hend : before.length = text.size := by
        rw [← Array.length_toList, htext, hclosed rfl]
        simp
      rw [outcomes_eof, if_pos hend]
      exact ⟨_, List.mem_singleton_self _, rfl, rfl⟩
  | chars set =>
      obtain ⟨c, hc, rfl⟩ := List.mem_map.1 (List.mem_of_mem_take hw)
      obtain ⟨before, after, htext, rfl, -⟩ := hat
      have hcanonical := hsets set (List.mem_singleton_self set)
      have hset := (hcanonical.witness?_eq_some_iff.1 (Option.mem_toList.1 hc)).1
      have hget : text[before.length]? = some c := by
        rw [← Array.getElem?_toList, htext]
        simp
      rw [outcomes_chars, hget, Option.any_some, if_pos hset]
      exact ⟨_, List.mem_singleton_self _, rfl, rfl⟩
  | alt l r ihl ihr =>
      rw [outcomes_alt hi]
      rcases List.mem_append.1 (List.mem_of_mem_take hw) with hl | hr
      · exact (ihl (fun s hs => hsets s (List.mem_append_left _ hs)) hl hat hi).mono
          fun o ho => List.mem_append_left _ ho
      · exact (ihr (fun s hs => hsets s (List.mem_append_right _ hs)) hr hat hi).mono
          fun o ho => List.mem_append_right _ ho
  | seq a b iha ihb =>
      rw [outcomes_seq hi]
      have ha : ∀ s ∈ a.leaves, s.Canonical := fun s hs => hsets s (List.mem_append_left _ hs)
      have hb : ∀ s ∈ b.leaves, s.Canonical := fun s hs => hsets s (List.mem_append_right _ hs)
      exact takes_of_mem_product (fun hw hat => iha ha hw hat (Nat.le_of_add_right_le hat.le))
        (fun hw hat => ihb hb hw hat (Nat.le_of_add_right_le hat.le)) hw hat
  | star p ih =>
      rw [outcomes_star hi]
      have hbody : ∀ {i w}, w ∈ p.sample limit → w.StandsAt text i →
          Takes (p.outcomes charNames text i) i w := fun hw hat =>
        ih hsets hw hat (Nat.le_of_add_right_le hat.le)
      rcases List.mem_append.1 (List.mem_of_mem_take hw) with hfirst | htwice
      · rcases List.mem_cons.1 hfirst with rfl | honce
        · exact ⟨_, List.mem_cons_self, rfl, rfl⟩
        · exact (hbody honce hat).mono fun o ho =>
            List.mem_append_left _ (List.mem_cons_of_mem _ ho)
      · exact (takes_of_mem_product hbody hbody htwice hat).mono fun o ho =>
          List.mem_append_right _ ho
  | bind name p ih =>
      obtain ⟨o, ho, hstop⟩ := ih hsets hw hat hi
      rw [outcomes_bind hi]
      exact ⟨_, List.mem_map_of_mem ho, hstop⟩

/-- There are no more samples than asked for. -/
theorem length_sample_le (p : Pattern) (limit : Nat) : (p.sample limit).length ≤ limit := by
  induction p with
  | epsilon | eof | chars _ | alt _ _ _ _ | star _ _ => exact List.length_take_le _ _
  | seq a b _ _ =>
      rw [sample, product_eq_take]
      exact List.length_take_le _ _
  | bind _ p ih => exact ih

/-- The sample texts are the first distinct witnesses. -/
theorem samples_eq (p : Pattern) (count : Nat) :
    p.samples count = (p.witnesses (4 * count)).eraseDups.take count := by
  rw [samples, firstDistinct_eq_take]
  have hall : (p.witnesses (4 * count)).filter (!([] : List Text).contains ·) =
      p.witnesses (4 * count) := List.filter_eq_self.2 fun _ _ => rfl
  rw [hall]

theorem mem_witnesses_of_mem_samples {count : Nat} {sample : Text}
    (h : sample ∈ p.samples count) : sample ∈ p.witnesses (4 * count) := by
  rw [samples_eq] at h
  exact List.mem_eraseDups.1 (List.mem_of_mem_take h)

/-- Every witness is matched as a whole. -/
theorem exists_outcome_of_mem_witnesses (charNames : OrderedSet String)
    (hsets : ∀ s ∈ p.leaves, s.Canonical) {t : Text} (h : t ∈ p.witnesses limit) :
    ∃ o ∈ p.outcomes charNames t.toArray 0, o.stop = t.length := by
  obtain ⟨w, hw, rfl⟩ := List.mem_map.1 h
  have hat : w.StandsAt w.text.toArray 0 := ⟨[], [], by simp, rfl, fun _ => rfl⟩
  obtain ⟨o, ho, hstop, -⟩ := takes_of_mem_sample p hsets hw hat
  exact ⟨o, ho, by omega⟩

theorem exists_outcome_of_mem_samples (hp : p.Reduced) {count : Nat} {sample : Text}
    (h : sample ∈ p.samples count) :
    ∃ o ∈ p.outcomes charNames sample.toArray 0, o.stop = sample.length :=
  exists_outcome_of_mem_witnesses charNames hp.canonical (mem_witnesses_of_mem_samples h)

end LexTags.Pattern
