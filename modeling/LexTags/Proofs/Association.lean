import Mathlib.Data.List.Basic
import LexTags.Proofs.Matching

/-!
# How far sequences associate

Three expressions in a row can be put into two sequence nodes in two ways. What a match has
recorded does not tell them apart, since writing maps over one another associates. What can tell
them apart is the end of the input: behind it a single mark is crossed, but no sequence, not even
one of two marks. So the two ways differ if and only if two marks stand behind something that has
reached the end of the input, and then the way that makes the two marks a sequence of their own
lacks the matches that have reached it.
-/

namespace LexTags

theorem Match.followedBy_assoc {κ υ : Type} [DecidableEq κ] (head mid tail : Match κ υ) :
    (head.followedBy mid).followedBy tail = head.followedBy (mid.followedBy tail) :=
  congrArg (Match.mk · tail.stop tail.reachedEof) (OrderedMap.extend_assoc _ _ _)

namespace Tagged

variable {pool : Pool} {text : Array CodeUnit} {p a b c : Tagged} {i : Nat} {atEof : Bool}
  {head : Match Tag Nat}

/-- Continuing the continued matches is continuing each match by what the two parts behind it
match one after the other. -/
theorem followed_followed (heads : List (Match Tag Nat))
    (mids tails : Nat → Bool → List (Match Tag Nat)) :
    followed (followed heads mids) tails =
      heads.flatMap fun head =>
        (followed (mids head.stop head.reachedEof) tails).map head.followedBy := by
  rw [followed, followed, List.flatMap_assoc]
  congr 1
  funext head
  rw [followed, List.flatMap_map, List.map_flatMap]
  congr 1
  funext mid
  rw [List.map_map]
  exact List.map_congr_left fun tail _ => Match.followedBy_assoc head mid tail

/-- A mark is crossed where it stands, on either side of the end of the input. -/
theorem exists_matchesFrom_of_isMark (pool : Pool) (text : Array CodeUnit) (i : Nat)
    (hp : p.isMark = true) (atEof : Bool) :
    ∃ m, p.matchesFrom pool text i atEof = [m] ∧ m.stop = i ∧ m.reachedEof = atEof := by
  cases p with
  | tag t => exact ⟨_, matchesFrom_tag, rfl, rfl⟩
  | action id =>
      refine ⟨.bare i atEof, ?_, rfl, rfl⟩
      cases atEof <;> rfl
  | epsilon | chars _ | eof _ | alt _ _ | seq _ _ | star _ => cases hp

/-- Two marks, one after the other, are crossed once. -/
theorem exists_followed_of_isMark (pool : Pool) (text : Array CodeUnit) (i : Nat)
    (hb : b.isMark = true) (hc : c.isMark = true) (atEof : Bool) :
    ∃ m, followed (b.matchesFrom pool text i atEof) (c.matchesFrom pool text) = [m] ∧
      m.reachedEof = atEof := by
  obtain ⟨mid, hmid, hstop, heof⟩ := exists_matchesFrom_of_isMark pool text i hb atEof
  obtain ⟨tail, htail, -, htaileof⟩ := exists_matchesFrom_of_isMark pool text i hc atEof
  refine ⟨mid.followedBy tail, ?_, htaileof⟩
  rw [hmid, followed, List.flatMap_singleton, hstop, heof, htail]
  rfl

/-- Behind the end of the input, two expressions that are not both marks match nothing. -/
theorem followed_eq_nil_of_not_isMark (h : ¬(b.isMark = true ∧ c.isMark = true)) :
    followed (b.matchesFrom pool text i true) (c.matchesFrom pool text) = [] := by
  by_cases hb : b.isMark = true
  · have hc : c.isMark = false := Bool.eq_false_iff.2 fun hc => h ⟨hb, hc⟩
    obtain ⟨mid, hmid, -, heof⟩ := exists_matchesFrom_of_isMark pool text i hb true
    rw [hmid, followed, List.flatMap_singleton, heof, matchesFrom_of_not_isMark hc]
    rfl
  · rw [matchesFrom_of_not_isMark (Bool.eq_false_iff.2 hb)]
    rfl

/-- What is listed behind a match of the first of three, when the other two are put in a sequence
of their own. -/
theorem matchesFrom_seq_head (hstop : head.stop ≤ text.size)
    (h : head.reachedEof = true → ¬(b.isMark = true ∧ c.isMark = true)) :
    (seq b c).matchesFrom pool text head.stop head.reachedEof =
      followed (b.matchesFrom pool text head.stop head.reachedEof)
        (c.matchesFrom pool text) := by
  cases heof : head.reachedEof with
  | true => rw [matchesFrom_of_not_isMark rfl, followed_eq_nil_of_not_isMark (h heof)]
  | false => exact matchesFrom_seq hstop

theorem matchesFrom_seq_seq (hi : i ≤ text.size) :
    (seq (seq a b) c).matchesFrom pool text i false =
      (a.matchesFrom pool text i false).flatMap fun head =>
        (followed (b.matchesFrom pool text head.stop head.reachedEof)
          (c.matchesFrom pool text)).map head.followedBy := by
  rw [matchesFrom_seq hi, matchesFrom_seq hi, followed_followed]

/-- Three in a row match the same whichever two are put together first, unless two marks stand
behind a match that has reached the end of the input. -/
theorem matchesFrom_seq_assoc_of (hi : i ≤ text.size)
    (h : ∀ head ∈ a.matchesFrom pool text i false, head.reachedEof = true →
      ¬(b.isMark = true ∧ c.isMark = true)) :
    (seq (seq a b) c).matchesFrom pool text i false =
      (seq a (seq b c)).matchesFrom pool text i false := by
  rw [matchesFrom_seq_seq hi, matchesFrom_seq hi, followed]
  refine List.flatMap_congr fun head hhead => ?_
  rw [matchesFrom_seq_head (finds_of_mem_matchesFrom a hi hhead).stop_le (h head hhead)]

/-- If the two last ones are marks, putting them together drops the matches that have reached the
end of the input. -/
theorem matchesFrom_seq_marks (hi : i ≤ text.size) (hb : b.isMark = true) (hc : c.isMark = true) :
    (seq a (seq b c)).matchesFrom pool text i false =
      ((seq (seq a b) c).matchesFrom pool text i false).filter (!·.reachedEof) := by
  rw [matchesFrom_seq_seq hi, matchesFrom_seq hi, followed, List.filter_flatMap]
  refine List.flatMap_congr fun head hhead => ?_
  obtain ⟨m, hm, heof⟩ := exists_followed_of_isMark pool text head.stop hb hc head.reachedEof
  rw [hm, List.map_singleton]
  cases hend : head.reachedEof with
  | true =>
      rw [matchesFrom_of_not_isMark rfl]
      simp [Match.followedBy, heof, hend]
  | false =>
      rw [hend] at hm
      rw [matchesFrom_seq (finds_of_mem_matchesFrom a hi hhead).stop_le, hm]
      simp [Match.followedBy, heof, hend]

/-- The two ways to put three expressions in a row into sequences have the same matches, in the
same order, unless the two last ones are marks and a match of the first one has reached the end of
the input. With two marks at the end, the matches that have reached it are what is missing. -/
theorem matchesFrom_seq_assoc (pool : Pool) (text : Array CodeUnit) (a b c : Tagged) (i : Nat)
    (atEof : Bool) (hi : i ≤ text.size) :
    ((seq (seq a b) c).matchesFrom pool text i atEof =
        (seq a (seq b c)).matchesFrom pool text i atEof ↔
      ¬(atEof = false ∧ b.isMark = true ∧ c.isMark = true ∧
        ∃ m ∈ a.matchesFrom pool text i atEof, m.reachedEof = true)) ∧
    (b.isMark = true → c.isMark = true →
      (seq a (seq b c)).matchesFrom pool text i atEof =
        ((seq (seq a b) c).matchesFrom pool text i atEof).filter (!·.reachedEof)) := by
  cases atEof with
  | true =>
      rw [matchesFrom_of_not_isMark rfl, matchesFrom_of_not_isMark rfl]
      exact ⟨⟨fun _ h => Bool.noConfusion h.1, fun _ => rfl⟩, fun _ _ => rfl⟩
  | false =>
      refine ⟨⟨fun heq h => ?_, fun h => ?_⟩, matchesFrom_seq_marks hi⟩
      · obtain ⟨-, hb, hc, head, hhead, hend⟩ := h
        obtain ⟨m, hm, heof⟩ := exists_followed_of_isMark pool text head.stop hb hc head.reachedEof
        have hleft : head.followedBy m ∈ (seq (seq a b) c).matchesFrom pool text i false := by
          rw [matchesFrom_seq_seq hi]
          refine List.mem_flatMap.2 ⟨head, hhead, ?_⟩
          rw [hm]
          exact List.mem_singleton_self _
        rw [heq, matchesFrom_seq_marks hi hb hc] at hleft
        have hshort := (List.mem_filter.1 hleft).2
        simp [Match.followedBy, heof, hend] at hshort
      · refine matchesFrom_seq_assoc_of hi fun head hhead hend hmarks => h ?_
        exact ⟨rfl, hmarks.1, hmarks.2, head, hhead, hend⟩

/-- The two tags around one unit may be put together or not. -/
theorem matchesFrom_seq_assoc_unit :
    0 ≤ (#[97] : Array CodeUnit).size ∧
      (seq (seq (chars 0) (tag ⟨.closing "x", 0⟩)) (tag ⟨.opening "y", 0⟩)).matchesFrom
          #[.single 97] #[97] 0 false =
        (seq (chars 0) (seq (tag ⟨.closing "x", 0⟩) (tag ⟨.opening "y", 0⟩))).matchesFrom
          #[.single 97] #[97] 0 false := by
  have hi : 0 ≤ (#[97] : Array CodeUnit).size := by decide
  refine ⟨hi, (matchesFrom_seq_assoc _ _ _ _ _ 0 false hi).1.2 fun h => ?_⟩
  obtain ⟨-, -, -, m, hm, hend⟩ := h
  obtain rfl := List.mem_singleton.1 hm
  cases hend

/-- Behind the end of the input, the two tags of an empty binding are crossed one by one, but not as
a sequence of their own. -/
theorem matchesFrom_seq_assoc_ne :
    (seq (seq (eof 0) (tag ⟨.opening "x", 0⟩)) (tag ⟨.closing "x", 0⟩)).matchesFrom
          #[.eof] #[] 0 false =
        [⟨.ofList [(⟨.opening "x", 0⟩, 0), (⟨.closing "x", 0⟩, 0)], 0, true⟩] ∧
      (seq (eof 0) (seq (tag ⟨.opening "x", 0⟩) (tag ⟨.closing "x", 0⟩))).matchesFrom
          #[.eof] #[] 0 false = [] :=
  ⟨rfl, rfl⟩

end Tagged

end LexTags
