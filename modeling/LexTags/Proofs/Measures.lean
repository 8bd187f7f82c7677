import Mathlib.Data.List.Basic
import LexTags.Proofs.Matching

/-!
# What the size and the nullability say of the matches

The size and the nullability of an expression are computed from its parts, without a text. They
are right about the matches that a matcher lists, for both kinds of expression: every match is as
long as the size says, and there is an empty one that does not need the end of the input exactly
if the expression is nullable.

`Measures` is what the induction carries, and each node has a lemma for it. Two things make the
sequences work. Where the second part is left out at the end of the input, it is nullable, so
that its size can only be zero. And where a match that has reached the end of the input goes on
over marks, it stays behind the end, so that an empty match of the sequence is made of empty
matches of the parts.

The matchers give up on what is longer than what remains. The induction is on `allFrom`, which
does not, and as the sizes are right about its matches, it lists what the matchers list.
-/

namespace LexTags

/-- The matches from position `i` of a text with `length` units are as the size and the
nullability say, where `atEof` says that the end of the input lies behind. -/
structure Measures {κ υ : Type} (size? : Option Nat) (nullable atEof : Bool) (length i : Nat)
    (ms : List (Match κ υ)) : Prop where
  bounds : ∀ m ∈ ms, i ≤ m.stop ∧ m.stop ≤ length
  stop_eq : ∀ m ∈ ms, ∀ n, size? = some n → m.stop = i + n
  empty_iff : atEof = false →
    (nullable = true ↔ ∃ m ∈ ms, m.stop = i ∧ m.reachedEof = false)
  behind : atEof = true → ∀ m ∈ ms, m.reachedEof = true

namespace Measures

variable {κ υ : Type} {size? size?' : Option Nat} {nullable nullable' atEof : Bool}
  {length i : Nat} {ms ms' : List (Match κ υ)}

/-- Giving up early on what is too long gives nothing up. -/
theorem unpruned (h : Measures size? nullable atEof length i ms) :
    (if isTooLong size? (length - i) then [] else ms) = ms :=
  ite_isTooLong fun m hm n hn => by
    have hle := (h.bounds m hm).2
    have hstop := h.stop_eq m hm n hn
    omega

/-- What is nullable has no size but zero. -/
theorem size_eq_zero (h : Measures size? true false length i ms) {n : Nat}
    (hn : size? = some n) : n = 0 := by
  obtain ⟨m, hm, hempty, -⟩ := (h.empty_iff rfl).1 rfl
  have hstop := h.stop_eq m hm n hn
  omega

/-! ## The nodes that both kinds of expression have -/

theorem nil (h : atEof = false → nullable = false) :
    Measures size? nullable atEof length i ([] : List (Match κ υ)) where
  bounds m hm := nomatch hm
  stop_eq m hm := nomatch hm
  empty_iff heof := by simp [h heof]
  behind _ m hm := nomatch hm

/-- One match of a known length. -/
theorem single {m : Match κ υ} {n : Nat} (hstop : m.stop = i + n) (hle : i + n ≤ length)
    (hempty : atEof = false → (nullable = true ↔ n = 0 ∧ m.reachedEof = false))
    (hbehind : atEof = true → m.reachedEof = true) :
    Measures (some n) nullable atEof length i [m] where
  bounds m' hm' := by
    rw [List.mem_singleton.1 hm', hstop]
    exact ⟨Nat.le_add_right i n, hle⟩
  stop_eq m' hm' k hk := by
    cases hk
    rw [List.mem_singleton.1 hm', hstop]
  empty_iff hfalse := by
    simp only [List.mem_singleton, exists_eq_left, hstop, hempty hfalse, Nat.add_eq_left]
  behind htrue m' hm' := by
    rw [List.mem_singleton.1 hm']
    exact hbehind htrue

/-- What consumes nothing and leaves the end of the input where it is. -/
theorem empty {m : Match κ υ} (hi : i ≤ length) (hstop : m.stop = i)
    (heof : m.reachedEof = atEof) : Measures (some 0) true atEof length i [m] :=
  .single hstop hi (fun hfalse => iff_of_true rfl ⟨rfl, heof.trans hfalse⟩)
    fun htrue => heof.trans htrue

theorem eof (hi : i ≤ length) :
    Measures (some 0) false false length i [(.bare i true : Match κ υ)] :=
  .single rfl hi (fun _ => by simp [Match.bare]) fun htrue => nomatch htrue

theorem unit (hi : i < length) :
    Measures (some 1) false false length i [(.bare (i + 1) false : Match κ υ)] :=
  .single rfl hi (fun _ => by simp) fun htrue => nomatch htrue

/-- A repetition promises the match of no rounds, and nothing of the others. -/
theorem star (hi : i ≤ length) (h : ∀ m ∈ ms, i ≤ m.stop ∧ m.stop ≤ length) :
    Measures none true false length i (.bare i false :: ms) where
  bounds m hm := by
    rcases List.mem_cons.1 hm with rfl | hm
    · exact ⟨Nat.le_refl i, hi⟩
    · exact h m hm
  stop_eq m hm n hn := nomatch hn
  empty_iff _ := iff_of_true rfl ⟨_, List.mem_cons_self, rfl, rfl⟩
  behind htrue := nomatch htrue

theorem alt (h : Measures size? nullable atEof length i ms)
    (h' : Measures size?' nullable' atEof length i ms') :
    Measures (commonSize? size? size?') (nullable || nullable') atEof length i
      (ms ++ ms') where
  bounds m hm := by
    rcases List.mem_append.1 hm with hm | hm
    · exact h.bounds m hm
    · exact h'.bounds m hm
  stop_eq m hm n hn := by
    obtain ⟨hl, hr⟩ := eq_some_of_commonSize? hn
    rcases List.mem_append.1 hm with hm | hm
    · exact h.stop_eq m hm n hl
    · exact h'.stop_eq m hm n hr
  empty_iff heof := by
    rw [Bool.or_eq_true, h.empty_iff heof, h'.empty_iff heof]
    simp only [List.mem_append, or_and_right, exists_or]
  behind heof m hm := by
    rcases List.mem_append.1 hm with hm | hm
    · exact h.behind heof m hm
    · exact h'.behind heof m hm

end Measures

/-! ## Patterns -/

namespace Pattern

variable {text : Array CodeUnit} {strict : Bool} {i length : Nat} {m : Match String Span}
  {size? size?' : Option Nat} {nullable nullable' : Bool} {heads : List (Match String Span)}
  {tails tails' : Nat → List (Match String Span)}

/-- The matches of `matchesFrom`, without giving up early on what is too long. -/
def allFrom (text : Array CodeUnit) (strict : Bool) : Pattern → Nat → List (Match String Span)
  | epsilon, i => [.bare i false]
  | eof, i => if i = text.size then [.bare i true] else []
  | chars set, i => if text[i]?.any set.contains then [.bare (i + 1) false] else []
  | alt l r, i => l.allFrom text strict i ++ r.allFrom text strict i
  | seq a b, i => followed strict b.nullable (a.allFrom text strict i) (b.allFrom text strict)
  | star q, i =>
      .bare i false :: q.allFrom text strict i ++
        followed strict q.nullable (q.allFrom text strict i) (q.allFrom text strict)
  | bind name q, i => (q.allFrom text strict i).map fun m => m.capture name ⟨i, m.stop⟩

/-- A match of a sequence is one of its first part that has reached the end of the input, if the
rest may be left out, or else one that is followed by a match of the second part. -/
theorem mem_followed_iff :
    m ∈ followed strict nullable heads tails ↔ ∃ head ∈ heads,
      (head.reachedEof = true ∧ (strict = false ∧ nullable = true) ∧ m = head) ∨
      (head.reachedEof = false ∧ ∃ tail ∈ tails head.stop, m = head.followedBy tail) := by
  rw [followed, List.mem_flatMap]
  refine exists_congr fun head => and_congr_right fun _ => ?_
  cases head.reachedEof with
  | true => cases strict <;> cases nullable <;> simp
  | false => simp [eq_comm]

theorem followed_congr (h : ∀ head ∈ heads, tails head.stop = tails' head.stop) :
    followed strict nullable heads tails = followed strict nullable heads tails' := by
  refine List.flatMap_congr fun head hhead => ?_
  rw [h head hhead]

theorem measures_followed (h : Measures size? nullable false length i heads)
    (h' : ∀ j, j ≤ length → Measures size?' nullable' false length j (tails j)) :
    Measures (totalSize? size? size?') (nullable && nullable') false length i
      (followed strict nullable' heads tails) where
  bounds m hm := by
    obtain ⟨head, hhead, ⟨-, -, rfl⟩ | ⟨-, tail, htail, rfl⟩⟩ := mem_followed_iff.1 hm
    · exact h.bounds m hhead
    · have hb := h.bounds head hhead
      have hb' := (h' _ hb.2).bounds tail htail
      exact ⟨Nat.le_trans hb.1 hb'.1, hb'.2⟩
  stop_eq m hm n hn := by
    obtain ⟨a, b, ha, hb, rfl⟩ := eq_add_of_totalSize? hn
    obtain ⟨head, hhead, hcase⟩ := mem_followed_iff.1 hm
    have hstop := h.stop_eq head hhead a ha
    have htails := h' _ (h.bounds head hhead).2
    rcases hcase with ⟨-, ⟨-, rfl⟩, rfl⟩ | ⟨-, tail, htail, rfl⟩
    · -- The part that is left out is nullable, so it has no size but zero.
      have hzero := htails.size_eq_zero hb
      omega
    · have hstop' := htails.stop_eq tail htail b hb
      show tail.stop = _
      omega
  empty_iff _ := by
    rw [Bool.and_eq_true]
    refine ⟨fun hboth => ?_, fun hempty => ?_⟩
    · obtain ⟨head, hhead, hstop, heof⟩ := (h.empty_iff rfl).1 hboth.1
      obtain ⟨tail, htail, hstop', heof'⟩ :=
        ((h' _ (h.bounds head hhead).2).empty_iff rfl).1 hboth.2
      exact ⟨head.followedBy tail,
        mem_followed_iff.2 ⟨head, hhead, .inr ⟨heof, tail, htail, rfl⟩⟩,
        hstop'.trans hstop, heof'⟩
    · obtain ⟨m, hm, hstop, heof⟩ := hempty
      obtain ⟨head, hhead, ⟨htrue, -, rfl⟩ | ⟨hfalse, tail, htail, rfl⟩⟩ :=
        mem_followed_iff.1 hm
      · exact nomatch htrue.symm.trans heof
      · have hb := h.bounds head hhead
        have htails := h' _ hb.2
        have hb' := htails.bounds tail htail
        have hstop : tail.stop = i := hstop
        exact ⟨(h.empty_iff rfl).2 ⟨head, hhead, by omega, hfalse⟩,
          (htails.empty_iff rfl).2 ⟨tail, htail, by omega, heof⟩⟩
  behind htrue := nomatch htrue

theorem measures_map_capture {name : String}
    (h : Measures size? nullable false length i heads) :
    Measures size? nullable false length i
      (heads.map fun m => m.capture name ⟨i, m.stop⟩) where
  bounds m hm := by
    obtain ⟨inner, hinner, rfl⟩ := List.mem_map.1 hm
    exact h.bounds inner hinner
  stop_eq m hm n hn := by
    obtain ⟨inner, hinner, rfl⟩ := List.mem_map.1 hm
    exact h.stop_eq inner hinner n hn
  empty_iff _ := by
    rw [h.empty_iff rfl]
    refine ⟨fun hempty => ?_, fun hempty => ?_⟩
    · obtain ⟨inner, hinner, hat⟩ := hempty
      exact ⟨_, List.mem_map_of_mem hinner, hat⟩
    · obtain ⟨m, hm, hat⟩ := hempty
      obtain ⟨inner, hinner, rfl⟩ := List.mem_map.1 hm
      exact ⟨inner, hinner, hat⟩
  behind htrue := nomatch htrue

theorem measures_allFrom (p : Pattern) (hi : i ≤ text.size) :
    Measures p.size? p.nullable false text.size i (p.allFrom text strict i) := by
  induction p generalizing i with
  | epsilon => exact .empty hi rfl rfl
  | eof =>
      rw [allFrom]
      split
      · exact .eof hi
      · exact .nil fun _ => rfl
  | chars set =>
      rw [allFrom]
      split
      · next hc =>
          obtain ⟨c, hget, -⟩ := (Option.any_eq_true ..).1 hc
          exact .unit (Array.getElem?_eq_some_iff.1 hget).1
      · exact .nil fun _ => rfl
  | alt l r ihl ihr => exact (ihl hi).alt (ihr hi)
  | seq a b iha ihb => exact measures_followed (iha hi) fun j hj => ihb hj
  | star q ih =>
      refine .star hi fun m hm => ?_
      rcases List.mem_append.1 hm with honce | htwice
      · exact (ih hi).bounds m honce
      · exact (measures_followed (ih hi) fun j hj => ih hj).bounds m htwice
  | bind name q ih => exact measures_map_capture (ih hi)

/-- Giving up early on what is too long loses no match of a pattern. -/
theorem matchesFrom_eq_allFrom (p : Pattern) (hi : i ≤ text.size) :
    p.matchesFrom text strict i = p.allFrom text strict i := by
  induction p generalizing i with
  | epsilon | eof | chars _ =>
      rw [matchesFrom]
      exact (measures_allFrom _ hi).unpruned
  | alt l r ihl ihr =>
      rw [matchesFrom, ihl hi, ihr hi]
      exact (measures_allFrom (alt l r) hi).unpruned
  | seq a b iha ihb =>
      rw [matchesFrom, iha hi,
        followed_congr fun head hhead => ihb ((measures_allFrom a hi).bounds head hhead).2]
      exact (measures_allFrom (seq a b) hi).unpruned
  | star q ih =>
      -- Two rounds are a sequence, for which the test is made once more.
      have htwice : (if isTooLong (seq q q).size? (text.size - i) then [] else
          followed strict q.nullable (q.allFrom text strict i) (q.matchesFrom text strict)) =
            (seq q q).allFrom text strict i := by
        rw [followed_congr fun head hhead => ih ((measures_allFrom q hi).bounds head hhead).2]
        exact (measures_allFrom (seq q q) hi).unpruned
      rw [matchesFrom, ih hi]
      dsimp only
      rw [htwice]
      exact (measures_allFrom (star q) hi).unpruned
  | bind name q ih =>
      rw [matchesFrom, ih hi]
      exact (measures_allFrom (bind name q) hi).unpruned

end Pattern

/-! ## Tagged expressions -/

namespace Tagged

variable {pool : Pool} {text : Array CodeUnit} {atEof : Bool} {i length : Nat}
  {m : Match Tag Nat} {size? size?' : Option Nat} {nullable nullable' : Bool}
  {heads : List (Match Tag Nat)} {tails tails' : Nat → Bool → List (Match Tag Nat)}

/-- The matches of `matchesFrom`, without giving up early on what is too long. -/
def allFrom (pool : Pool) (text : Array CodeUnit) (p : Tagged) (i : Nat) (atEof : Bool) :
    List (Match Tag Nat) :=
  if atEof && !p.isMark then []
  else
    match p with
    | epsilon => [.bare i false]
    | chars id =>
        match pool[id]?, text[i]? with
        | some set, some c => if set.contains c then [.bare (i + 1) false] else []
        | _, _ => []
    | eof _ => if i = text.size then [.bare i true] else []
    | tag t => [(Match.bare i atEof).capture t i]
    | action _ => [.bare i atEof]
    | alt l r => l.allFrom pool text i atEof ++ r.allFrom pool text i atEof
    | seq a b => followed (a.allFrom pool text i atEof) (b.allFrom pool text)
    | star q =>
        .bare i false :: q.allFrom pool text i atEof ++
          followed (q.allFrom pool text i atEof) (q.allFrom pool text)

theorem allFrom_seq {a b : Tagged} :
    (seq a b).allFrom pool text i false =
      followed (a.allFrom pool text i false) (b.allFrom pool text) :=
  rfl

theorem mem_followed_iff :
    m ∈ followed heads tails ↔ ∃ head ∈ heads, ∃ tail ∈ tails head.stop head.reachedEof,
      m = head.followedBy tail := by
  simp only [followed, List.mem_flatMap, List.mem_map, eq_comm]

theorem followed_congr (h : ∀ head ∈ heads,
      tails head.stop head.reachedEof = tails' head.stop head.reachedEof) :
    followed heads tails = followed heads tails' := by
  refine List.flatMap_congr fun head hhead => ?_
  rw [h head hhead]

theorem measures_followed (h : Measures size? nullable atEof length i heads)
    (h' : ∀ j eof, j ≤ length → Measures size?' nullable' eof length j (tails j eof)) :
    Measures (totalSize? size? size?') (nullable && nullable') atEof length i
      (followed heads tails) where
  bounds m hm := by
    obtain ⟨head, hhead, tail, htail, rfl⟩ := mem_followed_iff.1 hm
    have hb := h.bounds head hhead
    have hb' := (h' _ _ hb.2).bounds tail htail
    exact ⟨Nat.le_trans hb.1 hb'.1, hb'.2⟩
  stop_eq m hm n hn := by
    obtain ⟨a, b, ha, hb, rfl⟩ := eq_add_of_totalSize? hn
    obtain ⟨head, hhead, tail, htail, rfl⟩ := mem_followed_iff.1 hm
    have hstop := h.stop_eq head hhead a ha
    have hstop' := (h' _ _ (h.bounds head hhead).2).stop_eq tail htail b hb
    show tail.stop = _
    omega
  empty_iff hfalse := by
    rw [Bool.and_eq_true]
    refine ⟨fun hboth => ?_, fun hempty => ?_⟩
    · obtain ⟨head, hhead, hstop, heof⟩ := (h.empty_iff hfalse).1 hboth.1
      obtain ⟨tail, htail, hstop', heof'⟩ :=
        ((h' _ _ (h.bounds head hhead).2).empty_iff heof).1 hboth.2
      exact ⟨head.followedBy tail, mem_followed_iff.2 ⟨head, hhead, tail, htail, rfl⟩,
        hstop'.trans hstop, heof'⟩
    · obtain ⟨m, hm, hstop, heof⟩ := hempty
      obtain ⟨head, hhead, tail, htail, rfl⟩ := mem_followed_iff.1 hm
      have hb := h.bounds head hhead
      have htails := h' head.stop head.reachedEof hb.2
      have hb' := htails.bounds tail htail
      have hstop : tail.stop = i := hstop
      -- Had the first part reached the end of the input, the second would be behind it too.
      have hhead' : head.reachedEof = false := Bool.eq_false_iff.2 fun htrue =>
        nomatch (htails.behind htrue tail htail).symm.trans heof
      exact ⟨(h.empty_iff hfalse).2 ⟨head, hhead, by omega, hhead'⟩,
        (htails.empty_iff hhead').2 ⟨tail, htail, by omega, heof⟩⟩
  behind htrue m hm := by
    obtain ⟨head, hhead, tail, htail, rfl⟩ := mem_followed_iff.1 hm
    have hhead' := h.behind htrue head hhead
    exact (h' _ _ (h.bounds head hhead).2).behind hhead' tail htail

theorem measures_allFrom (p : Tagged) (hi : i ≤ text.size) :
    Measures p.size? p.nullable atEof text.size i (p.allFrom pool text i atEof) := by
  induction p generalizing i atEof with
  | tag t => cases atEof <;> exact .empty hi rfl rfl
  | action id => cases atEof <;> exact .empty hi rfl rfl
  | epsilon =>
      cases atEof with
      | true => exact .nil nofun
      | false => exact .empty hi rfl rfl
  | chars id =>
      cases atEof with
      | true => exact .nil nofun
      | false =>
          rw [allFrom, Bool.false_and, if_neg Bool.false_ne_true]
          split
          · next hc =>
              split
              · exact .unit (Array.getElem?_eq_some_iff.1 hc).1
              · exact .nil fun _ => rfl
          · exact .nil fun _ => rfl
  | eof id =>
      cases atEof with
      | true => exact .nil nofun
      | false =>
          rw [allFrom, Bool.false_and, if_neg Bool.false_ne_true]
          split
          · exact .eof hi
          · exact .nil fun _ => rfl
  | alt l r ihl ihr =>
      cases atEof with
      | true => exact .nil nofun
      | false => exact (ihl hi).alt (ihr hi)
  | seq a b iha ihb =>
      cases atEof with
      | true => exact .nil nofun
      | false => exact measures_followed (iha hi) fun j eof hj => ihb hj
  | star q ih =>
      cases atEof with
      | true => exact .nil nofun
      | false =>
          refine .star hi fun m hm => ?_
          rcases List.mem_append.1 hm with honce | htwice
          · exact (ih hi).bounds m honce
          · exact (measures_followed (ih hi) fun j eof hj => ih hj).bounds m htwice

/-- Giving up early on what is too long loses no match of a tagged expression. -/
theorem matchesFrom_eq_allFrom (p : Tagged) (hi : i ≤ text.size) :
    p.matchesFrom pool text i atEof = p.allFrom pool text i atEof := by
  induction p generalizing i atEof with
  | epsilon | eof | chars _ | tag _ | action _ =>
      rw [matchesFrom]
      exact (measures_allFrom _ hi).unpruned
  | alt l r ihl ihr =>
      rw [matchesFrom, ihl hi, ihr hi]
      exact (measures_allFrom (alt l r) hi).unpruned
  | seq a b iha ihb =>
      rw [matchesFrom, iha hi,
        followed_congr fun head hhead => ihb ((measures_allFrom a hi).bounds head hhead).2]
      exact (measures_allFrom (seq a b) hi).unpruned
  | star q ih =>
      cases atEof with
      | true =>
          rw [matchesFrom]
          split <;> rfl
      | false =>
          have htwice : (if isTooLong (seq q q).size? (text.size - i) then [] else
              followed (q.allFrom pool text i false) (q.matchesFrom pool text)) =
                (seq q q).allFrom pool text i false := by
            rw [followed_congr fun head hhead => ih ((measures_allFrom q hi).bounds head hhead).2,
              ← allFrom_seq]
            exact (measures_allFrom (seq q q) hi).unpruned
          rw [matchesFrom, ih hi]
          dsimp only
          rw [htwice]
          exact (measures_allFrom (star q) hi).unpruned

end Tagged

/-- What the size and the nullability say of an expression holds of the matches that are listed
for it, from any position of any text: none has another length, and one is empty without the end
of the input exactly if the expression is nullable. So nothing is lost by giving up early on what
is longer than what remains. This is so for patterns, strict or not, and for tagged expressions
with any pool. -/
theorem matches_as_measured {text : Array CodeUnit} {i : Nat} (hi : i ≤ text.size) :
    (∀ (p : Pattern) (strict : Bool),
      (∀ n, p.size? = some n → ∀ m ∈ p.matchesFrom text strict i, m.stop = i + n) ∧
      (p.nullable = true ↔
        ∃ m ∈ p.matchesFrom text strict i, m.stop = i ∧ m.reachedEof = false) ∧
      p.matchesFrom text strict i = p.allFrom text strict i) ∧
    ∀ (t : Tagged) (pool : Pool),
      (∀ n, t.size? = some n → ∀ m ∈ t.matchesFrom pool text i false, m.stop = i + n) ∧
      (t.nullable = true ↔
        ∃ m ∈ t.matchesFrom pool text i false, m.stop = i ∧ m.reachedEof = false) ∧
      t.matchesFrom pool text i false = t.allFrom pool text i false := by
  refine ⟨fun p strict => ?_, fun t pool => ?_⟩
  · have h : Measures _ _ false _ _ (p.allFrom text strict i) := p.measures_allFrom hi
    rw [p.matchesFrom_eq_allFrom hi]
    exact ⟨fun n hn m hm => h.stop_eq m hm n hn, h.empty_iff rfl, rfl⟩
  · have h : Measures _ _ false _ _ (t.allFrom pool text i false) := t.measures_allFrom hi
    rw [t.matchesFrom_eq_allFrom hi]
    exact ⟨fun n hn m hm => h.stop_eq m hm n hn, h.empty_iff rfl, rfl⟩

/-- Behind the end of `a`, a repetition after the end of the input is left out, and the match
that remains is not an empty one. A tag after it is crossed there. -/
theorem matches_as_measured_end :
    1 ≤ (#[97] : Array CodeUnit).size ∧
      (∃ m, m ∈ (Pattern.seq .eof (.star (.chars (.single 97)))).matchesFrom #[97] false 1) ∧
      (¬∃ m ∈ (Pattern.seq .eof (.star (.chars (.single 97)))).matchesFrom #[97] false 1,
        m.stop = 1 ∧ m.reachedEof = false) ∧
      (∃ m, m ∈ (Tagged.seq (.eof 0) (.tag ⟨.opening "n", 0⟩)).matchesFrom #[.eof] #[97] 1
        false) ∧
      ∀ m ∈ (Tagged.seq (.eof 0) (.tag ⟨.opening "n", 0⟩)).matchesFrom #[.eof] #[97] 1 false,
        m.stop = 1 := by
  have hend : 1 ≤ (#[97] : Array CodeUnit).size := by decide
  obtain ⟨hpattern, htagged⟩ := matches_as_measured hend
  obtain ⟨-, hempty, -⟩ := hpattern (.seq .eof (.star (.chars (.single 97)))) false
  obtain ⟨hstop, -⟩ := htagged (.seq (.eof 0) (.tag ⟨.opening "n", 0⟩)) #[.eof]
  exact ⟨hend, ⟨.bare 1 true, by decide⟩, fun h => Bool.false_ne_true (hempty.2 h),
    ⟨(Match.bare 1 true).capture ⟨.opening "n", 0⟩ 1, by decide⟩, hstop 0 rfl⟩

end LexTags
