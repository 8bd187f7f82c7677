import LexTags.Pattern.Matching
import LexTags.Proofs.Log
import LexTags.Proofs.Reads
import LexTags.Tagged.Matching

/-!
# What the matchers enumerate

Each match that is listed is one of the relation: it reads a stretch of the text, and what it
has captured under a key is the last entry of the log. The bound on repetitions makes the
converse false, so the order and number of the matches has to be read off the equations of
the matchers.

Those equations carry a test that gives up early on an expression that is longer than what
remains. Since every match is as long as the size says, the test only ever cuts off a list
that is empty, and the equations hold without it.
-/

namespace LexTags

variable {κ υ : Type}

/-- Giving up early changes nothing where every match fits into what remains. -/
theorem ite_isTooLong {size? : Option Nat} {remaining : Nat} {ms : List (Match κ υ)}
    (h : ∀ m ∈ ms, ∀ n, size? = some n → n ≤ remaining) :
    (if isTooLong size? remaining then [] else ms) = ms := by
  by_cases hlong : isTooLong size? remaining = true
  · rw [if_pos hlong]
    refine (List.eq_nil_iff_forall_not_mem.2 fun m hm => ?_).symm
    cases size? with
    | none => cases hlong
    | some n =>
        have hle := h m hm n rfl
        have hlt : remaining < n := of_decide_eq_true hlong
        omega
  · rw [if_neg hlong]

theorem mem_of_mem_ite_isTooLong {size? : Option Nat} {remaining : Nat}
    {ms : List (Match κ υ)} {m : Match κ υ}
    (h : m ∈ if isTooLong size? remaining then [] else ms) : m ∈ ms := by
  split at h
  · cases h
  · exact h

namespace Pattern

variable {text : Array CodeUnit} {p a b l r : Pattern} {name : String} {i : Nat}
  {m : Match String Span}

/-- The match is one of the pattern, and has captured the last span of each name. -/
def Finds (text : Array CodeUnit) (p : Pattern) (i : Nat) (m : Match String Span) : Prop :=
  ∃ log, Reads text.toList p i m.stop log ∧ ∀ n, m.captured.get? n = lastOf? log n

theorem Finds.stop_le (h : Finds text p i m) : m.stop ≤ text.size := by
  obtain ⟨log, hr, -⟩ := h
  exact hr.bounds.2

theorem Finds.le_remaining (h : Finds text p i m) {n : Nat} (hn : p.size? = some n) :
    n ≤ text.size - i := by
  have hle := h.stop_le
  obtain ⟨log, hr, -⟩ := h
  have hstop := hr.stop_eq hn
  omega

theorem Finds.unpruned {ms : List (Match String Span)} (h : ∀ m ∈ ms, Finds text p i m) :
    (if isTooLong p.size? (text.size - i) then [] else ms) = ms :=
  ite_isTooLong fun m hm _ => (h m hm).le_remaining

theorem mem_followed {secondNullable : Bool} {heads : List (Match String Span)}
    {tails : Nat → List (Match String Span)}
    (h : m ∈ followed true secondNullable heads tails) :
    ∃ head ∈ heads, ∃ tail ∈ tails head.stop, m = head.followedBy tail := by
  obtain ⟨head, hhead, hm⟩ := List.mem_flatMap.1 h
  cases hend : head.reachedEof with
  | true => simp [hend] at hm
  | false =>
      simp only [hend, Bool.false_eq_true, if_false] at hm
      obtain ⟨tail, htail, rfl⟩ := List.mem_map.1 hm
      exact ⟨head, hhead, tail, htail, rfl⟩

theorem Finds.bare (hi : i ≤ text.size) : Finds text epsilon i (.bare i false) :=
  ⟨[], .epsilon hi, fun _ => rfl⟩

theorem Finds.followedBy {head tail : Match String Span} (ha : Finds text a i head)
    (hb : Finds text b head.stop tail) : Finds text (seq a b) i (head.followedBy tail) := by
  obtain ⟨first, hfirst, hget⟩ := ha
  obtain ⟨second, hsecond, hget'⟩ := hb
  refine ⟨first ++ second, .seq hfirst hsecond, fun n => ?_⟩
  rw [Match.followedBy, OrderedMap.get?_extend, lastOf?_append, hget, hget']

theorem Finds.capture (h : Finds text p i m) :
    Finds text (bind name p) i (m.capture name ⟨i, m.stop⟩) := by
  obtain ⟨log, hr, hget⟩ := h
  refine ⟨log ++ [(name, ⟨i, m.stop⟩)], .bind hr, fun n => ?_⟩
  rw [Match.capture, OrderedMap.get?_insert, lastOf?_append, lastOf?_cons, lastOf?_nil, hget]
  by_cases hn : n = name
  · simp [hn]
  · have hne : name ≠ n := fun he => hn he.symm
    simp [hn, hne]

theorem finds_of_mem_followed {secondNullable : Bool}
    (ha : ∀ m ∈ a.matchesFrom text true i, Finds text a i m)
    (hb : ∀ j, j ≤ text.size → ∀ m ∈ b.matchesFrom text true j, Finds text b j m)
    (h : m ∈ followed true secondNullable (a.matchesFrom text true i)
      (b.matchesFrom text true)) :
    Finds text (seq a b) i m := by
  obtain ⟨head, hhead, tail, htail, rfl⟩ := mem_followed h
  have hfirst := ha head hhead
  exact hfirst.followedBy (hb _ hfirst.stop_le tail htail)

theorem finds_star_nil (hi : i ≤ text.size) : Finds text (star p) i (.bare i false) :=
  ⟨[], .starNil (Array.length_toList ▸ hi), fun _ => rfl⟩

theorem Finds.once (h : Finds text p i m) : Finds text (star p) i m := by
  obtain ⟨log, hr, hget⟩ := h
  refine ⟨log ++ [], .starCons hr (.starNil hr.bounds.2), fun n => ?_⟩
  rw [List.append_nil, hget]

theorem Finds.twice (h : Finds text (seq p p) i m) : Finds text (star p) i m := by
  obtain ⟨log, hr, hget⟩ := h
  obtain ⟨j, first, second, hfirst, hsecond, rfl⟩ := reads_seq_iff.1 hr
  refine ⟨first ++ (second ++ []), .starCons hfirst (.starCons hsecond
    (.starNil hsecond.bounds.2)), fun n => ?_⟩
  rw [List.append_nil, hget]

/-- Every match that is listed is one of the pattern. -/
theorem finds_of_mem_matchesFrom (p : Pattern) {i : Nat} (hi : i ≤ text.size)
    {m : Match String Span} (h : m ∈ p.matchesFrom text true i) : Finds text p i m := by
  induction p generalizing i m with
  | epsilon =>
      rw [matchesFrom] at h
      obtain rfl := List.mem_singleton.1 (mem_of_mem_ite_isTooLong h)
      exact .bare hi
  | eof =>
      rw [matchesFrom] at h
      have h := mem_of_mem_ite_isTooLong h
      split at h
      · next hend =>
          obtain rfl := List.mem_singleton.1 h
          subst hend
          exact ⟨[], .eof, fun _ => rfl⟩
      · cases h
  | chars set =>
      rw [matchesFrom] at h
      have h := mem_of_mem_ite_isTooLong h
      split at h
      · next hc =>
          obtain rfl := List.mem_singleton.1 h
          cases hget : text[i]? with
          | none => simp [hget] at hc
          | some c =>
              rw [hget] at hc
              exact ⟨[], .chars (Array.getElem?_toList ▸ hget) hc, fun _ => rfl⟩
      · cases h
  | alt l r ihl ihr =>
      rw [matchesFrom] at h
      rcases List.mem_append.1 (mem_of_mem_ite_isTooLong h) with hl | hr
      · obtain ⟨log, hread, hget⟩ := ihl hi hl
        exact ⟨log, .altLeft hread, hget⟩
      · obtain ⟨log, hread, hget⟩ := ihr hi hr
        exact ⟨log, .altRight hread, hget⟩
  | seq a b iha ihb =>
      rw [matchesFrom] at h
      exact finds_of_mem_followed (fun m hm => iha hi hm) (fun j hj m hm => ihb hj hm)
        (mem_of_mem_ite_isTooLong h)
  | star q ih =>
      rw [matchesFrom] at h
      have h := mem_of_mem_ite_isTooLong h
      rcases List.mem_append.1 h with hhead | htwice
      · rcases List.mem_cons.1 hhead with rfl | honce
        · exact finds_star_nil hi
        · exact (ih hi honce).once
      · exact (finds_of_mem_followed (fun m hm => ih hi hm) (fun j hj m hm => ih hj hm)
          (mem_of_mem_ite_isTooLong htwice)).twice
  | bind name q ih =>
      rw [matchesFrom] at h
      obtain ⟨m', hm', rfl⟩ := List.mem_map.1 (mem_of_mem_ite_isTooLong h)
      exact (ih hi hm').capture

/-! ## The equations without the test -/

theorem matchesFrom_alt (hi : i ≤ text.size) :
    (alt l r).matchesFrom text true i =
      l.matchesFrom text true i ++ r.matchesFrom text true i := by
  refine Finds.unpruned (p := alt l r) fun m hm => ?_
  rcases List.mem_append.1 hm with hl | hr
  · obtain ⟨log, hread, hget⟩ := finds_of_mem_matchesFrom l hi hl
    exact ⟨log, .altLeft hread, hget⟩
  · obtain ⟨log, hread, hget⟩ := finds_of_mem_matchesFrom r hi hr
    exact ⟨log, .altRight hread, hget⟩

theorem finds_followed {secondNullable : Bool} (hi : i ≤ text.size)
    (h : m ∈ followed true secondNullable (a.matchesFrom text true i)
      (b.matchesFrom text true)) :
    Finds text (seq a b) i m :=
  finds_of_mem_followed (fun _ => finds_of_mem_matchesFrom a hi)
    (fun _ hj _ => finds_of_mem_matchesFrom b hj) h

theorem matchesFrom_seq (hi : i ≤ text.size) :
    (seq a b).matchesFrom text true i =
      followed true b.nullable (a.matchesFrom text true i) (b.matchesFrom text true) :=
  Finds.unpruned (p := seq a b) fun _ hm => finds_followed hi hm

theorem matchesFrom_star (hi : i ≤ text.size) :
    (star p).matchesFrom text true i =
      .bare i false :: p.matchesFrom text true i ++
        followed true p.nullable (p.matchesFrom text true i) (p.matchesFrom text true) := by
  have htwice : (if isTooLong (seq p p).size? (text.size - i) then [] else
      followed true p.nullable (p.matchesFrom text true i) (p.matchesFrom text true)) =
        followed true p.nullable (p.matchesFrom text true i) (p.matchesFrom text true) :=
    Finds.unpruned fun m hm => finds_followed hi hm
  show Match.bare i false :: _ ++ (if isTooLong (seq p p).size? (text.size - i) then [] else _) = _
  rw [htwice]

theorem matchesFrom_bind (hi : i ≤ text.size) :
    (bind name p).matchesFrom text true i =
      (p.matchesFrom text true i).map fun m => m.capture name ⟨i, m.stop⟩ := by
  refine Finds.unpruned (p := bind name p) fun m hm => ?_
  obtain ⟨m', hm', rfl⟩ := List.mem_map.1 hm
  exact (finds_of_mem_matchesFrom p hi hm').capture

end Pattern

namespace Tagged

variable {pool : Pool} {text : Array CodeUnit} {p a b l r : Tagged} {i : Nat} {atEof : Bool}
  {m : Match Tag Nat}

/-- The match is one of the expression, and has recorded the last position of each tag. -/
def Finds (pool : Pool) (text : Array CodeUnit) (p : Tagged) (i : Nat) (m : Match Tag Nat) :
    Prop :=
  ∃ log, Reads pool text.toList p i m.stop log ∧ ∀ t, m.captured.get? t = lastOf? log t

theorem Finds.stop_le (h : Finds pool text p i m) : m.stop ≤ text.size := by
  obtain ⟨log, hr, -⟩ := h
  exact hr.bounds.2

theorem Finds.le_remaining (h : Finds pool text p i m) {n : Nat} (hn : p.size? = some n) :
    n ≤ text.size - i := by
  have hle := h.stop_le
  obtain ⟨log, hr, -⟩ := h
  have hstop := hr.stop_eq hn
  omega

theorem Finds.unpruned {ms : List (Match Tag Nat)} (h : ∀ m ∈ ms, Finds pool text p i m) :
    (if isTooLong p.size? (text.size - i) then [] else ms) = ms :=
  ite_isTooLong fun m hm _ => (h m hm).le_remaining

theorem Finds.followedBy {head tail : Match Tag Nat} (ha : Finds pool text a i head)
    (hb : Finds pool text b head.stop tail) :
    Finds pool text (seq a b) i (head.followedBy tail) := by
  obtain ⟨first, hfirst, hget⟩ := ha
  obtain ⟨second, hsecond, hget'⟩ := hb
  refine ⟨first ++ second, .seq hfirst hsecond, fun t => ?_⟩
  rw [Match.followedBy, OrderedMap.get?_extend, lastOf?_append, hget, hget']

theorem finds_of_mem_followed
    (ha : ∀ m ∈ a.matchesFrom pool text i atEof, Finds pool text a i m)
    (hb : ∀ j e, j ≤ text.size → ∀ m ∈ b.matchesFrom pool text j e, Finds pool text b j m)
    (h : m ∈ followed (a.matchesFrom pool text i atEof) (b.matchesFrom pool text)) :
    Finds pool text (seq a b) i m := by
  obtain ⟨head, hhead, hm⟩ := List.mem_flatMap.1 h
  obtain ⟨tail, htail, rfl⟩ := List.mem_map.1 hm
  have hfirst := ha head hhead
  exact hfirst.followedBy (hb _ _ hfirst.stop_le tail htail)

theorem Finds.once (h : Finds pool text p i m) : Finds pool text (star p) i m := by
  obtain ⟨log, hr, hget⟩ := h
  refine ⟨log ++ [], .starCons hr (.starNil hr.bounds.2), fun t => ?_⟩
  rw [List.append_nil, hget]

theorem Finds.twice (h : Finds pool text (seq p p) i m) : Finds pool text (star p) i m := by
  obtain ⟨log, hr, hget⟩ := h
  obtain ⟨j, first, second, hfirst, hsecond, rfl⟩ := reads_seq_iff.1 hr
  refine ⟨first ++ (second ++ []), .starCons hfirst (.starCons hsecond
    (.starNil hsecond.bounds.2)), fun t => ?_⟩
  rw [List.append_nil, hget]

theorem mem_of_mem_ite {c : Bool} {ms : List (Match Tag Nat)}
    (h : m ∈ if c then [] else ms) : m ∈ ms := by
  split at h
  · cases h
  · exact h

/-- Every match that is listed is one of the expression. -/
theorem finds_of_mem_matchesFrom (p : Tagged) {i : Nat} {atEof : Bool} (hi : i ≤ text.size)
    {m : Match Tag Nat} (h : m ∈ p.matchesFrom pool text i atEof) : Finds pool text p i m := by
  induction p generalizing i atEof m with
  | epsilon =>
      rw [matchesFrom] at h
      obtain rfl := List.mem_singleton.1 (mem_of_mem_ite (mem_of_mem_ite h))
      exact ⟨[], .epsilon hi, fun _ => rfl⟩
  | eof id =>
      rw [matchesFrom] at h
      have h := mem_of_mem_ite (mem_of_mem_ite h)
      split at h
      · next hend =>
          obtain rfl := List.mem_singleton.1 h
          subst hend
          exact ⟨[], .eof, fun _ => rfl⟩
      · cases h
  | chars id =>
      rw [matchesFrom] at h
      have h := mem_of_mem_ite (mem_of_mem_ite h)
      split at h
      · next set c hset hc =>
          split at h
          · next hmem =>
              obtain rfl := List.mem_singleton.1 h
              exact ⟨[], .chars hset (Array.getElem?_toList ▸ hc) hmem, fun _ => rfl⟩
          · cases h
      · cases h
  | tag t =>
      rw [matchesFrom] at h
      obtain rfl := List.mem_singleton.1 (mem_of_mem_ite (mem_of_mem_ite h))
      refine ⟨[(t, i)], .tag hi, fun s => ?_⟩
      rw [Match.capture, OrderedMap.get?_insert, lastOf?_cons, lastOf?_nil]
      by_cases hs : s = t
      · simp [hs]
      · have hne : t ≠ s := fun he => hs he.symm
        simp [hs, hne, Match.bare]
  | action id =>
      rw [matchesFrom] at h
      obtain rfl := List.mem_singleton.1 (mem_of_mem_ite (mem_of_mem_ite h))
      exact ⟨[], .action hi, fun _ => rfl⟩
  | alt l r ihl ihr =>
      rw [matchesFrom] at h
      rcases List.mem_append.1 (mem_of_mem_ite (mem_of_mem_ite h)) with hl | hr
      · obtain ⟨log, hread, hget⟩ := ihl hi hl
        exact ⟨log, .altLeft hread, hget⟩
      · obtain ⟨log, hread, hget⟩ := ihr hi hr
        exact ⟨log, .altRight hread, hget⟩
  | seq a b iha ihb =>
      rw [matchesFrom] at h
      exact finds_of_mem_followed (fun m hm => iha hi hm) (fun j e hj m hm => ihb hj hm)
        (mem_of_mem_ite (mem_of_mem_ite h))
  | star q ih =>
      rw [matchesFrom] at h
      have h := mem_of_mem_ite (mem_of_mem_ite h)
      rcases List.mem_append.1 h with hhead | htwice
      · rcases List.mem_cons.1 hhead with rfl | honce
        · exact ⟨[], .starNil hi, fun _ => rfl⟩
        · exact (ih hi honce).once
      · exact (finds_of_mem_followed (fun m hm => ih hi hm) (fun j e hj m hm => ih hj hm)
          (mem_of_mem_ite htwice)).twice

theorem finds_followed (hi : i ≤ text.size)
    (h : m ∈ followed (a.matchesFrom pool text i atEof) (b.matchesFrom pool text)) :
    Finds pool text (seq a b) i m :=
  finds_of_mem_followed (fun _ => finds_of_mem_matchesFrom a hi)
    (fun _ _ hj _ => finds_of_mem_matchesFrom b hj) h

/-- Behind the end of the input nothing but a mark is crossed. -/
theorem matchesFrom_of_not_isMark (hp : p.isMark = false) :
    p.matchesFrom pool text i true = [] := by
  unfold matchesFrom
  rw [hp]
  split <;> rfl

theorem matchesFrom_epsilon :
    epsilon.matchesFrom pool text i false = [.bare i false] :=
  rfl

theorem matchesFrom_tag {t : Tag} :
    (tag t).matchesFrom pool text i atEof = [(Match.bare i atEof).capture t i] := by
  cases atEof <;> rfl

theorem matchesFrom_alt (hi : i ≤ text.size) :
    (alt l r).matchesFrom pool text i false =
      l.matchesFrom pool text i false ++ r.matchesFrom pool text i false := by
  have hfinds : ∀ m ∈ l.matchesFrom pool text i false ++ r.matchesFrom pool text i false,
      Finds pool text (alt l r) i m := by
    intro m hm
    rcases List.mem_append.1 hm with hl | hr
    · obtain ⟨log, hread, hget⟩ := finds_of_mem_matchesFrom l hi hl
      exact ⟨log, .altLeft hread, hget⟩
    · obtain ⟨log, hread, hget⟩ := finds_of_mem_matchesFrom r hi hr
      exact ⟨log, .altRight hread, hget⟩
  exact Finds.unpruned hfinds

theorem matchesFrom_seq (hi : i ≤ text.size) :
    (seq a b).matchesFrom pool text i false =
      followed (a.matchesFrom pool text i false) (b.matchesFrom pool text) :=
  Finds.unpruned (p := seq a b) fun _ hm => finds_followed hi hm

theorem matchesFrom_star (hi : i ≤ text.size) :
    (star p).matchesFrom pool text i false =
      .bare i false :: p.matchesFrom pool text i false ++
        followed (p.matchesFrom pool text i false) (p.matchesFrom pool text) := by
  have htwice : (if isTooLong (seq p p).size? (text.size - i) then [] else
      followed (p.matchesFrom pool text i false) (p.matchesFrom pool text)) =
        followed (p.matchesFrom pool text i false) (p.matchesFrom pool text) :=
    Finds.unpruned fun m hm => finds_followed hi hm
  show Match.bare i false :: _ ++ (if isTooLong (seq p p).size? (text.size - i) then [] else _) = _
  rw [htwice]

end Tagged

end LexTags
