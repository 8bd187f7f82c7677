import LexTags.Proofs.Log
import LexTags.Proofs.Shadowing
import LexTags.Proofs.Spine

/-!
# The encoding keeps the matches

The encoding threads the pool through the pattern only to number the leaves. `encodeFrom` is
the same translation with the first number given instead, and `encode_run` says so: the
expression depends on the pool by its size alone, and the sets of the leaves are added to it
in order. Everything else here is about `encodeFrom`.

The log of a match and the log of its encoding tell the same story if the last crossings of
the tags of each name are the ends of its last span. `Marks` is that correspondence. It is
kept when logs are joined, because a last entry is looked for from the right on both sides,
and a binding restores it for its own name, provided that the body does not cross the tags of
that name as well. This is where it matters that nothing is shadowed.
-/

namespace LexTags

/-- The logs agree on the ends of each name; names in `charNames` have no closing tags. -/
def Marks (charNames : OrderedSet String) (log : List (String × Span))
    (marks : List (Tag × Nat)) : Prop :=
  ∀ n, lastCrossing? marks (.opening n) = (lastOf? log n).map Span.start ∧
    (n ∉ charNames → lastCrossing? marks (.closing n) = (lastOf? log n).map Span.stop)

theorem Marks.append {charNames : OrderedSet String} {log rest : List (String × Span)}
    {marks marks' : List (Tag × Nat)} (h : Marks charNames log marks)
    (hrest : Marks charNames rest marks') :
    Marks charNames (log ++ rest) (marks ++ marks') := by
  intro n
  rw [lastCrossing?_append, lastCrossing?_append, lastOf?_append, Option.map_or, Option.map_or]
  refine ⟨by rw [(h n).1, (hrest n).1], fun hn => ?_⟩
  rw [(h n).2 hn, (hrest n).2 hn]

namespace Pattern

/-- The sets of the leaves, from left to right. -/
def leaves : Pattern → List CharSet
  | eof => [.eof]
  | chars set => [set]
  | alt l r => l.leaves ++ r.leaves
  | seq a b => a.leaves ++ b.leaves
  | star p => p.leaves
  | bind _ p => p.leaves
  | epsilon => []

/-- The expression of a pattern whose leaves are numbered from `n` on. -/
def encodeFrom (charNames : OrderedSet String) (action : Nat) : Pattern → Nat → Tagged
  | epsilon, _ => .epsilon
  | eof, n => .eof n
  | chars _, n => .chars n
  | alt l r, n =>
      .either (l.encodeFrom charNames action n)
        (r.encodeFrom charNames action (n + l.leaves.length))
  | seq a b, n =>
      a.encodeFrom charNames action n ++
        b.encodeFrom charNames action (n + a.leaves.length)
  | star p, n => .many (p.encodeFrom charNames action n)
  | bind name p, n => .bound charNames action name (p.encodeFrom charNames action n)

variable {charNames : OrderedSet String} {action : Nat}

/-- The pool is read by its size only, and the sets of the leaves go to its end. -/
theorem encode_run (p : Pattern) (pool : Pool) :
    (p.encode charNames action).run pool =
      (p.encodeFrom charNames action pool.size, pool ++ p.leaves.toArray) := by
  induction p generalizing pool with
  | epsilon => exact Prod.ext rfl (Array.append_empty).symm
  | eof | chars _ => exact Prod.ext rfl (Array.push_eq_append ..)
  | alt l r ihl ihr =>
      have h : ((alt l r).encode charNames action).run pool =
          let (left, pool) := (l.encode charNames action).run pool
          let (right, pool) := (r.encode charNames action).run pool
          (.either left right, pool) := rfl
      rw [h, ihl]
      simp only [ihr, encodeFrom, leaves, Array.size_append, List.size_toArray,
        Array.append_assoc, List.append_toArray]
  | seq a b iha ihb =>
      have h : ((seq a b).encode charNames action).run pool =
          let (first, pool) := (a.encode charNames action).run pool
          let (second, pool) := (b.encode charNames action).run pool
          (first ++ second, pool) := rfl
      rw [h, iha]
      simp only [ihb, encodeFrom, leaves, Array.size_append, List.size_toArray,
        Array.append_assoc, List.append_toArray]
  | star p ih =>
      have h : ((star p).encode charNames action).run pool =
          let (body, pool) := (p.encode charNames action).run pool
          (.many body, pool) := rfl
      rw [h, ih]
      rfl
  | bind name p ih =>
      have h : ((bind name p).encode charNames action).run pool =
          let (body, pool) := (p.encode charNames action).run pool
          (.bound charNames action name body, pool) := rfl
      rw [h, ih]
      rfl

/-- The pool holds the sets at the indices from `n` on. -/
def Holds (pool : Pool) (n : Nat) (sets : List CharSet) : Prop :=
  ∀ (k : Nat) (set : CharSet), sets[k]? = some set → pool[n + k]? = some set

theorem Holds.left {pool : Pool} {n : Nat} {sets rest : List CharSet}
    (h : Holds pool n (sets ++ rest)) : Holds pool n sets := by
  intro k set hk
  obtain ⟨hlt, -⟩ := List.getElem?_eq_some_iff.1 hk
  exact h k set ((List.getElem?_append_left hlt).trans hk)

theorem Holds.right {pool : Pool} {n : Nat} {sets rest : List CharSet}
    (h : Holds pool n (sets ++ rest)) : Holds pool (n + sets.length) rest := by
  intro k set hk
  rw [Nat.add_assoc]
  refine h _ set ?_
  rw [List.getElem?_append_right (Nat.le_add_right ..), Nat.add_sub_cancel_left]
  exact hk

/-- The pool that an encoding leaves holds its sets. -/
theorem holds_append (pool : Pool) (sets : List CharSet) :
    Holds (pool ++ sets.toArray) pool.size sets := by
  intro k set hk
  rw [Array.getElem?_append_right (Nat.le_add_right ..), Nat.add_sub_cancel_left,
    List.getElem?_toArray]
  exact hk

/-! ## Tags around a body -/

/-- The tags behind the body of a binding. -/
def closingMarks (charNames : OrderedSet String) (action : Nat) (name : String) (j : Nat) :
    List (Tag × Nat) :=
  if name ∈ charNames then [] else [(⟨.closing name, action⟩, j)]

theorem reads_bound_iff {pool : Pool} {w : Text} {name : String} {body : Tagged} {i j : Nat}
    {marks : List (Tag × Nat)} :
    (Tagged.bound charNames action name body).Reads pool w i j marks ↔
      ∃ inner, body.Reads pool w i j inner ∧
        marks =
          (⟨.opening name, action⟩, i) :: (inner ++ closingMarks charNames action name j) := by
  rw [Tagged.bound, closingMarks]
  split
  · rw [Tagged.reads_append_iff, Tagged.reads_seq_iff]
    refine ⟨?_, ?_⟩
    · rintro ⟨m, first, inner, hopen, hbody, rfl⟩
      obtain ⟨rfl, rfl, -⟩ := Tagged.reads_tag_iff.1 hopen
      exact ⟨inner, hbody, by rw [List.append_nil]; rfl⟩
    · rintro ⟨inner, hbody, rfl⟩
      rw [List.append_nil]
      exact ⟨i, _, inner, .tag (Nat.le_trans hbody.bounds.1 hbody.bounds.2), hbody, rfl⟩
  · rw [Tagged.reads_append_iff, Tagged.reads_seq_iff]
    simp only [Tagged.reads_append_iff, Tagged.reads_seq_iff]
    refine ⟨?_, ?_⟩
    · rintro ⟨m, first, _, hopen, ⟨m', inner, last, hbody, hclose, rfl⟩, rfl⟩
      obtain ⟨rfl, rfl, -⟩ := Tagged.reads_tag_iff.1 hopen
      obtain ⟨rfl, rfl, -⟩ := Tagged.reads_tag_iff.1 hclose
      exact ⟨inner, hbody, rfl⟩
    · rintro ⟨inner, hbody, rfl⟩
      exact ⟨i, _, _, .tag (Nat.le_trans hbody.bounds.1 hbody.bounds.2),
        ⟨j, inner, _, hbody, .tag hbody.bounds.2, rfl⟩, rfl⟩

/-- Around a body that does not bind the name, the tags mark the span of the binding. -/
theorem marks_bound {name : String} {log : List (String × Span)} {inner : List (Tag × Nat)}
    {i j : Nat} (hname : lastOf? log name = none) (h : Marks charNames log inner) :
    Marks charNames (log ++ [(name, ⟨i, j⟩)])
      ((⟨.opening name, action⟩, i) :: (inner ++ closingMarks charNames action name j)) := by
  intro n
  rw [lastCrossing?_cons, lastCrossing?_cons, lastCrossing?_append, lastCrossing?_append,
    lastOf?_append, lastOf?_cons, lastOf?_nil, closingMarks]
  by_cases hn : name = n
  · subst hn
    obtain ⟨hopen, hclose⟩ := h name
    rw [hname, Option.map_none] at hopen hclose
    rw [hopen, if_pos rfl]
    refine ⟨?_, fun hchar => ?_⟩
    · split <;> simp [lastCrossing?_cons, Boundary.opening, Boundary.closing]
    · rw [hclose hchar, if_neg hchar]
      simp [lastCrossing?_cons]
  · have hopen : Boundary.opening name ≠ .opening n := fun he => hn (Boundary.mk.inj he).1
    have hclose : Boundary.closing name ≠ .closing n := fun he => hn (Boundary.mk.inj he).1
    have hside : Boundary.closing name ≠ .opening n :=
      fun he => Side.noConfusion (Boundary.mk.inj he).2
    have hside' : Boundary.opening name ≠ .closing n :=
      fun he => Side.noConfusion (Boundary.mk.inj he).2
    rw [if_neg hn, if_neg hopen, if_neg hside', (h n).1]
    refine ⟨?_, fun hchar => ?_⟩
    · split <;> simp [lastCrossing?_cons, hside]
    · rw [(h n).2 hchar]
      split <;> simp [lastCrossing?_cons, hclose]

/-! ## Matches -/

variable {pool : Pool} {w : Text} {p : Pattern} {i j : Nat} {log : List (String × Span)}

/-- What is not a name of the pattern is left without a span. -/
theorem Reads.lastOf?_eq_none (h : Reads w p i j log) {n : String} (hn : n ∉ p.names) :
    lastOf? log n = none :=
  lastOf?_eq_none_iff.2 fun _ he hen => hn (hen ▸ h.mem_names he)

/-- Every match is one of the encoding, with the same ends of each name. -/
theorem Reads.encodeFrom (h : Reads w p i j log) (hp : p.Unshadowed) {n : Nat}
    (hpool : Holds pool n p.leaves) :
    ∃ marks, (p.encodeFrom charNames action n).Reads pool w i j marks ∧
      Marks charNames log marks := by
  induction h generalizing n with
  | epsilon hi => exact ⟨[], .epsilon hi, fun _ => ⟨rfl, fun _ => rfl⟩⟩
  | eof => exact ⟨[], .eof, fun _ => ⟨rfl, fun _ => rfl⟩⟩
  | chars hc hset =>
      exact ⟨[], .chars (hpool 0 _ rfl) hc hset, fun _ => ⟨rfl, fun _ => rfl⟩⟩
  | altLeft _ ih =>
      obtain ⟨marks, hl, hmarks⟩ := ih hp.1 hpool.left
      exact ⟨marks, Tagged.reads_either_iff.2 (.altLeft hl), hmarks⟩
  | altRight _ ih =>
      obtain ⟨marks, hr, hmarks⟩ := ih hp.2 hpool.right
      exact ⟨marks, Tagged.reads_either_iff.2 (.altRight hr), hmarks⟩
  | seq _ _ iha ihb =>
      obtain ⟨first, ha, hfirst⟩ := iha hp.1 hpool.left
      obtain ⟨second, hb, hsecond⟩ := ihb hp.2 hpool.right
      exact ⟨_, Tagged.reads_append_iff.2 (.seq ha hb), hfirst.append hsecond⟩
  | starNil hi =>
      exact ⟨[], Tagged.reads_many_iff.2 (.starNil hi), fun _ => ⟨rfl, fun _ => rfl⟩⟩
  | starCons _ _ ihp ihs =>
      obtain ⟨round, hround, hmarks⟩ := ihp hp hpool
      obtain ⟨rounds, hrounds, hrest⟩ := ihs hp hpool
      exact ⟨_, Tagged.reads_many_iff.2 (.starCons hround (Tagged.reads_many_iff.1 hrounds)),
        hmarks.append hrest⟩
  | bind hbody ih =>
      obtain ⟨inner, hinner, hmarks⟩ := ih hp.2 hpool
      exact ⟨_, reads_bound_iff.2 ⟨inner, hinner, rfl⟩,
        marks_bound (hbody.lastOf?_eq_none hp.1) hmarks⟩

/-- The encoding has no other matches. -/
theorem exists_reads_of_encodeFrom (p : Pattern) :
    ∀ {n i j : Nat} {marks : List (Tag × Nat)}, p.Unshadowed → Holds pool n p.leaves →
      (p.encodeFrom charNames action n).Reads pool w i j marks →
      ∃ log, Reads w p i j log ∧ Marks charNames log marks := by
  induction p with
  | epsilon =>
      intro _ _ _ _ _ _ h
      cases h with
      | epsilon hi => exact ⟨[], .epsilon hi, fun _ => ⟨rfl, fun _ => rfl⟩⟩
  | eof =>
      intro _ _ _ _ _ _ h
      cases h with
      | eof => exact ⟨[], .eof, fun _ => ⟨rfl, fun _ => rfl⟩⟩
  | chars set =>
      intro _ _ _ _ _ hpool h
      cases h with
      | chars hid hc hset =>
          obtain rfl := Option.some.inj (hid.symm.trans (hpool 0 set rfl))
          exact ⟨[], .chars hc hset, fun _ => ⟨rfl, fun _ => rfl⟩⟩
  | alt l r ihl ihr =>
      intro _ _ _ _ hp hpool h
      rcases Tagged.reads_alt_iff.1 (Tagged.reads_either_iff.1 h) with hl | hr
      · obtain ⟨log, h, hmarks⟩ := ihl hp.1 hpool.left hl
        exact ⟨log, .altLeft h, hmarks⟩
      · obtain ⟨log, h, hmarks⟩ := ihr hp.2 hpool.right hr
        exact ⟨log, .altRight h, hmarks⟩
  | seq a b iha ihb =>
      intro _ _ _ _ hp hpool h
      obtain ⟨_, _, _, ha, hb, rfl⟩ := Tagged.reads_seq_iff.1 (Tagged.reads_append_iff.1 h)
      obtain ⟨first, ha, hfirst⟩ := iha hp.1 hpool.left ha
      obtain ⟨second, hb, hsecond⟩ := ihb hp.2 hpool.right hb
      exact ⟨_, .seq ha hb, hfirst.append hsecond⟩
  | star p ih =>
      intro n _ _ _ hp hpool h
      refine Tagged.Reads.starInduction (motive := fun i j marks =>
        ∃ log, Reads w (star p) i j log ∧ Marks charNames log marks) ?_ ?_
        (Tagged.reads_many_iff.1 h)
      · intro _ hi
        exact ⟨[], .starNil hi, fun _ => ⟨rfl, fun _ => rfl⟩⟩
      · intro _ _ _ _ _ hbody _ ⟨rounds, hs, hrounds⟩
        obtain ⟨round, hp, hround⟩ := ih hp hpool hbody
        exact ⟨_, .starCons hp hs, hround.append hrounds⟩
  | bind name p ih =>
      intro _ _ _ _ hp hpool h
      obtain ⟨inner, hinner, rfl⟩ := reads_bound_iff.1 h
      obtain ⟨log, hbody, hmarks⟩ := ih hp.2 hpool hinner
      exact ⟨_, .bind hbody, marks_bound (hbody.lastOf?_eq_none hp.1) hmarks⟩

end Pattern

end LexTags
