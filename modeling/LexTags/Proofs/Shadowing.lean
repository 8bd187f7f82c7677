import LexTags.Pattern.Shadowing
import LexTags.Proofs.Log
import LexTags.Proofs.Reads
import LexTags.Proofs.Usage

/-!
# Shadowed bindings are never missed

A pattern and the same pattern without its shadowed bindings match the same texts, and leave
the same span under each name. Below a binding of a name the two may well disagree on that
name, since there the shadowed bindings have been dropped on one side only. So the induction
carries the names of the enclosing bindings along, and claims agreement outside of them; the
binding itself then settles its name on both sides at once.

The names of the enclosing bindings are kept in one set while a pattern is worked on. Since each
binding takes out the name that it has put in, the set is the same on both sides of any part, and
so what becomes of a part depends on the names around it alone. `stripUnder` says so, and stands
for the run in all that follows.

What comes out has no binding inside another one of its name, which is all that the encoding
asks of it.
-/

namespace LexTags.Pattern

/-- The pattern without the bindings that stand inside one of the same name, or inside a
binding of a name in `enclosing`. -/
def stripUnder (enclosing : List String) : Pattern → Pattern
  | alt l r =>
      if (alt l r).hasBindings then either (l.stripUnder enclosing) (r.stripUnder enclosing)
      else alt l r
  | seq a b =>
      if (seq a b).hasBindings then a.stripUnder enclosing ++ b.stripUnder enclosing
      else seq a b
  | star p => if p.hasBindings then many (p.stripUnder enclosing) else star p
  | bind name p =>
      if name ∈ enclosing then p.stripUnder enclosing
      else bind name (p.stripUnder (name :: enclosing))
  | p => p

/-- A run with the enclosing names in its set leaves the set as it was. -/
theorem strip_run (p : Pattern) {s : OrderedSet String} {enclosing : List String}
    (h : ∀ n, n ∈ s ↔ n ∈ enclosing) : p.strip.run s = (p.stripUnder enclosing, s) := by
  induction p generalizing s enclosing with
  | epsilon | eof | chars _ => rfl
  | alt l r ihl ihr =>
      rw [strip, stripUnder]
      cases (alt l r).hasBindings with
      | false => rfl
      | true =>
          show (let (left, s) := l.strip.run s
            let (right, s) := r.strip.run s
            (either left right, s)) = _
          simp only [ihl h, ihr h, if_true]
  | seq a b iha ihb =>
      rw [strip, stripUnder]
      cases (seq a b).hasBindings with
      | false => rfl
      | true =>
          show (let (first, s) := a.strip.run s
            let (second, s) := b.strip.run s
            (first ++ second, s)) = _
          simp only [iha h, ihb h, if_true]
  | star p ih =>
      rw [strip, stripUnder, hasBindings]
      cases p.hasBindings with
      | false => rfl
      | true =>
          show (let (body, s) := p.strip.run s
            (many body, s)) = _
          simp only [ih h, if_true]
  | bind name p ih =>
      have hrun : (bind name p).strip.run s =
          (if name ∈ s then p.strip
            else do
              modify (·.insert name)
              let body ← p.strip
              modify (·.swapRemove name)
              return bind name body).run s := rfl
      rw [hrun, stripUnder]
      by_cases hname : name ∈ s
      · rw [if_pos hname, if_pos ((h name).1 hname), ih h]
      · have hinside : ∀ n, n ∈ s.insert name ↔ n ∈ name :: enclosing := by
          intro n
          rw [OrderedSet.mem_insert, List.mem_cons, h, or_comm]
        rw [if_neg hname, if_neg (mt (h name).2 hname)]
        show (let (body, s) := p.strip.run (s.insert name)
          (bind name body, s.swapRemove name)) = _
        rw [ih hinside]
        exact Prod.ext rfl (OrderedSet.swapRemove_insert hname)

theorem withoutShadowed_eq (p : Pattern) : p.withoutShadowed = p.stripUnder [] := by
  have hempty : ∀ n, n ∈ OrderedSet.empty ↔ n ∈ ([] : List String) := fun n =>
    iff_of_false (OrderedSet.not_mem_empty n) List.not_mem_nil
  rw [withoutShadowed, strip_run p hempty]

/-- A pattern that names nothing is left alone. -/
theorem stripUnder_of_not_hasBindings {p : Pattern} (h : p.hasBindings = false)
    (enclosing : List String) : p.stripUnder enclosing = p := by
  match p with
  | epsilon | eof | chars _ => rfl
  | alt l r => rw [stripUnder, h]; rfl
  | seq a b => rw [stripUnder, h]; rfl
  | star p => rw [hasBindings] at h; rw [stripUnder, h]; rfl
  | bind _ _ => simp [hasBindings] at h

/-- The logs leave the same span under each name that is not in `enclosing`. -/
def AgreeOutside (enclosing : List String) (log log' : List (String × Span)) : Prop :=
  ∀ n, n ∉ enclosing → lastOf? log n = lastOf? log' n

theorem AgreeOutside.append {enclosing : List String} {log log' rest rest' : List (String × Span)}
    (h : AgreeOutside enclosing log log') (hrest : AgreeOutside enclosing rest rest') :
    AgreeOutside enclosing (log ++ rest) (log' ++ rest') := by
  intro n hn
  rw [lastOf?_append, lastOf?_append, h n hn, hrest n hn]

/-- A binding of an enclosing name is not seen outside. -/
theorem AgreeOutside.drop_last {enclosing : List String} {log log' : List (String × Span)}
    {name : String} {s : Span} (hname : name ∈ enclosing) (h : AgreeOutside enclosing log log') :
    AgreeOutside enclosing log (log' ++ [(name, s)]) := by
  intro n hn
  have hne : name ≠ n := fun he => hn (he ▸ hname)
  rw [lastOf?_append, lastOf?_cons, lastOf?_nil, if_neg hne, h n hn]
  rfl

/-- A binding brings its own name back into agreement. -/
theorem AgreeOutside.bind {enclosing : List String} {log log' : List (String × Span)}
    {name : String} {s : Span} (h : AgreeOutside (name :: enclosing) log log') :
    AgreeOutside enclosing (log ++ [(name, s)]) (log' ++ [(name, s)]) := by
  intro n hn
  rw [lastOf?_append, lastOf?_append]
  by_cases hne : name = n
  · rw [lastOf?_cons, if_pos hne]
    rfl
  · have hnot : n ∉ name :: enclosing := by
      rw [List.mem_cons, not_or]
      exact ⟨fun he => hne he.symm, hn⟩
    rw [h n hnot]

variable {w : Text} {p l r a b : Pattern} {i j : Nat} {log : List (String × Span)}
  {enclosing : List String}

theorem reads_stripUnder_alt_iff :
    Reads w ((alt l r).stripUnder enclosing) i j log ↔
      Reads w (alt (l.stripUnder enclosing) (r.stripUnder enclosing)) i j log := by
  rw [stripUnder]
  split
  · exact reads_either_iff
  · next h =>
      rw [hasBindings, Bool.or_eq_true, not_or, Bool.not_eq_true, Bool.not_eq_true] at h
      rw [stripUnder_of_not_hasBindings h.1, stripUnder_of_not_hasBindings h.2]

theorem reads_stripUnder_seq_iff :
    Reads w ((seq a b).stripUnder enclosing) i j log ↔
      Reads w (seq (a.stripUnder enclosing) (b.stripUnder enclosing)) i j log := by
  rw [stripUnder]
  split
  · exact reads_append_iff
  · next h =>
      rw [hasBindings, Bool.or_eq_true, not_or, Bool.not_eq_true, Bool.not_eq_true] at h
      rw [stripUnder_of_not_hasBindings h.1, stripUnder_of_not_hasBindings h.2]

theorem reads_stripUnder_star_iff :
    Reads w ((star p).stripUnder enclosing) i j log ↔
      Reads w (star (p.stripUnder enclosing)) i j log := by
  rw [stripUnder]
  split
  · exact reads_many_iff
  · next h => rw [stripUnder_of_not_hasBindings (Bool.eq_false_iff.2 h)]

/-- Every match is still one when shadowed bindings are dropped. -/
theorem Reads.stripUnder (h : Reads w p i j log) (enclosing : List String) :
    ∃ log', Reads w (p.stripUnder enclosing) i j log' ∧ AgreeOutside enclosing log' log := by
  induction h generalizing enclosing with
  | epsilon hi => exact ⟨[], .epsilon hi, fun _ _ => rfl⟩
  | eof => exact ⟨[], .eof, fun _ _ => rfl⟩
  | chars hc hset => exact ⟨[], .chars hc hset, fun _ _ => rfl⟩
  | altLeft _ ih =>
      obtain ⟨log', h, hagree⟩ := ih enclosing
      exact ⟨log', reads_stripUnder_alt_iff.2 (.altLeft h), hagree⟩
  | altRight _ ih =>
      obtain ⟨log', h, hagree⟩ := ih enclosing
      exact ⟨log', reads_stripUnder_alt_iff.2 (.altRight h), hagree⟩
  | seq _ _ iha ihb =>
      obtain ⟨first, ha, hfirst⟩ := iha enclosing
      obtain ⟨second, hb, hsecond⟩ := ihb enclosing
      exact ⟨_, reads_stripUnder_seq_iff.2 (.seq ha hb), hfirst.append hsecond⟩
  | starNil hi => exact ⟨[], reads_stripUnder_star_iff.2 (.starNil hi), fun _ _ => rfl⟩
  | starCons _ _ ihp ihs =>
      obtain ⟨round, hp, hround⟩ := ihp enclosing
      obtain ⟨rounds, hs, hrounds⟩ := ihs enclosing
      rw [reads_stripUnder_star_iff] at hs
      exact ⟨_, reads_stripUnder_star_iff.2 (.starCons hp hs), hround.append hrounds⟩
  | @bind name _ _ _ _ _ ih =>
      by_cases hname : name ∈ enclosing
      · obtain ⟨log', h, hagree⟩ := ih enclosing
        rw [Pattern.stripUnder, if_pos hname]
        exact ⟨log', h, hagree.drop_last hname⟩
      · obtain ⟨log', h, hagree⟩ := ih (name :: enclosing)
        rw [Pattern.stripUnder, if_neg hname]
        exact ⟨_, .bind h, hagree.bind⟩

/-- Dropping shadowed bindings does not add a match. -/
theorem exists_reads_of_stripUnder (p : Pattern) :
    ∀ {enclosing : List String} {i j : Nat} {log' : List (String × Span)},
      Reads w (p.stripUnder enclosing) i j log' →
      ∃ log, Reads w p i j log ∧ AgreeOutside enclosing log' log := by
  induction p with
  | epsilon | eof | chars _ =>
      intro _ _ _ log' h
      exact ⟨log', h, fun _ _ => rfl⟩
  | alt l r ihl ihr =>
      intro _ _ _ _ h
      rcases reads_alt_iff.1 (reads_stripUnder_alt_iff.1 h) with hl | hr
      · obtain ⟨log, h, hagree⟩ := ihl hl
        exact ⟨log, .altLeft h, hagree⟩
      · obtain ⟨log, h, hagree⟩ := ihr hr
        exact ⟨log, .altRight h, hagree⟩
  | seq a b iha ihb =>
      intro _ _ _ _ h
      obtain ⟨_, _, _, ha, hb, rfl⟩ := reads_seq_iff.1 (reads_stripUnder_seq_iff.1 h)
      obtain ⟨first, ha, hfirst⟩ := iha ha
      obtain ⟨second, hb, hsecond⟩ := ihb hb
      exact ⟨_, .seq ha hb, hfirst.append hsecond⟩
  | star p ih =>
      intro enclosing _ _ _ h
      refine Reads.starInduction (motive := fun i j log' =>
        ∃ log, Reads w (star p) i j log ∧ AgreeOutside enclosing log' log) ?_ ?_
        (reads_stripUnder_star_iff.1 h)
      · intro _ hi
        exact ⟨[], .starNil hi, fun _ _ => rfl⟩
      · intro _ _ _ _ _ hbody _ ⟨rounds, hs, hrounds⟩
        obtain ⟨round, hp, hround⟩ := ih hbody
        exact ⟨_, .starCons hp hs, hround.append hrounds⟩
  | bind name p ih =>
      intro enclosing _ _ _ h
      rw [Pattern.stripUnder] at h
      by_cases hname : name ∈ enclosing
      · rw [if_pos hname] at h
        obtain ⟨log, h, hagree⟩ := ih h
        exact ⟨_, .bind h, hagree.drop_last hname⟩
      · rw [if_neg hname] at h
        cases h with
        | bind h =>
            obtain ⟨log, h, hagree⟩ := ih h
            exact ⟨_, .bind h, hagree.bind⟩

/-! ## Nothing is shadowed any more -/

/-- No binding stands inside another one of its name. -/
def Unshadowed : Pattern → Prop
  | alt l r => l.Unshadowed ∧ r.Unshadowed
  | seq a b => a.Unshadowed ∧ b.Unshadowed
  | star p => p.Unshadowed
  | bind name p => name ∉ p.names ∧ p.Unshadowed
  | _ => True

theorem names_eq_nil_iff : p.names = [] ↔ p.hasBindings = false := by
  induction p with
  | epsilon | eof | chars _ => exact ⟨fun _ => rfl, fun _ => rfl⟩
  | alt l r ihl ihr =>
      rw [names, hasBindings, List.append_eq_nil_iff, Bool.or_eq_false_iff, ihl, ihr]
  | seq a b iha ihb =>
      rw [names, hasBindings, List.append_eq_nil_iff, Bool.or_eq_false_iff, iha, ihb]
  | star p ih => rw [names, hasBindings, ih]
  | bind _ _ _ => exact iff_of_false (List.cons_ne_nil _ _) Bool.noConfusion

theorem unshadowed_of_not_hasBindings (h : p.hasBindings = false) : p.Unshadowed := by
  induction p with
  | epsilon | eof | chars _ => trivial
  | alt l r ihl ihr =>
      rw [hasBindings, Bool.or_eq_false_iff] at h
      exact ⟨ihl h.1, ihr h.2⟩
  | seq a b iha ihb =>
      rw [hasBindings, Bool.or_eq_false_iff] at h
      exact ⟨iha h.1, ihb h.2⟩
  | star p ih => exact ih h
  | bind _ _ _ => cases h

theorem names_append : (a ++ b).names = a.names ++ b.names := by
  by_cases ha : a = epsilon
  · rw [ha, epsilon_append]
    rfl
  · by_cases hb : b = epsilon
    · rw [hb, append_epsilon]
      exact (List.append_nil _).symm
    · rw [append_of_ne ha hb, names]

theorem Unshadowed.append (ha : a.Unshadowed) (hb : b.Unshadowed) : (a ++ b).Unshadowed := by
  by_cases hae : a = epsilon
  · rw [hae, epsilon_append]
    exact hb
  · by_cases hbe : b = epsilon
    · rw [hbe, append_epsilon]
      exact ha
    · rw [append_of_ne hae hbe]
      exact ⟨ha, hb⟩

theorem mem_names_either {n : String} (h : n ∈ (either l r).names) :
    n ∈ l.names ∨ n ∈ r.names := by
  by_cases hlr : l = r
  · rw [hlr, either_self] at h
    exact .inr h
  · rw [either_of_ne hlr, names] at h
    exact List.mem_append.1 h

theorem Unshadowed.either (hl : l.Unshadowed) (hr : r.Unshadowed) :
    (Pattern.either l r).Unshadowed := by
  by_cases hlr : l = r
  · rw [hlr, either_self]
    exact hr
  · rw [either_of_ne hlr]
    exact ⟨hl, hr⟩

theorem names_many : (many p).names = p.names := by
  by_cases hp : p = epsilon
  · rw [hp]
    rfl
  · rw [many_of_ne hp, names]

theorem Unshadowed.many (h : p.Unshadowed) : (Pattern.many p).Unshadowed := by
  by_cases hp : p = epsilon
  · rw [hp]
    trivial
  · rw [many_of_ne hp]
    exact h

/-- What is left is bound in the pattern, and by no enclosing binding. -/
theorem mem_names_stripUnder {n : String} (h : n ∈ (p.stripUnder enclosing).names) :
    n ∈ p.names ∧ n ∉ enclosing := by
  induction p generalizing enclosing with
  | epsilon | eof | chars _ => cases h
  | alt l r ihl ihr =>
      rw [Pattern.stripUnder] at h
      split at h
      · rcases mem_names_either h with hl | hr
        · exact ⟨List.mem_append_left _ (ihl hl).1, (ihl hl).2⟩
        · exact ⟨List.mem_append_right _ (ihr hr).1, (ihr hr).2⟩
      · next hb =>
          rw [names_eq_nil_iff.2 (Bool.eq_false_iff.2 hb)] at h
          cases h
  | seq a b iha ihb =>
      rw [Pattern.stripUnder] at h
      split at h
      · rw [names_append] at h
        rcases List.mem_append.1 h with ha | hb
        · exact ⟨List.mem_append_left _ (iha ha).1, (iha ha).2⟩
        · exact ⟨List.mem_append_right _ (ihb hb).1, (ihb hb).2⟩
      · next hb =>
          rw [names_eq_nil_iff.2 (Bool.eq_false_iff.2 hb)] at h
          cases h
  | star p ih =>
      rw [Pattern.stripUnder] at h
      split at h
      · rw [names_many] at h
        exact ih h
      · next hb =>
          rw [names, names_eq_nil_iff.2 (Bool.eq_false_iff.2 hb)] at h
          cases h
  | bind name p ih =>
      rw [Pattern.stripUnder] at h
      split at h
      · exact ⟨List.mem_cons_of_mem _ (ih h).1, (ih h).2⟩
      · next hname =>
          rcases List.mem_cons.1 h with rfl | h
          · exact ⟨List.mem_cons_self, hname⟩
          · exact ⟨List.mem_cons_of_mem _ (ih h).1,
              fun hn => (ih h).2 (List.mem_cons_of_mem _ hn)⟩

theorem unshadowed_stripUnder (p : Pattern) (enclosing : List String) :
    (p.stripUnder enclosing).Unshadowed := by
  induction p generalizing enclosing with
  | epsilon | eof | chars _ => trivial
  | alt l r ihl ihr =>
      rw [Pattern.stripUnder]
      split
      · exact (ihl _).either (ihr _)
      · next hb => exact unshadowed_of_not_hasBindings (Bool.eq_false_iff.2 hb)
  | seq a b iha ihb =>
      rw [Pattern.stripUnder]
      split
      · exact (iha _).append (ihb _)
      · next hb => exact unshadowed_of_not_hasBindings (Bool.eq_false_iff.2 hb)
  | star p ih =>
      rw [Pattern.stripUnder]
      split
      · exact (ih _).many
      · next hb => exact unshadowed_of_not_hasBindings (Bool.eq_false_iff.2 hb)
  | bind name p ih =>
      rw [Pattern.stripUnder]
      split
      · exact ih _
      · exact ⟨fun hn => (mem_names_stripUnder hn).2 List.mem_cons_self, ih _⟩

theorem unshadowed_withoutShadowed (p : Pattern) : p.withoutShadowed.Unshadowed := by
  rw [withoutShadowed_eq]
  exact unshadowed_stripUnder p []

/-- The same spans are left under all names, whether or not shadowed bindings are dropped. -/
theorem reads_withoutShadowed_iff (p : Pattern) (w : Text) (i j : Nat) (f : String → Option Span) :
    (∃ log, Reads w p.withoutShadowed i j log ∧ lastOf? log = f) ↔
      ∃ log, Reads w p i j log ∧ lastOf? log = f := by
  rw [withoutShadowed_eq]
  constructor
  · rintro ⟨log', h, rfl⟩
    obtain ⟨log, h, hagree⟩ := exists_reads_of_stripUnder p h
    exact ⟨log, h, funext fun n => (hagree n List.not_mem_nil).symm⟩
  · rintro ⟨log, h, rfl⟩
    obtain ⟨log', h, hagree⟩ := h.stripUnder []
    exact ⟨log', h, funext fun n => hagree n List.not_mem_nil⟩

end LexTags.Pattern
