import LexTags.Proofs.Shadowing

/-!
# What is left without the shadowed bindings

Dropping shadowed bindings does two things to a tree in one walk. It takes out the bindings
that stand inside another one of their name and keeps their bodies, and it puts the nodes above
a binding together again with the constructors that simplify. Two relations take the walk
apart: `Drops` says which bindings go, by the names that are bound on their own path, and
`Tidies` says what becomes of a tree in which only that can happen which the simplifying
constructors do. What names something, what is nullable and what has a size then stays so.

In particular a binding that stands inside none of its name is still there afterwards, even
where two alternatives have become equal and count once. Dropping a second time finds nothing,
since by then every node above a binding is one that its constructor leaves as it is.
-/

namespace LexTags.Pattern

/-- The second pattern is the first one without the bindings that stand inside a binding of
their name, where `outer` names the bindings around the whole. -/
inductive Drops : List String → Pattern → Pattern → Prop where
  | epsilon {outer} : Drops outer epsilon epsilon
  | eof {outer} : Drops outer eof eof
  | chars {outer} (set : CharSet) : Drops outer (chars set) (chars set)
  | alt {outer l l' r r'} (hl : Drops outer l l') (hr : Drops outer r r') :
      Drops outer (alt l r) (alt l' r')
  | seq {outer a a' b b'} (ha : Drops outer a a') (hb : Drops outer b b') :
      Drops outer (seq a b) (seq a' b')
  | star {outer p p'} (hp : Drops outer p p') : Drops outer (star p) (star p')
  | dropped {outer name p p'} (hname : name ∈ outer) (hp : Drops outer p p') :
      Drops outer (bind name p) p'
  | kept {outer name p p'} (hname : name ∉ outer) (hp : Drops (name :: outer) p p') :
      Drops outer (bind name p) (bind name p')

/-- The second pattern is the first one with some of its nodes built by the simplifying
constructors. -/
inductive Tidies : Pattern → Pattern → Prop where
  | same (p : Pattern) : Tidies p p
  | alt {l l' r r'} (hl : Tidies l l') (hr : Tidies r r') : Tidies (alt l r) (either l' r')
  | seq {a a' b b'} (ha : Tidies a a') (hb : Tidies b b') : Tidies (seq a b) (a' ++ b')
  | star {p p'} (hp : Tidies p p') : Tidies (star p) (many p')
  | bind {p p'} (name : String) (hp : Tidies p p') : Tidies (bind name p) (bind name p')

variable {p l r a b : Pattern} {name : String} {outer enclosing : List String}

theorem drops_of_not_hasBindings (h : p.hasBindings = false) : Drops outer p p := by
  induction p with
  | epsilon => exact .epsilon
  | eof => exact .eof
  | chars set => exact .chars set
  | alt l r ihl ihr =>
      rw [hasBindings, Bool.or_eq_false_iff] at h
      exact .alt (ihl h.1) (ihr h.2)
  | seq a b iha ihb =>
      rw [hasBindings, Bool.or_eq_false_iff] at h
      exact .seq (iha h.1) (ihb h.2)
  | star p ih => exact .star (ih h)
  | bind _ _ _ => cases h

/-- The walk drops the shadowed bindings and simplifies, and does nothing else. -/
theorem exists_drops_tidies (p : Pattern) (enclosing : List String) :
    ∃ q, Drops enclosing p q ∧ Tidies q (p.stripUnder enclosing) := by
  induction p generalizing enclosing with
  | epsilon => exact ⟨_, .epsilon, .same _⟩
  | eof => exact ⟨_, .eof, .same _⟩
  | chars set => exact ⟨_, .chars set, .same _⟩
  | alt l r ihl ihr =>
      rw [stripUnder]
      split
      · obtain ⟨l', hl, hl'⟩ := ihl enclosing
        obtain ⟨r', hr, hr'⟩ := ihr enclosing
        exact ⟨_, .alt hl hr, .alt hl' hr'⟩
      · next h => exact ⟨_, drops_of_not_hasBindings (Bool.eq_false_iff.2 h), .same _⟩
  | seq a b iha ihb =>
      rw [stripUnder]
      split
      · obtain ⟨a', ha, ha'⟩ := iha enclosing
        obtain ⟨b', hb, hb'⟩ := ihb enclosing
        exact ⟨_, .seq ha hb, .seq ha' hb'⟩
      · next h => exact ⟨_, drops_of_not_hasBindings (Bool.eq_false_iff.2 h), .same _⟩
  | star p ih =>
      rw [stripUnder]
      split
      · obtain ⟨p', hp, hp'⟩ := ih enclosing
        exact ⟨_, .star hp, .star hp'⟩
      · next h => exact ⟨_, .star (drops_of_not_hasBindings (Bool.eq_false_iff.2 h)), .same _⟩
  | bind name p ih =>
      rw [stripUnder]
      split
      · next hname =>
          obtain ⟨p', hp, hp'⟩ := ih enclosing
          exact ⟨p', .dropped hname hp, hp'⟩
      · next hname =>
          obtain ⟨p', hp, hp'⟩ := ih (name :: enclosing)
          exact ⟨_, .kept hname hp, .bind name hp'⟩

/-! ## The bindings that stay -/

/-- A binding of the name around the body stands in the pattern, and `outer` names the
bindings on the way to it. -/
inductive Binds : List String → Pattern → String → Pattern → Prop where
  | here (name : String) (body : Pattern) : Binds [] (bind name body) name body
  | altLeft {outer l name body} (r : Pattern) (h : Binds outer l name body) :
      Binds outer (alt l r) name body
  | altRight {outer r name body} (l : Pattern) (h : Binds outer r name body) :
      Binds outer (alt l r) name body
  | seqFirst {outer a name body} (b : Pattern) (h : Binds outer a name body) :
      Binds outer (seq a b) name body
  | seqSecond {outer b name body} (a : Pattern) (h : Binds outer b name body) :
      Binds outer (seq a b) name body
  | star {outer p name body} (h : Binds outer p name body) : Binds outer (star p) name body
  | inside {outer p name body} (around : String) (h : Binds outer p name body) :
      Binds (around :: outer) (bind around p) name body

variable {body : Pattern}

theorem Binds.hasBindings (h : Binds outer p name body) : p.hasBindings = true := by
  induction h with
  | here | inside => rfl
  | altLeft _ _ ih | seqFirst _ _ ih => rw [Pattern.hasBindings, ih, Bool.true_or]
  | altRight _ _ ih | seqSecond _ _ ih => rw [Pattern.hasBindings, ih, Bool.or_true]
  | star _ ih => exact ih

/-- A binding is never in the empty pattern. -/
theorem Binds.ne_epsilon (h : Binds outer p name body) : p ≠ .epsilon := by
  rintro rfl
  cases h

theorem Binds.eitherLeft (h : Binds outer l name body) (r : Pattern) :
    Binds outer (either l r) name body := by
  by_cases hlr : l = r
  · rw [← hlr, either_self]
    exact h
  · rw [either_of_ne hlr]
    exact h.altLeft r

theorem Binds.eitherRight (h : Binds outer r name body) (l : Pattern) :
    Binds outer (either l r) name body := by
  by_cases hlr : l = r
  · rw [hlr, either_self]
    exact h
  · rw [either_of_ne hlr]
    exact h.altRight l

theorem Binds.appendFirst (h : Binds outer a name body) (b : Pattern) :
    Binds outer (a ++ b) name body := by
  by_cases hb : b = epsilon
  · rw [hb, append_epsilon]
    exact h
  · rw [append_of_ne h.ne_epsilon hb]
    exact h.seqFirst b

theorem Binds.appendSecond (h : Binds outer b name body) (a : Pattern) :
    Binds outer (a ++ b) name body := by
  by_cases ha : a = epsilon
  · rw [ha, epsilon_append]
    exact h
  · rw [append_of_ne ha h.ne_epsilon]
    exact h.seqSecond a

theorem Binds.many (h : Binds outer p name body) : Binds outer (many p) name body := by
  rw [many_of_ne h.ne_epsilon]
  exact h.star

/-- Only the set of enclosing names counts. -/
theorem stripUnder_congr {enclosing' : List String} (h : ∀ n, n ∈ enclosing ↔ n ∈ enclosing')
    (p : Pattern) : p.stripUnder enclosing = p.stripUnder enclosing' := by
  induction p generalizing enclosing enclosing' with
  | epsilon | eof | chars _ => rfl
  | alt l r ihl ihr => rw [stripUnder, stripUnder, ihl h, ihr h]
  | seq a b iha ihb => rw [stripUnder, stripUnder, iha h, ihb h]
  | star p ih => rw [stripUnder, stripUnder, ih h]
  | bind name p ih =>
      have hbody : ∀ n, n ∈ name :: enclosing ↔ n ∈ name :: enclosing' := fun n => by
        rw [List.mem_cons, List.mem_cons, h n]
      rw [stripUnder, stripUnder, ih h, ih hbody, ite_congr (propext (h name))
        (fun _ => rfl) (fun _ => rfl)]

/-- A binding that stands inside none of its name stays, under the same names, and its body is
stripped of what it shadows. -/
theorem Binds.stripUnder (h : Binds outer p name body) (houter : name ∉ outer)
    (henclosing : name ∉ enclosing) :
    ∃ outer', (∀ n, n ∈ outer' ↔ n ∈ outer ∧ n ∉ enclosing) ∧
      Binds outer' (p.stripUnder enclosing) name
        (body.stripUnder (name :: (outer ++ enclosing))) := by
  induction h generalizing enclosing with
  | here name body =>
      refine ⟨[], fun n => ?_, ?_⟩
      · simp
      · rw [Pattern.stripUnder, if_neg henclosing]
        exact .here _ _
  | @altLeft _ l name body r h ih =>
      obtain ⟨outer', hmem, hl⟩ := ih houter henclosing
      refine ⟨outer', hmem, ?_⟩
      rw [Pattern.stripUnder, if_pos (h.altLeft r).hasBindings]
      exact hl.eitherLeft _
  | @altRight _ r name body l h ih =>
      obtain ⟨outer', hmem, hr⟩ := ih houter henclosing
      refine ⟨outer', hmem, ?_⟩
      rw [Pattern.stripUnder, if_pos (h.altRight l).hasBindings]
      exact hr.eitherRight _
  | @seqFirst _ a name body b h ih =>
      obtain ⟨outer', hmem, ha⟩ := ih houter henclosing
      refine ⟨outer', hmem, ?_⟩
      rw [Pattern.stripUnder, if_pos (h.seqFirst b).hasBindings]
      exact ha.appendFirst _
  | @seqSecond _ b name body a h ih =>
      obtain ⟨outer', hmem, hb⟩ := ih houter henclosing
      refine ⟨outer', hmem, ?_⟩
      rw [Pattern.stripUnder, if_pos (h.seqSecond a).hasBindings]
      exact hb.appendSecond _
  | star h ih =>
      obtain ⟨outer', hmem, hp⟩ := ih houter henclosing
      refine ⟨outer', hmem, ?_⟩
      rw [Pattern.stripUnder, if_pos h.hasBindings]
      exact hp.many
  | @inside outer p name body around h ih =>
      rw [List.mem_cons, not_or] at houter
      rw [Pattern.stripUnder]
      split
      · next haround =>
          obtain ⟨outer', hmem, hp⟩ := ih houter.2 henclosing
          have hset : ∀ n, n ∈ name :: (outer ++ enclosing) ↔
              n ∈ name :: (around :: outer ++ enclosing) := by
            simp only [List.mem_cons, List.mem_append, List.cons_append]
            grind
          rw [stripUnder_congr hset] at hp
          exact ⟨outer', fun n => by rw [hmem, List.mem_cons]; grind, hp⟩
      · next haround =>
          have hname : name ∉ around :: enclosing := by
            rw [List.mem_cons, not_or]
            exact ⟨houter.1, henclosing⟩
          obtain ⟨outer', hmem, hp⟩ := ih houter.2 hname
          have hset : ∀ n, n ∈ name :: (outer ++ around :: enclosing) ↔
              n ∈ name :: (around :: outer ++ enclosing) := by
            simp only [List.mem_cons, List.mem_append, List.cons_append]
            grind
          rw [stripUnder_congr hset] at hp
          refine ⟨around :: outer', fun n => ?_, hp.inside around⟩
          rw [List.mem_cons, hmem, List.mem_cons, List.mem_cons]
          grind

theorem Binds.mem_names (h : Binds outer p name body) : name ∈ p.names := by
  induction h with
  | here => exact List.mem_cons_self
  | altLeft _ _ ih | seqFirst _ _ ih => exact List.mem_append_left _ ih
  | altRight _ _ ih | seqSecond _ _ ih => exact List.mem_append_right _ ih
  | star _ ih => exact ih
  | inside _ _ ih => exact List.mem_cons_of_mem _ ih

/-- Of the bindings of a name, the first one on each path is in none of its own. -/
theorem exists_binds_of_mem_names (h : name ∈ p.names) :
    ∃ outer body, Binds outer p name body ∧ name ∉ outer := by
  induction p with
  | epsilon | eof | chars _ => cases h
  | alt l r ihl ihr =>
      rcases List.mem_append.1 h with hl | hr
      · obtain ⟨outer, body, hl, houter⟩ := ihl hl
        exact ⟨outer, body, hl.altLeft r, houter⟩
      · obtain ⟨outer, body, hr, houter⟩ := ihr hr
        exact ⟨outer, body, hr.altRight l, houter⟩
  | seq a b iha ihb =>
      rcases List.mem_append.1 h with ha | hb
      · obtain ⟨outer, body, ha, houter⟩ := iha ha
        exact ⟨outer, body, ha.seqFirst b, houter⟩
      · obtain ⟨outer, body, hb, houter⟩ := ihb hb
        exact ⟨outer, body, hb.seqSecond a, houter⟩
  | star p ih =>
      obtain ⟨outer, body, hp, houter⟩ := ih h
      exact ⟨outer, body, hp.star, houter⟩
  | bind around p ih =>
      by_cases hname : name = around
      · subst hname
        exact ⟨[], p, .here name p, List.not_mem_nil⟩
      · obtain ⟨outer, body, hp, houter⟩ := ih ((List.mem_cons.1 h).resolve_left hname)
        exact ⟨around :: outer, body, hp.inside around,
          List.not_mem_cons_of_ne_of_not_mem hname houter⟩

/-- The names that are bound are the same ones. -/
theorem mem_names_withoutShadowed_iff : name ∈ p.withoutShadowed.names ↔ name ∈ p.names := by
  rw [withoutShadowed_eq]
  constructor
  · exact fun h => (mem_names_stripUnder h).1
  · intro h
    obtain ⟨outer, body, hp, houter⟩ := exists_binds_of_mem_names h
    obtain ⟨_, _, hstripped⟩ := hp.stripUnder houter List.not_mem_nil
    exact hstripped.mem_names

theorem hasBindings_withoutShadowed (p : Pattern) :
    p.withoutShadowed.hasBindings = p.hasBindings := by
  have hnone : p.withoutShadowed.names = [] ↔ p.names = [] := by
    rw [List.eq_nil_iff_forall_not_mem, List.eq_nil_iff_forall_not_mem]
    exact forall_congr' fun _ => not_congr mem_names_withoutShadowed_iff
  rw [names_eq_nil_iff, names_eq_nil_iff] at hnone
  cases h : p.hasBindings with
  | false => exact hnone.2 h
  | true =>
      refine Bool.of_not_eq_false fun hfalse => ?_
      rw [hnone.1 hfalse] at h
      cases h

/-! ## Nullable patterns and sizes -/

theorem nullable_either (l r : Pattern) :
    (either l r).nullable = (l.nullable || r.nullable) := by
  by_cases hlr : l = r
  · rw [hlr, either_self, Bool.or_self]
  · rw [either_of_ne hlr, nullable]

theorem nullable_append (a b : Pattern) : (a ++ b).nullable = (a.nullable && b.nullable) := by
  by_cases ha : a = epsilon
  · rw [ha, epsilon_append]
    exact (Bool.true_and _).symm
  · by_cases hb : b = epsilon
    · rw [hb, append_epsilon]
      exact (Bool.and_true _).symm
    · rw [append_of_ne ha hb, nullable]

theorem nullable_many (p : Pattern) : (many p).nullable = true := by
  cases p <;> rfl

theorem nullable_stripUnder (p : Pattern) (enclosing : List String) :
    (p.stripUnder enclosing).nullable = p.nullable := by
  induction p generalizing enclosing with
  | epsilon | eof | chars _ => rfl
  | alt l r ihl ihr =>
      rw [stripUnder]
      split
      · rw [nullable_either, ihl, ihr, nullable]
      · rfl
  | seq a b iha ihb =>
      rw [stripUnder]
      split
      · rw [nullable_append, iha, ihb, nullable]
      · rfl
  | star p _ =>
      rw [stripUnder]
      split
      · exact nullable_many _
      · rfl
  | bind name p ih =>
      rw [stripUnder]
      split
      · exact ih _
      · exact ih _

theorem size?_either {n : Nat} (hl : l.size? = some n) (hr : r.size? = some n) :
    (either l r).size? = some n := by
  by_cases hlr : l = r
  · rw [hlr, either_self, hr]
  · rw [either_of_ne hlr, size?, hl, hr]
    exact if_pos rfl

theorem size?_append {n : Nat} (h : totalSize? a.size? b.size? = some n) :
    (a ++ b).size? = some n := by
  by_cases ha : a = epsilon
  · obtain ⟨_, _, hzero, hb, rfl⟩ := eq_add_of_totalSize? h
    rw [ha] at hzero
    cases hzero
    rw [ha, epsilon_append, hb, Nat.zero_add]
  · by_cases hb : b = epsilon
    · obtain ⟨_, _, ha, hzero, rfl⟩ := eq_add_of_totalSize? h
      rw [hb] at hzero
      cases hzero
      rw [hb, append_epsilon, ha, Nat.add_zero]
    · rw [append_of_ne ha hb, size?, h]

theorem size?_stripUnder {n : Nat} (h : p.size? = some n) (enclosing : List String) :
    (p.stripUnder enclosing).size? = some n := by
  induction p generalizing enclosing n with
  | epsilon | eof | chars _ => exact h
  | alt l r ihl ihr =>
      rw [stripUnder]
      split
      · obtain ⟨hl, hr⟩ := eq_some_of_commonSize? h
        exact size?_either (ihl hl _) (ihr hr _)
      · exact h
  | seq a b iha ihb =>
      rw [stripUnder]
      split
      · obtain ⟨_, _, ha, hb, _⟩ := eq_add_of_totalSize? h
        rw [size?, ha, hb] at h
        refine size?_append ?_
        rw [iha ha, ihb hb, h]
      · exact h
  | star _ _ => cases h
  | bind name p ih =>
      rw [stripUnder]
      split
      · exact ih h _
      · exact ih h _

/-! ## Dropping twice -/

theorem stripUnder_either (hl : l.stripUnder enclosing = l) (hr : r.stripUnder enclosing = r) :
    (either l r).stripUnder enclosing = either l r := by
  by_cases hlr : l = r
  · rw [hlr, either_self, hr]
  · rw [either_of_ne hlr, stripUnder, hl, hr, either_of_ne hlr, ite_self]

theorem stripUnder_append (ha : a.stripUnder enclosing = a) (hb : b.stripUnder enclosing = b) :
    (a ++ b).stripUnder enclosing = a ++ b := by
  by_cases hae : a = epsilon
  · rw [hae, epsilon_append, hb]
  · by_cases hbe : b = epsilon
    · rw [hbe, append_epsilon, ha]
    · rw [append_of_ne hae hbe, stripUnder, ha, hb, append_of_ne hae hbe, ite_self]

theorem stripUnder_many (h : p.stripUnder enclosing = p) :
    (many p).stripUnder enclosing = many p := by
  by_cases hp : p = epsilon
  · rw [hp]
    rfl
  · rw [many_of_ne hp, stripUnder, h, many_of_ne hp, ite_self]

/-- The names around are the same on the second walk, so it drops nothing; and where it builds
a node again, the operands are what they were. -/
theorem stripUnder_stripUnder (p : Pattern) (enclosing : List String) :
    (p.stripUnder enclosing).stripUnder enclosing = p.stripUnder enclosing := by
  induction p generalizing enclosing with
  | epsilon | eof | chars _ => rfl
  | alt l r ihl ihr =>
      by_cases h : (alt l r).hasBindings
      · rw [stripUnder, if_pos h]
        exact stripUnder_either (ihl _) (ihr _)
      · rw [stripUnder, if_neg h, stripUnder_of_not_hasBindings (Bool.eq_false_iff.2 h)]
  | seq a b iha ihb =>
      by_cases h : (seq a b).hasBindings
      · rw [stripUnder, if_pos h]
        exact stripUnder_append (iha _) (ihb _)
      · rw [stripUnder, if_neg h, stripUnder_of_not_hasBindings (Bool.eq_false_iff.2 h)]
  | star p ih =>
      by_cases h : p.hasBindings
      · rw [stripUnder, if_pos h]
        exact stripUnder_many (ih _)
      · rw [stripUnder, if_neg h, stripUnder, if_neg h]
  | bind name p ih =>
      by_cases h : name ∈ enclosing
      · rw [stripUnder, if_pos h, ih]
      · rw [stripUnder, if_neg h, stripUnder, if_neg h, ih]

/-! ## The whole of it -/

/-- What the encoding of `p` relies on when it is given `q` instead: only shadowed bindings are
gone, all of them are, and nothing else that is known of the pattern has been lost. -/
structure Unshadows (p q : Pattern) : Prop where
  unshadowed : q.Unshadowed
  names : ∀ n, n ∈ q.names ↔ n ∈ p.names
  /-- What goes is what stands under its own name, and then the nodes are built anew. -/
  drops : ∃ left, Drops [] p left ∧ Tidies left q
  /-- A binding that no binding of its name encloses stays, and so do those around it. -/
  keeps : ∀ {outer name body}, Binds outer p name body → name ∉ outer →
    ∃ outer', (∀ n, n ∈ outer' ↔ n ∈ outer) ∧
      Binds outer' q name (body.stripUnder (name :: outer))
  hasBindings : q.hasBindings = p.hasBindings
  nullable : q.nullable = p.nullable
  size? : ∀ n, p.size? = some n → q.size? = some n
  /-- Nothing is left to be dropped. -/
  again : q.withoutShadowed = q

/-- Dropping the shadowed bindings of a pattern does what the encoding relies on. -/
theorem unshadows_withoutShadowed (p : Pattern) : Unshadows p p.withoutShadowed where
  unshadowed := unshadowed_withoutShadowed p
  names _ := mem_names_withoutShadowed_iff
  drops := withoutShadowed_eq p ▸ exists_drops_tidies p []
  keeps h houter := by
    obtain ⟨outer', hmem, hbinds⟩ := h.stripUnder houter List.not_mem_nil
    rw [List.append_nil, ← withoutShadowed_eq p] at hbinds
    exact ⟨outer', fun n => (hmem n).trans (and_iff_left List.not_mem_nil), hbinds⟩
  hasBindings := hasBindings_withoutShadowed p
  nullable := withoutShadowed_eq p ▸ nullable_stripUnder p []
  size? _ h := withoutShadowed_eq p ▸ size?_stripUnder h []
  again := by rw [withoutShadowed_eq, withoutShadowed_eq, stripUnder_stripUnder]

end LexTags.Pattern
