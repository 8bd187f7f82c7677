import LexTags.Proofs.Compilation

/-!
# Compilation commutes with relocation

All clauses are compiled against one pool, so the indices in the expression of a clause depend
on what has been compiled before it. They depend on it in one way only: each is larger by the
number of sets that were there. The constructors do compare expressions, but a comparison comes
out the same once all indices have moved by the same distance, and the passes of the layout
read sizes and tags, in which no index occurs.

So a clause compiled in the middle of a session is the clause compiled by itself, relocated.
-/

namespace LexTags

namespace Tagged

/-- The expression with its indices of the pool increased. -/
def relocate (distance : Nat) : Tagged → Tagged
  | epsilon => epsilon
  | chars id => chars (id + distance)
  | eof id => eof (id + distance)
  | tag t => tag t
  | action id => action id
  | alt l r => alt (l.relocate distance) (r.relocate distance)
  | seq a b => seq (a.relocate distance) (b.relocate distance)
  | star p => star (p.relocate distance)

variable {d : Nat} {p a b l r : Tagged}

theorem relocate_inj : a.relocate d = b.relocate d ↔ a = b := by
  refine ⟨fun h => ?_, congrArg _⟩
  induction a generalizing b with
  | epsilon | tag _ | action _ =>
      cases b <;> cases h
      rfl
  | chars id =>
      cases b with
      | chars id' => simpa [relocate] using h
      | _ => cases h
  | eof id =>
      cases b with
      | eof id' => simpa [relocate] using h
      | _ => cases h
  | alt l r ihl ihr =>
      cases b with
      | alt l' r' =>
          injection h with hl hr
          rw [ihl hl, ihr hr]
      | _ => cases h
  | seq a b iha ihb =>
      cases b with
      | seq a' b' =>
          injection h with ha hb
          rw [iha ha, ihb hb]
      | _ => cases h
  | star p ih =>
      cases b with
      | star p' =>
          injection h with hp
          rw [ih hp]
      | _ => cases h

theorem size?_relocate : (p.relocate d).size? = p.size? := by
  induction p with
  | alt l r ihl ihr => rw [relocate, size?, ihl, ihr, size?]
  | seq a b iha ihb => rw [relocate, size?, iha, ihb, size?]
  | _ => rfl

theorem tags_relocate : (p.relocate d).tags = p.tags := by
  induction p with
  | alt l r ihl ihr => rw [relocate, tags, ihl, ihr, tags]
  | seq a b iha ihb => rw [relocate, tags, iha, ihb, tags]
  | star p ih => rw [relocate, tags, ih, tags]
  | _ => rfl

theorem hasTags_relocate : (p.relocate d).hasTags = p.hasTags := by
  rw [hasTags_eq, hasTags_eq, tags_relocate]

theorem relocate_append : (a ++ b).relocate d = a.relocate d ++ b.relocate d := by
  by_cases ha : a = epsilon
  · rw [ha, epsilon_append, relocate, epsilon_append]
  · by_cases hb : b = epsilon
    · rw [hb, append_epsilon, relocate, append_epsilon]
    · rw [append_of_ne ha hb, append_of_ne, relocate]
      · exact fun h => ha (relocate_inj.1 (h.trans rfl : a.relocate d = relocate d epsilon))
      · exact fun h => hb (relocate_inj.1 (h.trans rfl : b.relocate d = relocate d epsilon))

theorem relocate_either : (either l r).relocate d = either (l.relocate d) (r.relocate d) := by
  by_cases h : l = r
  · rw [h, either_self, either_self]
  · rw [either_of_ne h, either_of_ne (mt relocate_inj.1 h), relocate]

theorem relocate_many : (many p).relocate d = many (p.relocate d) := by
  cases p <;> rfl

theorem relocate_bound {charNames : OrderedSet String} {action : Nat} {name : String} :
    (bound charNames action name p).relocate d =
      bound charNames action name (p.relocate d) := by
  rw [bound, bound]
  split
  · rw [relocate_append, relocate]
  · rw [relocate_append, relocate_append, relocate, relocate]

end Tagged

namespace Pattern

/-- The first number of the leaves only moves the indices. -/
theorem encodeFrom_add (charNames : OrderedSet String) (action n d : Nat) (p : Pattern) :
    p.encodeFrom charNames action (n + d) = (p.encodeFrom charNames action n).relocate d := by
  induction p generalizing n with
  | epsilon | eof | chars _ => rfl
  | alt l r ihl ihr =>
      rw [encodeFrom, encodeFrom, Tagged.relocate_either, ihl, Nat.add_right_comm, ihr]
  | seq a b iha ihb =>
      rw [encodeFrom, encodeFrom, Tagged.relocate_append, iha, Nat.add_right_comm, ihb]
  | star p ih => rw [encodeFrom, encodeFrom, Tagged.relocate_many, ih]
  | bind name p ih => rw [encodeFrom, encodeFrom, Tagged.relocate_bound, ih]

end Pattern

namespace Layout

/-- The layout with the indices of its expression increased. -/
def relocate (distance : Nat) (l : Layout) : Layout :=
  { l with regular := l.regular.relocate distance }

variable {usage : Usage} {d : Nat}

/-- The result of a pass with the indices of what is left increased. -/
def shifted {σ : Type} (distance : Nat) (r : σ × Tagged) : σ × Tagged :=
  (r.1, r.2.relocate distance)

/-- A step that goes on in the same way from relocated results relocates its own. -/
theorem bind_shifted {σ τ : Type} {x : StateM Ledger (σ × Tagged)}
    {f f' : σ × Tagged → StateM Ledger (τ × Tagged)}
    (h : ∀ r, f' (shifted d r) = shifted d <$> f r) :
    (shifted d <$> x) >>= f' = shifted d <$> (x >>= f) := by
  rw [bind_map_left, map_bind]
  exact bind_congr h

theorem pure_append {σ : Type} (s : σ) (a b : Tagged) :
    (pure (s, a.relocate d ++ b.relocate d) : StateM Ledger (σ × Tagged)) =
      shifted d <$> pure (s, a ++ b) := by
  rw [map_pure, shifted, Tagged.relocate_append]

/-- A pass on a relocated expression does the same and relocates what is left. -/
theorem resolveFromStart_relocate (p : Tagged) (pos : Nat) :
    resolveFromStart usage pos (p.relocate d) = shifted d <$> resolveFromStart usage pos p := by
  induction p generalizing pos with
  | tag t =>
      rw [Tagged.relocate, resolveFromStart]
      split <;> rfl
  | seq a b iha ihb =>
      show resolveFromStart usage pos (.seq (a.relocate d) (b.relocate d)) = _
      rw [resolveFromStart, resolveFromStart, ← Tagged.relocate, Tagged.hasTags_relocate,
        Tagged.size?_relocate, iha]
      split
      · rfl
      · refine bind_shifted fun r => ?_
        obtain ⟨next?, a'⟩ := r
        cases next? with
        | none => exact pure_append none a' b
        | some next =>
            show resolveFromStart usage next (b.relocate d) >>= _ = _ <$> (_ >>= _)
            rw [ihb]
            exact bind_shifted fun r => pure_append r.1 a' r.2
  | alt l r _ _ =>
      show resolveFromStart usage pos (.alt (l.relocate d) (r.relocate d)) = _
      rw [resolveFromStart, resolveFromStart, ← Tagged.relocate, Tagged.size?_relocate]
      rfl
      all_goals simp
  | _ => rfl

theorem resolveFromEnd_relocate (p : Tagged) (pos : Nat) :
    resolveFromEnd usage pos (p.relocate d) = shifted d <$> resolveFromEnd usage pos p := by
  induction p generalizing pos with
  | tag t =>
      rw [Tagged.relocate, resolveFromEnd]
      split <;> rfl
  | seq a b iha ihb =>
      show resolveFromEnd usage pos (.seq (a.relocate d) (b.relocate d)) = _
      rw [resolveFromEnd, resolveFromEnd, ← Tagged.relocate, Tagged.hasTags_relocate,
        Tagged.size?_relocate, ihb]
      split
      · rfl
      · refine bind_shifted fun r => ?_
        obtain ⟨next?, b'⟩ := r
        cases next? with
        | none => exact pure_append none a b'
        | some next =>
            show resolveFromEnd usage next (a.relocate d) >>= _ = _ <$> (_ >>= _)
            rw [iha]
            exact bind_shifted fun r => pure_append r.1 r.2 b'
  | alt l r _ _ =>
      show resolveFromEnd usage pos (.alt (l.relocate d) (r.relocate d)) = _
      rw [resolveFromEnd, resolveFromEnd, ← Tagged.relocate, Tagged.size?_relocate]
      rfl
      all_goals simp
  | _ => rfl

theorem allocate_relocate (p : Tagged) (here? : Option Address) :
    allocate usage here? (p.relocate d) = shifted d <$> allocate usage here? p := by
  induction p generalizing here? with
  | tag t =>
      simp only [Tagged.relocate, allocate]
      split
      · rfl
      · cases here? <;> rfl
  | seq a b iha ihb =>
      show allocate usage here? (.seq (a.relocate d) (b.relocate d)) = _
      rw [allocate, allocate, ← Tagged.relocate, Tagged.hasTags_relocate,
        Tagged.size?_relocate, iha]
      split
      · rfl
      · refine bind_shifted fun r => ?_
        show allocate usage r.1 (b.relocate d) >>= _ = _ <$> (_ >>= _)
        rw [ihb]
        exact bind_shifted fun r' => pure_append r'.1 r.2 r'.2
  | alt l r _ _ =>
      show allocate usage here? (.alt (l.relocate d) (r.relocate d)) = _
      rw [allocate, allocate, ← Tagged.relocate, Tagged.size?_relocate]
      rfl
      all_goals simp
  | _ => rfl

/-- The passes on a relocated clause make the same decisions. -/
theorem passes_relocate (optimise : Bool) (clause : Tagged) :
    passes usage optimise (clause.relocate d) = shifted d <$> passes usage optimise clause := by
  rw [passes, passes, map_bind]
  cases optimise with
  | false =>
      show allocate usage none (clause.relocate d) = _
      rw [allocate_relocate]
      rfl
  | true =>
      simp only [resolveStatically, Tagged.hasTags_relocate, if_true]
      split
      · exact allocate_relocate clause none
      · simp only [resolveFromStart_relocate, resolveFromEnd_relocate, allocate_relocate,
          bind_map_left, bind_assoc, pure_bind, shifted]

/-- The layout of a relocated clause is the relocated layout. -/
theorem compute_relocate (optimise : Bool) (clause : Tagged) (ledger : Ledger) :
    (compute usage optimise (clause.relocate d)).run ledger =
      (((compute usage optimise clause).run ledger).1.relocate d,
        ((compute usage optimise clause).run ledger).2) := by
  rw [compute_run, compute_run, passes_relocate]
  rfl

end Layout

namespace Session

open Pattern

/-- A clause compiled in the middle of a session is the clause compiled by itself, relocated by
the number of sets that are in the pool. -/
theorem compileClause_relocate (config : Config) (action : Nat) (p : Pattern) :
    ∃ layout trace,
      (compileClause config action p).run.run {} =
        (.ok layout, ⟨p.withoutShadowed.leaves.toArray, trace⟩) ∧
      ∀ s, (compileClause config action p).run.run s =
        (.ok (layout.relocate s.pool.size),
          ⟨s.pool ++ p.withoutShadowed.leaves.toArray, s.trace ++ trace⟩) := by
  obtain ⟨layout, ledger, hdone⟩ : ∃ layout ledger,
      (Layout.compute p.withoutShadowed.usage config.optimise (p.withoutShadowed.encodeFrom
        p.withoutShadowed.usage.charNames action 0)).run default = (layout, ledger) :=
    ⟨_, _, rfl⟩
  refine ⟨layout, ledger.trace, ?_, fun s => ?_⟩
  · rw [compileClause_run, (describes_encodeFrom p.withoutShadowed action _).layout_eq]
    dsimp only
    rw [Array.size_empty, hdone, Array.empty_append, Array.empty_append]
  · have hindices := encodeFrom_add p.withoutShadowed.usage.charNames action 0 s.pool.size
      p.withoutShadowed
    rw [Nat.zero_add] at hindices
    rw [compileClause_run, (describes_encodeFrom p.withoutShadowed action _).layout_eq, hindices]
    dsimp only
    rw [Layout.compute_relocate, hdone]

end Session

end LexTags
