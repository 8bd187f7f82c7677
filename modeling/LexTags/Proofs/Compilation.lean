import LexTags.Lexer.Compile
import LexTags.Proofs.EncodedTags
import LexTags.Proofs.Exactness

/-!
# A compiled clause finds what the pattern binds

The three stages are put together. Dropping the shadowed bindings changes no last span, the
encoding marks the ends of each span, and the layout recovers the marks; the usage of names,
computed once, describes the encoding to the layout. So every match of the pattern is one of
the compiled clause and the other way round, and the captures lead to the last span of each
name.
-/

namespace LexTags

/-- After a match, the captures of a layout lead to the last span of each name, and to none
for a name that is left unbound, which is then optional. -/
structure Layout.Binds (l : Layout) (start stop : Nat) (marks : List (Tag × Nat))
    (log : List (String × Span)) : Prop where
  bound : ∀ {name span}, lastOf? log name = some span →
    ∃ c, l.captures.get? name = some c ∧
      c.start.LeadsTo start stop (l.cellsAfter marks) span.start ∧
      (∀ a, c.stop? = some a → a.LeadsTo start stop (l.cellsAfter marks) span.stop) ∧
      (c.stop? = none → span.stop = span.start + 1)
  unbound : ∀ {name c}, lastOf? log name = none → l.captures.get? name = some c →
    c.optional = true ∧ c.start.locate? start stop (l.cellsAfter marks) = none

namespace Pattern

variable {p : Pattern} {action n : Nat} {w : Text} {i j : Nat} {l : Layout}
  {events : List Event} {os : List Boundary} {log rest : List (String × Span)}
  {marks crossed : List (Tag × Nat)}

theorem binds_congr (h : l.Binds i j marks log) (hlast : lastOf? log = lastOf? rest) :
    l.Binds i j marks rest :=
  ⟨fun hn => h.bound (hlast ▸ hn), fun hn => h.unbound (hlast ▸ hn)⟩

/-- The usage of a pattern describes its encoding. -/
theorem describes_encodeFrom (p : Pattern) (action n : Nat) :
    Layout.Describes p.usage (p.encodeFrom p.usage.charNames action n) := by
  refine ⟨hasActions_encodeFrom p, fun t ht => ?_, fun t ht => ?_, fun t ht hrep => ?_⟩
  · exact mem_bound_iff.2 (mem_tags_encodeFrom ht).2.1
  · exact (mem_tags_encodeFrom ht).2.2
  · exact count_boundary_eq_one ht hrep

/-- Where marks are recovered, the spans that they enclose are. -/
theorem binds_of_recovers {clause : Tagged} (h : Layout.Settled p.usage clause l events os)
    (hr : p.Reads w i j log) (hmarks : Marks p.usage.charNames log crossed)
    (hrec : l.Recovers i j crossed marks) : l.Binds i j marks log := by
  refine ⟨fun {name span} hlast => ?_, fun {name c} hlast hc => ?_⟩
  · have hname : name ∈ l.captures.keys := by
      rw [h.captures_keys, mem_bound_iff]
      exact hr.mem_names (mem_of_lastOf? hlast)
    obtain ⟨e, he, rfl⟩ := List.mem_map.1 hname
    have hget := OrderedMap.get?_eq_some_iff.2 he
    have hcap := h.captures hget
    obtain ⟨hopen, hclose⟩ := hmarks e.1
    rw [hlast] at hopen hclose
    refine ⟨e.2, hget, ?_, fun a ha => ?_, fun hnone => ?_⟩
    · obtain ⟨a, ha, hlead⟩ := hrec.crossed hopen
      rw [hcap.start] at ha
      exact Option.some.inj ha ▸ hlead
    · have hchar : e.1 ∉ p.usage.charNames := by
        intro hchar
        rw [hcap.stop_of_char hchar] at ha
        cases ha
      obtain ⟨a', ha', haddr⟩ := hcap.stop hchar
      obtain ⟨a'', ha'', hlead⟩ := hrec.crossed (hclose hchar)
      rw [haddr] at ha''
      rw [ha] at ha'
      rw [Option.some.inj ha', Option.some.inj ha'']
      exact hlead
    · have hchar : e.1 ∈ p.usage.charNames := Decidable.byContradiction fun hchar => by
        obtain ⟨a, ha, -⟩ := hcap.stop hchar
        rw [hnone] at ha
        cases ha
      exact hr.stop_of_unit (mem_charNames_iff.1 hchar).2 (mem_of_lastOf? hlast)
  · have hcap := h.captures hc
    have hname : name ∈ p.names := by
      rw [← mem_bound_iff, ← h.captures_keys]
      exact OrderedMap.mem_keys_of_mem (OrderedMap.get?_eq_some_iff.1 hc)
    have hopt : name ∈ p.usage.optional := Decidable.byContradiction fun hopt => by
      obtain ⟨e, he, hen⟩ := hr.exists_of_not_optional hname hopt
      exact lastOf?_eq_none_iff.1 hlast e he hen
    obtain ⟨hopen, -⟩ := hmarks name
    rw [hlast] at hopen
    exact ⟨by rw [hcap.optional]; exact decide_eq_true hopt, hrec.uncrossed hopen hcap.start⟩

end Pattern

namespace Session

open Pattern

theorem encode_run_session (charNames : OrderedSet String) (action : Nat) (p : Pattern)
    (s : Session) :
    (encode charNames action p).run s =
      (p.encodeFrom charNames action s.pool.size, ⟨s.pool ++ p.leaves.toArray, s.trace⟩) := by
  have hrun := @encode_run charNames action p s.pool
  exact congrArg (fun r : Tagged × Pool => (r.1, (⟨r.2, s.trace⟩ : Session))) hrun

/-- Compiling a clause is laying out its encoding, which adds the sets to the pool. -/
theorem compileClause_run (config : Config) (action : Nat) (p : Pattern) (s : Session) :
    (compileClause config action p).run.run s =
      match (p.withoutShadowed.encodeFrom p.withoutShadowed.usage.charNames action
          s.pool.size).layout p.withoutShadowed.usage config.optimise with
      | .error fault => (.error fault, ⟨s.pool ++ p.withoutShadowed.leaves.toArray, s.trace⟩)
      | .ok (layout, events) =>
          (.ok layout, ⟨s.pool ++ p.withoutShadowed.leaves.toArray, s.trace ++ events⟩) := by
  have hencode :=
    encode_run_session p.withoutShadowed.usage.charNames action p.withoutShadowed s
  show (match ((encode p.withoutShadowed.usage.charNames action p.withoutShadowed).run s).1.layout
      p.withoutShadowed.usage config.optimise with
    | .error fault => (throw fault : ExceptT ClauseError (StateM Session) Layout)
    | .ok (layout, events) => do
        emit events
        return layout).run.run
      ((encode p.withoutShadowed.usage.charNames action p.withoutShadowed).run s).2 = _
  rw [hencode]
  dsimp only
  split <;> rfl

/-- Every clause compiles, and keeps the matches of its pattern with the last span of each
name. -/
theorem compileClause_binds (config : Config) (action : Nat) (p : Pattern) (s : Session) :
    ∃ layout s', (compileClause config action p).run.run s = (.ok layout, s') ∧
      ∀ (w : Text) (i j : Nat),
        (∀ log, p.Reads w i j log →
          ∃ marks, layout.regular.Reads s'.pool w i j marks ∧ layout.Binds i j marks log) ∧
        (∀ marks, layout.regular.Reads s'.pool w i j marks →
          ∃ log, p.Reads w i j log ∧ layout.Binds i j marks log) := by
  have hd := describes_encodeFrom p.withoutShadowed action s.pool.size
  obtain ⟨layout, trace, events, os, hlayout, hsettled⟩ := hd.layout config.optimise
  have hpool := holds_append s.pool p.withoutShadowed.leaves
  have hunshadowed := unshadowed_withoutShadowed p
  have hrun := compileClause_run config action p s
  rw [hlayout] at hrun
  refine ⟨layout, _, hrun, fun w i j => ⟨fun log hr => ?_, fun marks hr => ?_⟩⟩
  · obtain ⟨log', hr', hlast⟩ :=
      (reads_withoutShadowed_iff p w i j (lastOf? log)).2 ⟨log, hr, rfl⟩
    obtain ⟨crossed, hcrossed, hmarks⟩ := hr'.encodeFrom hunshadowed hpool
    have hrec := hsettled.recovers_of_describes hd hcrossed
    exact ⟨_, hsettled.decides.reads hcrossed,
      binds_congr (binds_of_recovers hsettled hr' hmarks hrec) hlast⟩
  · obtain ⟨crossed, hcrossed, rfl⟩ := hsettled.decides.exists_reads hr
    obtain ⟨log', hr', hmarks⟩ := exists_reads_of_encodeFrom _ hunshadowed hpool hcrossed
    obtain ⟨log, hlog, hlast⟩ :=
      (reads_withoutShadowed_iff p w i j (lastOf? log')).1 ⟨log', hr', rfl⟩
    have hrec := hsettled.recovers_of_describes hd hcrossed
    exact ⟨log, hlog, binds_congr (binds_of_recovers hsettled hr' hmarks hrec) hlast.symm⟩

end Session

end LexTags
