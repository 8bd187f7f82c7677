import LexTags.Proofs.Pruning
import LexTags.Proofs.Relocation

/-!
# A lexer is compiled clause by clause

All clauses of a lexer share one session, and each is joined to those before it by a
constructor that leaves out what is equal. Neither of the two shows in the result. It is what
comes of compiling each clause by itself, moving its indices behind the sets of the clauses
before it, and nesting the alternations to the left: this is `Lexer.link`. The constructor has
nothing to leave out, since every branch ends in an action of its own.
-/

namespace LexTags

namespace Tagged

/-- The actions, from left to right. -/
def actions : Tagged → List Nat
  | action id => [id]
  | alt l r => l.actions ++ r.actions
  | seq a b => a.actions ++ b.actions
  | star p => p.actions
  | _ => []

/-- The alternation of a list of expressions, nested to the left. -/
def alternation : List Tagged → Tagged
  | [] => epsilon
  | first :: others => others.foldl alt first

variable {d : Nat} {p first : Tagged} {others : List Tagged}

theorem actions_eq_nil (h : p.hasActions = false) : p.actions = [] := by
  induction p with
  | action _ => cases h
  | alt l r ihl ihr =>
      rw [hasActions, Bool.or_eq_false_iff] at h
      rw [actions, ihl h.1, ihr h.2, List.append_nil]
  | seq a b iha ihb =>
      rw [hasActions, Bool.or_eq_false_iff] at h
      rw [actions, iha h.1, ihb h.2, List.append_nil]
  | star p ih => exact ih h
  | _ => rfl

theorem actions_relocate : (p.relocate d).actions = p.actions := by
  induction p with
  | alt l r ihl ihr => rw [relocate, actions, ihl, ihr, actions]
  | seq a b iha ihb => rw [relocate, actions, iha, ihb, actions]
  | star p ih => rw [relocate, actions, ih, actions]
  | _ => rfl

theorem actions_append_action {id : Nat} : (p ++ action id).actions = p.actions ++ [id] := by
  by_cases hp : p = epsilon
  · rw [hp, epsilon_append]
    rfl
  · have hid : action id ≠ epsilon := fun h => nomatch h
    rw [append_of_ne hp hid]
    rfl

/-- What is read off an alternation side by side is read off its branches one by one. -/
theorem flatMap_alternation {α : Type} {f : Tagged → List α} (hnone : f epsilon = [])
    (halt : ∀ l r, f (alt l r) = f l ++ f r) (branches : List Tagged) :
    f (alternation branches) = branches.flatMap f := by
  have hfold : ∀ (others : List Tagged) (first : Tagged),
      f (others.foldl alt first) = f first ++ others.flatMap f := by
    intro others
    induction others with
    | nil => exact fun first => (List.append_nil _).symm
    | cons next others ih =>
        intro first
        rw [List.foldl_cons, ih, halt, List.flatMap_cons, List.append_assoc]
  cases branches with
  | nil => exact hnone
  | cons first others => exact hfold others first

/-- Expressions with different actions are all joined, none being equal to what is there. -/
theorem foldl_either_of_nodup (hsome : first.actions ≠ [])
    (hnodup : (first.actions ++ others.flatMap actions).Nodup) :
    others.foldl either first = others.foldl alt first := by
  induction others generalizing first with
  | nil => rfl
  | cons next others ih =>
      rw [List.flatMap_cons, ← List.append_assoc] at hnodup
      have hne : first ≠ next := by
        rintro rfl
        obtain ⟨x, hx⟩ := List.exists_mem_of_ne_nil _ hsome
        have hboth := (List.nodup_append.1 hnodup).1
        exact (List.nodup_append.1 hboth).2.2 x hx x hx rfl
      rw [List.foldl_cons, List.foldl_cons, either_of_ne hne]
      refine ih (fun h => hsome (List.append_eq_nil_iff.1 h).1) hnodup

end Tagged

/-! ## Clauses by themselves -/

/-- A clause, and what comes of compiling it by itself for an action. -/
structure Part (config : Config) where
  clause : Clause
  action : Nat
  layout : Layout
  pool : Pool
  compiled : ∃ trace, (Session.compileClause config action clause.pattern).run.run {} =
    (.ok layout, ⟨pool, trace⟩)

namespace Part

variable {config : Config}

/-- The clause that has been compiled, with its action. -/
def source (part : Part config) : Clause × Nat := (part.clause, part.action)

/-- The expression of the clause behind a number of pooled sets, with its action at the end. -/
def branch (offset : Nat) (part : Part config) : Tagged :=
  part.layout.regular.relocate offset ++ .action part.action

def completion (part : Part config) : Completion :=
  ⟨part.action, part.layout.captures, part.clause.action⟩

/-- The parts, each with the number of sets that stand in the pool before its own. -/
def placed (offset : Nat) : List (Part config) → List (Nat × Part config)
  | [] => []
  | part :: parts => (offset, part) :: placed (offset + part.pool.size) parts

/-- What the parts come to one behind the other. -/
def results (offset : Nat) (parts : List (Part config)) : List (Layout × Completion) :=
  (placed offset parts).map fun (offset, part) => (part.layout.relocate offset, part.completion)

/-- The branches of the parts one behind the other. -/
def branches (offset : Nat) (parts : List (Part config)) : List Tagged :=
  (placed offset parts).map fun (offset, part) => part.branch offset

/-- The sets of all parts, in order. -/
def sets : List (Part config) → Pool
  | [] => #[]
  | part :: parts => part.pool ++ sets parts

end Part

variable {config : Config}

/-- The entry as it is put together from its clauses, behind a number of pooled sets. -/
def Entry.link (entry : Entry) (offset : Nat) (parts : List (Part config)) : CompiledEntry where
  name := entry.name
  returnType := entry.returnType
  visibility := entry.visibility
  shortest := entry.shortest
  args? := entry.args?
  regular := .alternation (Part.branches offset parts)
  cells := (parts.map (·.layout.cells)).max?.getD 0
  completions := parts.map Part.completion

/-- The entries as they are put together from their clauses, one behind the other. -/
def linkEntries (offset : Nat) : List (Entry × List (Part config)) → List CompiledEntry
  | [] => []
  | (entry, parts) :: rest =>
      entry.link offset parts :: linkEntries (offset + (Part.sets parts).size) rest

/-- The lexer as it is put together from the clauses of its entries. -/
def Lexer.link (lexer : Lexer) (parts : List (List (Part config))) : CompiledLexer where
  imports := lexer.imports
  header? := lexer.header?
  entries := linkEntries 0 (lexer.entries.zip parts)
  pool := Part.sets parts.flatten
  footer? := lexer.footer?

namespace Part

/-- Every clause can be compiled by itself, and in a session it comes to the same behind the
sets that are in the pool. -/
theorem exists_source (config : Config) (clause : Clause) (action : Nat) :
    ∃ part : Part config, part.source = (clause, action) ∧ ∃ trace, ∀ s,
      (Session.compileClause config action clause.pattern).run.run s =
        (.ok (part.layout.relocate s.pool.size), ⟨s.pool ++ part.pool, s.trace ++ trace⟩) := by
  obtain ⟨layout, trace, halone, hrun⟩ :=
    Session.compileClause_relocate config action clause.pattern
  exact ⟨⟨clause, action, layout, _, trace, halone⟩, rfl, trace, hrun⟩

/-- The layout of a part can be accounted for, and its pool has the sets of the clause. -/
theorem exists_account (part : Part config) :
    let p := part.clause.pattern.withoutShadowed
    part.pool = p.leaves.toArray ∧ ∃ events more, Layout.Account p.usage
      (p.encodeFrom p.usage.charNames part.action 0) part.layout events more := by
  obtain ⟨trace, halone⟩ := part.compiled
  have hd := Pattern.describes_encodeFrom part.clause.pattern.withoutShadowed part.action
    ({} : Session).pool.size
  obtain ⟨layout, _, events, more, hlayout, haccount⟩ := hd.account config.optimise
  rw [Session.compileClause_run, hlayout] at halone
  injection halone with hok hsession
  injection hok with hsame
  injection hsession with hpool
  subst hsame
  exact ⟨hpool.symm.trans Array.empty_append, events, more, haccount⟩

/-- The expression of a part is what the passes have left of an encoding. -/
theorem exists_pruned (part : Part config) :
    ∃ gone, Layout.Pruned gone (part.clause.pattern.withoutShadowed.encodeFrom
      part.clause.pattern.withoutShadowed.usage.charNames part.action 0) part.layout.regular := by
  obtain ⟨-, events, more, haccount⟩ := part.exists_account
  exact ⟨_, haccount.pruned⟩

theorem actions_branch (offset : Nat) (part : Part config) :
    (part.branch offset).actions = [part.action] := by
  obtain ⟨gone, hpruned⟩ := part.exists_pruned
  have hnone := (Tagged.hasActions_of_pruned hpruned).trans (Pattern.hasActions_encodeFrom _)
  rw [branch, Tagged.actions_append_action, Tagged.actions_relocate, Tagged.actions_eq_nil hnone,
    List.nil_append]

/-- All tags of a part carry its action. -/
theorem action_of_mem_tags (part : Part config) {t : Tag} (ht : t ∈ part.layout.regular.tags) :
    t.action = part.action := by
  obtain ⟨gone, hpruned⟩ := part.exists_pruned
  exact (Pattern.mem_tags_encodeFrom (Tagged.tags_of_pruned hpruned t ht)).1

/-- What does not depend on the place is that of the parts themselves. -/
theorem map_placed {α : Type} (f : Part config → α) (offset : Nat) (parts : List (Part config)) :
    (placed offset parts).map (fun e => f e.2) = parts.map f := by
  induction parts generalizing offset with
  | nil => rfl
  | cons part parts ih => rw [placed, List.map_cons, List.map_cons, ih]

theorem map_branch_results (offset : Nat) (parts : List (Part config)) :
    (results offset parts).map Session.branch = branches offset parts :=
  List.map_map

theorem map_cells_results (offset : Nat) (parts : List (Part config)) :
    (results offset parts).map (·.1.cells) = parts.map (·.layout.cells) :=
  List.map_map.trans (map_placed (·.layout.cells) offset parts)

theorem map_snd_results (offset : Nat) (parts : List (Part config)) :
    (results offset parts).map (·.2) = parts.map completion :=
  List.map_map.trans (map_placed completion offset parts)

theorem actions_ne_nil_of_mem_branches {offset : Nat} {parts : List (Part config)} {p : Tagged}
    (h : p ∈ branches offset parts) : p.actions ≠ [] := by
  obtain ⟨⟨at', part⟩, -, rfl⟩ := List.mem_map.1 h
  rw [actions_branch]
  exact List.cons_ne_nil _ _

/-- The branches have the actions of their parts, in order. -/
theorem flatMap_actions_branches (offset : Nat) (parts : List (Part config)) :
    (branches offset parts).flatMap Tagged.actions = parts.map Part.action := by
  rw [branches, List.flatMap_map]
  simp only [actions_branch]
  exact List.map_eq_flatMap.symm.trans (map_placed Part.action offset parts)

theorem sets_append (parts rest : List (Part config)) :
    sets (parts ++ rest) = sets parts ++ sets rest := by
  induction parts with
  | nil => exact Array.empty_append.symm
  | cons part parts ih => rw [List.cons_append, sets, sets, ih, Array.append_assoc]

end Part

/-! ## The session -/

namespace Session

section

variable {ε ε' σ α β ι : Type} {x : ExceptT ε (StateM σ) α} {s s' s'' : σ} {a : α}

theorem bind_run_of_ok (h : x.run.run s = (.ok a, s')) (f : α → ExceptT ε (StateM σ) β) :
    (x >>= f).run.run s = (f a).run.run s' := by
  show StateT.run (x >>= f).run s = _
  rw [ExceptT.run_bind, StateT.run_bind, h]
  rfl

theorem adapt_run_of_ok (h : x.run.run s = (.ok a, s')) (f : ε → ε') :
    (x.adapt f).run.run s = (.ok a, s') := by
  rw [ExceptT.run_adapt, StateT.run_map, h]
  rfl

theorem mapM_run_cons_of_ok (f : ι → ExceptT ε (StateM σ) α) (i : ι) {is : List ι}
    {as : List α} (h : (f i).run.run s = (.ok a, s'))
    (hrest : (is.mapM f).run.run s' = (.ok as, s'')) :
    ((i :: is).mapM f).run.run s = (.ok (a :: as), s'') := by
  rw [List.mapM_cons, bind_run_of_ok h, bind_run_of_ok hrest]
  rfl

end

/-- The clauses of an entry come to their parts, each behind the sets of those before it. -/
theorem mapM_compileEntryClause_run (config : Config) (entry : String)
    (clauses : List (Clause × Nat)) :
    ∃ parts : List (Part config), parts.map Part.source = clauses ∧ ∀ s, ∃ trace,
      (clauses.mapM fun (clause, action) =>
          compileEntryClause config entry clause action).run.run s =
        (.ok (Part.results s.pool.size parts), ⟨s.pool ++ Part.sets parts, trace⟩) := by
  induction clauses with
  | nil => exact ⟨[], rfl, fun s => ⟨s.trace, by rw [Part.sets, Array.append_empty]; rfl⟩⟩
  | cons head clauses ih =>
      obtain ⟨clause, action⟩ := head
      obtain ⟨part, hsource, trace, hpart⟩ := Part.exists_source config clause action
      obtain ⟨parts, hsources, hparts⟩ := ih
      obtain ⟨rfl, rfl⟩ : part.clause = clause ∧ part.action = action := Prod.mk.inj hsource
      refine ⟨part :: parts, by rw [List.map_cons, hsources, hsource], fun s => ?_⟩
      obtain ⟨trace', hclause⟩ : ∃ trace',
          (compileEntryClause config entry part.clause part.action).run.run s =
            (.ok (part.layout.relocate s.pool.size, part.completion),
              ⟨s.pool ++ part.pool, trace'⟩) :=
        ⟨_, bind_run_of_ok (adapt_run_of_ok (hpart s) _) _⟩
      obtain ⟨last, hrest⟩ := hparts ⟨s.pool ++ part.pool, trace'⟩
      refine ⟨last, (mapM_run_cons_of_ok _ (part.clause, part.action) hclause hrest).trans ?_⟩
      dsimp only
      rw [Part.results, Part.results, Part.placed, List.map_cons, Part.sets, Array.append_assoc,
        Array.size_append]

/-- An entry is finished with the results of its clauses. -/
theorem compileEntry_run_of_ok {config : Config} {entry : Entry} {s s' : Session}
    {results : List (Layout × Completion)} {first : Tagged} {others : List Tagged}
    (hrun : (entry.clauses.zipIdx.mapM fun (clause, action) =>
      compileEntryClause config entry.name clause action).run.run s = (.ok results, s'))
    (hbranches : results.map branch = first :: others) :
    ∃ trace, (compileEntry config entry).run.run s =
      (.ok {
        name := entry.name
        returnType := entry.returnType
        visibility := entry.visibility
        shortest := entry.shortest
        args? := entry.args?
        regular := joinBranches first others
        cells := (results.map (·.1.cells)).foldl max 0
        completions := results.map (·.2) }, ⟨s'.pool, trace⟩) := by
  refine ⟨s'.trace ++ #[.entryDone entry.name results.length
    ((results.map (·.1.cells)).foldl max 0)], (bind_run_of_ok hrun _).trans ?_⟩
  rw [hbranches]
  rfl

/-- Branches with an action each are all joined. -/
theorem joinBranches_eq {first : Tagged} {others : List Tagged} (hsome : first.actions ≠ [])
    (hnodup : ((first :: others).flatMap Tagged.actions).Nodup) :
    joinBranches first others = .alternation (first :: others) :=
  Tagged.foldl_either_of_nodup hsome hnodup

theorem foldl_max_eq (cells : List Nat) : cells.foldl max 0 = cells.max?.getD 0 := by
  cases cells with
  | nil => rfl
  | cons c cells => rw [List.max?_cons', List.foldl_cons, Nat.zero_max]; rfl

theorem map_action_of_sources {parts : List (Part config)} {clauses : List Clause}
    (h : parts.map Part.source = clauses.zipIdx) :
    parts.map Part.action = List.range clauses.length := by
  have hindices := congrArg (List.map Prod.snd) h
  rw [List.map_map, List.zipIdx_map_snd, ← List.range_eq_range'] at hindices
  exact hindices

/-- An entry with clauses is put together from their parts. -/
theorem compileEntry_run (config : Config) (entry : Entry) (hclauses : entry.clauses ≠ []) :
    ∃ parts : List (Part config), parts.map Part.source = entry.clauses.zipIdx ∧
      ∀ s, ∃ trace, (compileEntry config entry).run.run s =
        (.ok (entry.link s.pool.size parts), ⟨s.pool ++ Part.sets parts, trace⟩) := by
  obtain ⟨parts, hsources, hparts⟩ :=
    mapM_compileEntryClause_run config entry.name entry.clauses.zipIdx
  refine ⟨parts, hsources, fun s => ?_⟩
  obtain ⟨trace, hrun⟩ := hparts s
  have hactions := Part.flatMap_actions_branches s.pool.size parts
  rw [map_action_of_sources hsources] at hactions
  have hmap := Part.map_branch_results s.pool.size parts
  cases hbranches : Part.branches s.pool.size parts with
  | nil =>
      rw [hbranches] at hactions
      have hzero : entry.clauses.length = 0 := List.range_eq_nil.1 hactions.symm
      exact absurd (List.eq_nil_of_length_eq_zero hzero) hclauses
  | cons first others =>
      obtain ⟨last, hentry⟩ := compileEntry_run_of_ok hrun (hmap.trans hbranches)
      rw [hbranches] at hactions
      have hsome : first.actions ≠ [] :=
        Part.actions_ne_nil_of_mem_branches (hbranches ▸ List.mem_cons_self)
      refine ⟨last, hentry.trans ?_⟩
      rw [joinBranches_eq hsome (hactions ▸ List.nodup_range), ← hbranches, foldl_max_eq,
        Part.map_cells_results, Part.map_snd_results]
      rfl

/-- So are all entries, one behind the other. -/
theorem mapM_compileEntry_run (config : Config) (entries : List Entry)
    (hclauses : ∀ e ∈ entries, e.clauses ≠ []) :
    ∃ parts : List (List (Part config)),
      parts.map (·.map Part.source) = entries.map (·.clauses.zipIdx) ∧
      ∀ s, ∃ trace, (entries.mapM (compileEntry config)).run.run s =
        (.ok (linkEntries s.pool.size (entries.zip parts)),
          ⟨s.pool ++ Part.sets parts.flatten, trace⟩) := by
  induction entries with
  | nil =>
      refine ⟨[], rfl, fun s => ⟨s.trace, ?_⟩⟩
      rw [List.flatten_nil, Part.sets, Array.append_empty]
      rfl
  | cons entry entries ih =>
      obtain ⟨parts, hsources, hparts⟩ :=
        compileEntry_run config entry (hclauses entry List.mem_cons_self)
      obtain ⟨rest, hrests, hrest⟩ := ih fun e he => hclauses e (List.mem_cons_of_mem _ he)
      refine ⟨parts :: rest, by rw [List.map_cons, List.map_cons, hsources, hrests],
        fun s => ?_⟩
      obtain ⟨trace, hentry⟩ := hparts s
      obtain ⟨last, hentries⟩ := hrest ⟨s.pool ++ Part.sets parts, trace⟩
      refine ⟨last, (mapM_run_cons_of_ok _ entry hentry hentries).trans ?_⟩
      dsimp only
      rw [List.zip_cons_cons, linkEntries, List.flatten_cons, Part.sets_append,
        Array.append_assoc, Array.size_append]

end Session

/-- The actions of an entry are those of its parts. -/
theorem Entry.actions_link (entry : Entry) (offset : Nat) (parts : List (Part config)) :
    (entry.link offset parts).regular.actions = parts.map Part.action := by
  rw [← Part.flatMap_actions_branches offset parts]
  exact Tagged.flatMap_alternation rfl (fun _ _ => rfl) _

theorem map_actions_linkEntries (offset : Nat) (linked : List (Entry × List (Part config))) :
    (linkEntries offset linked).map (·.regular.actions) =
      linked.map fun e => e.2.map Part.action := by
  induction linked generalizing offset with
  | nil => rfl
  | cons e linked ih =>
      obtain ⟨entry, parts⟩ := e
      rw [linkEntries, List.map_cons, List.map_cons, ih, Entry.actions_link]

theorem map_actions_link (lexer : Lexer) {parts : List (List (Part config))}
    (h : parts.map (·.map Part.source) = lexer.entries.map (·.clauses.zipIdx)) :
    (lexer.link parts).entries.map (·.regular.actions) =
      lexer.entries.map fun e => List.range e.clauses.length := by
  have hlength := congrArg List.length h
  rw [List.length_map, List.length_map] at hlength
  have hactions := congrArg (List.map (List.map Prod.snd)) h
  simp only [List.map_map, Function.comp_def, List.zipIdx_map_snd, ← List.range_eq_range']
    at hactions
  have hparts := congrArg (List.map (List.map Part.action))
    (List.map_snd_zip (Nat.le_of_eq hlength))
  rw [List.map_map] at hparts
  exact (map_actions_linkEntries 0 _).trans (hparts.trans hactions)

/-- A lexer whose entries have clauses is put together from these. -/
theorem Lexer.compile_link (config : Config) (lexer : Lexer)
    (hclauses : ∀ e ∈ lexer.entries, e.clauses ≠ []) :
    ∃ (parts : List (List (Part config))) (trace : Array Event),
      parts.map (·.map Part.source) = lexer.entries.map (·.clauses.zipIdx) ∧
      (lexer.compile config).run.run {} =
        (.ok (lexer.link parts), ⟨Part.sets parts.flatten, trace⟩) := by
  obtain ⟨parts, hsources, hparts⟩ :=
    Session.mapM_compileEntry_run config lexer.entries hclauses
  obtain ⟨trace, hrun⟩ := hparts {}
  refine ⟨parts, trace, hsources, (Session.bind_run_of_ok hrun _).trans ?_⟩
  show (Except.ok (CompiledLexer.mk _ _ _ _ _), _) = _
  rw [Array.empty_append]
  rfl

/-- A lexer whose entries have clauses is put together from these, compiled each by itself. Each
entry has the actions of its clauses once and in order, and the tags of a clause carry its
action. -/
theorem Lexer.compile_eq_link (config : Config) (lexer : Lexer)
    (hclauses : ∀ e ∈ lexer.entries, e.clauses ≠ []) :
    ∃ (parts : List (List (Part config))) (trace : Array Event),
      parts.map (·.map Part.source) = lexer.entries.map (·.clauses.zipIdx) ∧
      (lexer.compile config).run.run {} =
        (.ok (lexer.link parts), ⟨Part.sets parts.flatten, trace⟩) ∧
      (lexer.link parts).entries.map (·.regular.actions) =
        lexer.entries.map (fun e => List.range e.clauses.length) ∧
      ∀ part ∈ parts.flatten, ∀ t ∈ part.layout.regular.tags, t.action = part.action := by
  obtain ⟨parts, trace, hsources, hrun⟩ := lexer.compile_link config hclauses
  exact ⟨parts, trace, hsources, hrun, map_actions_link lexer hsources,
    fun part _ t ht => part.action_of_mem_tags ht⟩

/-- Two clauses of the same set come to two branches, with an index and an action each. -/
theorem Lexer.compile_eq_link_twice :
    let lexer : Lexer :=
      { entries := [
          { name := "unit"
            returnType := default
            clauses := [⟨.chars (.single 97), default⟩, ⟨.chars (.single 97), default⟩] }] }
    ∃ (parts : List (List (Part ⟨true⟩))) (trace : Array Event),
      parts.map (·.map Part.source) = lexer.entries.map (·.clauses.zipIdx) ∧
      (lexer.compile ⟨true⟩).run.run {} =
        (.ok (lexer.link parts), ⟨#[.single 97, .single 97], trace⟩) ∧
      (lexer.link parts).entries.map (·.regular) =
        [.alt (.seq (.chars 0) (.action 0)) (.seq (.chars 1) (.action 1))] := by
  intro lexer
  obtain ⟨parts, trace, hsources, hrun, -⟩ := Lexer.compile_eq_link ⟨true⟩ lexer (by decide)
  have hpool : #[.single 97, .single 97] = Part.sets parts.flatten :=
    congrArg (fun r => r.2.pool) hrun
  have hregulars := congrArg (fun r => r.1.toOption.map fun c => c.entries.map (·.regular)) hrun
  exact ⟨parts, trace, hsources, hpool ▸ hrun, (Option.some.inj hregulars).symm⟩

end LexTags
