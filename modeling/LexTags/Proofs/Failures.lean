import LexTags.Proofs.Numbering

/-!
# Only an entry without clauses fails to compile

There are three ways in which compiling a lexer could fail: an entry has no clauses, a clause
has a fault, or a pass of the layout comes upon an expression that it has no case for. The
last one is about passes that first let every expression without tags through as it is, and
then have cases for the remaining forms only. Written like this, with `failure` where there is
no case, they are the passes of the layout for all expressions, so the test covers exactly what
is left out after it. Faults are ruled out by what the encoding puts into a clause. So the
compilation runs up to the first entry without clauses, and to the end if there is none.

Nor does it run out of numbers for sets, clauses and cells. They are natural numbers here, and
32 bits are enough for them as long as they are for the counts.
-/

namespace LexTags

namespace Layout

variable {usage : Usage}

/-! ## Passes that leave cases out -/

/-- `resolveFromStart` without the cases that a test for tags makes superfluous. -/
def resolveFromStart? (usage : Usage) (pos : Nat) (p : Tagged) :
    OptionT (StateM Ledger) (Option Nat × Tagged) := do
  if !p.hasTags then return (advance? pos p.size?, p)
  match p with
  | .tag t =>
      if usage.isRepeated t.boundary.name then return (some pos, .tag t)
      record t.boundary (.afterStart pos)
      return (some pos, .epsilon)
  | .seq a b =>
      match ← resolveFromStart? usage pos a with
      | (none, a) => return (none, a ++ b)
      | (some next, a) =>
          let (next, b) ← resolveFromStart? usage next b
          return (next, a ++ b)
  | .alt l r => return (advance? pos (Tagged.alt l r).size?, .alt l r)
  | .star p => return (advance? pos (Tagged.star p).size?, .star p)
  | .epsilon | .chars _ | .eof _ | .action _ => failure

/-- `resolveFromEnd` without the cases that a test for tags makes superfluous. -/
def resolveFromEnd? (usage : Usage) (pos : Nat) (p : Tagged) :
    OptionT (StateM Ledger) (Option Nat × Tagged) := do
  if !p.hasTags then return (advance? pos p.size?, p)
  match p with
  | .tag t =>
      if usage.isRepeated t.boundary.name then return (some pos, .tag t)
      record t.boundary (.beforeEnd pos)
      return (some pos, .epsilon)
  | .seq a b =>
      match ← resolveFromEnd? usage pos b with
      | (none, b) => return (none, a ++ b)
      | (some next, b) =>
          let (next, a) ← resolveFromEnd? usage next a
          return (next, a ++ b)
  | .alt l r => return (advance? pos (Tagged.alt l r).size?, .alt l r)
  | .star p => return (advance? pos (Tagged.star p).size?, .star p)
  | .epsilon | .chars _ | .eof _ | .action _ => failure

/-- `allocate` without the cases that a test for tags makes superfluous. -/
def allocate? (usage : Usage) (here? : Option Address) (p : Tagged) :
    OptionT (StateM Ledger) (Option Address × Tagged) := do
  if !p.hasTags then return (Address.behind? here? p.size?, p)
  match p with
  | .tag t =>
      if usage.isRepeated t.boundary.name then return (here?, .tag t)
      match here? with
      | some a =>
          record t.boundary a
          return (some a, .epsilon)
      | none =>
          let a ← addressOf t.boundary
          return (some a, .tag t)
  | .seq a b =>
      let (here?, a) ← allocate? usage here? a
      let (here?, b) ← allocate? usage here? b
      return (here?, a ++ b)
  | .alt l r => return (Address.behind? here? (Tagged.alt l r).size?, .alt l r)
  | .star p => return (none, .star p)
  | .epsilon | .chars _ | .eof _ | .action _ => failure

/-- The layout of a clause by these passes. -/
def compute? (usage : Usage) (optimise : Bool) (clause : Tagged) :
    OptionT (StateM Ledger) Layout := do
  let mut clause := clause
  if optimise && clause.hasTags then
    let (_, resolved) ← resolveFromStart? usage 0 clause
    let (_, resolved) ← resolveFromEnd? usage 0 resolved
    clause := resolved
  let (_, regular) ← allocate? usage none clause
  let captures ← capturesOf usage
  let ledger ← get
  return ⟨regular, captures, ledger.cells, ledger.addresses⟩

theorem resolveFromStart?_eq (p : Tagged) (pos : Nat) :
    resolveFromStart? usage pos p = liftM (resolveFromStart usage pos p) := by
  induction p generalizing pos with
  | epsilon | chars _ | eof _ | action _ => rfl
  | tag t =>
      rw [resolveFromStart?, resolveFromStart]
      cases usage.isRepeated t.boundary.name <;> rfl
  | seq a b iha ihb =>
      rw [resolveFromStart?, resolveFromStart]
      cases (Tagged.seq a b).hasTags with
      | false => rfl
      | true =>
          simp only [Bool.not_true, Bool.false_eq_true, if_false, iha, liftM_bind]
          congr 1
          funext r
          obtain ⟨next?, a⟩ := r
          cases next? with
          | none => rfl
          | some next =>
              dsimp only
              rw [ihb, liftM_bind]
              rfl
  | alt | star =>
      rw [resolveFromStart?]
      split <;> rfl

theorem resolveFromEnd?_eq (p : Tagged) (pos : Nat) :
    resolveFromEnd? usage pos p = liftM (resolveFromEnd usage pos p) := by
  induction p generalizing pos with
  | epsilon | chars _ | eof _ | action _ => rfl
  | tag t =>
      rw [resolveFromEnd?, resolveFromEnd]
      cases usage.isRepeated t.boundary.name <;> rfl
  | seq a b iha ihb =>
      rw [resolveFromEnd?, resolveFromEnd]
      cases (Tagged.seq a b).hasTags with
      | false => rfl
      | true =>
          simp only [Bool.not_true, Bool.false_eq_true, if_false, ihb, liftM_bind]
          congr 1
          funext r
          obtain ⟨next?, b⟩ := r
          cases next? with
          | none => rfl
          | some next =>
              dsimp only
              rw [iha, liftM_bind]
              rfl
  | alt | star =>
      rw [resolveFromEnd?]
      split <;> rfl

theorem allocate?_eq (p : Tagged) (here? : Option Address) :
    allocate? usage here? p = liftM (allocate usage here? p) := by
  induction p generalizing here? with
  | epsilon | chars _ | eof _ | action _ => rfl
  | tag t =>
      cases here? <;> rw [allocate?, allocate] <;> cases usage.isRepeated t.boundary.name <;> rfl
  | seq a b iha ihb =>
      rw [allocate?, allocate]
      cases (Tagged.seq a b).hasTags with
      | false => rfl
      | true =>
          simp only [Bool.not_true, Bool.false_eq_true, if_false, iha, ihb, liftM_bind]
          rfl
  | alt =>
      rw [allocate?]
      split <;> rfl
  | star p =>
      -- Nothing is known of the place behind a repetition, as it has no size.
      have hnone : Address.behind? here? (Tagged.star p).size? = none := by
        cases here? <;> rfl
      rw [allocate?, allocate, hnone]
      · split <;> rfl
      all_goals simp

/-- The layout never misses a case. -/
theorem compute?_eq (optimise : Bool) (clause : Tagged) :
    compute? usage optimise clause = liftM (compute usage optimise clause) := by
  rw [compute?, compute]
  simp only [resolveFromStart?_eq, resolveFromEnd?_eq, allocate?_eq]
  cases optimise with
  | false => rfl
  | true =>
      rw [resolveStatically]
      cases clause.hasTags <;> rfl

end Layout

/-! ## Runs that stop -/

namespace Session

theorem bind_run_of_error {ε σ α β : Type} {x : ExceptT ε (StateM σ) α} {s s' : σ} {e : ε}
    (h : x.run.run s = (.error e, s')) (f : α → ExceptT ε (StateM σ) β) :
    (x >>= f).run.run s = (.error e, s') := by
  show StateT.run (x >>= f).run s = _
  rw [ExceptT.run_bind, StateT.run_bind, h]
  rfl

/-- An entry without clauses fails under its name, before anything is compiled. -/
theorem compileEntry_run_of_nil (config : Config) {entry : Entry} (h : entry.clauses = [])
    (s : Session) :
    (compileEntry config entry).run.run s = (.error (.emptyEntry entry.name), s) := by
  rw [compileEntry, h]
  rfl

/-- The entries before the first one without clauses are compiled, and those behind it are not
looked at. -/
theorem mapM_compileEntry_run_of_nil (config : Config) {before : List Entry} {entry : Entry}
    (hbefore : ∀ e ∈ before, e.clauses ≠ []) (hentry : entry.clauses = [])
    (after : List Entry) (s : Session) :
    ∃ s', ((before ++ entry :: after).mapM (compileEntry config)).run.run s =
      (.error (.emptyEntry entry.name), s') := by
  obtain ⟨parts, -, hparts⟩ := mapM_compileEntry_run config before hbefore
  obtain ⟨trace, hrun⟩ := hparts s
  have hstop := compileEntry_run_of_nil config hentry ⟨s.pool ++ Part.sets parts.flatten, trace⟩
  refine ⟨⟨s.pool ++ Part.sets parts.flatten, trace⟩, ?_⟩
  rw [List.mapM_append, bind_run_of_ok hrun, List.mapM_cons]
  exact bind_run_of_error (bind_run_of_error hstop _) _

end Session

namespace Lexer

/-- The first entry without clauses. -/
def firstEmpty? (lexer : Lexer) : Option Entry :=
  lexer.entries.find? (·.clauses.isEmpty)

theorem firstEmpty?_eq_none {lexer : Lexer} :
    lexer.firstEmpty? = none ↔ ∀ e ∈ lexer.entries, e.clauses ≠ [] := by
  simp [firstEmpty?, List.find?_eq_none]

theorem firstEmpty?_eq_some {lexer : Lexer} {entry : Entry} :
    lexer.firstEmpty? = some entry ↔ entry.clauses = [] ∧ ∃ before after,
      lexer.entries = before ++ entry :: after ∧ ∀ e ∈ before, e.clauses ≠ [] := by
  simp [firstEmpty?, List.find?_eq_some_iff_append]

/-- Without such an entry the lexer is compiled, and otherwise the entry is what fails. -/
theorem compile_run (config : Config) (lexer : Lexer) :
    ∃ s, match lexer.firstEmpty? with
      | none => ∃ compiled, (lexer.compile config).run.run {} = (.ok compiled, s) ∧
          ∀ e ∈ compiled.entries, e.NumbersBelow compiled.pool.size e.completions.length e.cells
      | some e => (lexer.compile config).run.run {} = (.error (.emptyEntry e.name), s) := by
  cases h : lexer.firstEmpty? with
  | none =>
      obtain ⟨parts, trace, hsources, hrun⟩ :=
        lexer.compile_link config (firstEmpty?_eq_none.1 h)
      exact ⟨_, _, hrun, lexer.numbersBelow_link hsources⟩
  | some e =>
      obtain ⟨hempty, before, after, hsplit, hbefore⟩ := firstEmpty?_eq_some.1 h
      obtain ⟨s, hrun⟩ := Session.mapM_compileEntry_run_of_nil config hbefore hempty after {}
      rw [← hsplit] at hrun
      exact ⟨s, Session.bind_run_of_error hrun _⟩

/-- A lexer is compiled exactly if all its entries have clauses. Otherwise the first one without
is the error, which is never about a clause. The layout does not miss a case, whatever it is
given, and no number reaches the count that it belongs to. -/
theorem compile_fails_iff (config : Config) (lexer : Lexer) :
    ((∃ compiled s, (lexer.compile config).run.run {} = (.ok compiled, s)) ↔
      ∀ e ∈ lexer.entries, e.clauses ≠ []) ∧
    (∀ error, (∃ s, (lexer.compile config).run.run {} = (.error error, s)) ↔
      ∃ e, lexer.firstEmpty? = some e ∧ error = .emptyEntry e.name) ∧
    (∀ entry action cause s,
      (lexer.compile config).run.run {} ≠ (.error (.clause entry action cause), s)) ∧
    (∀ (usage : Usage) (clause : Tagged) (ledger : Layout.Ledger), ∃ layout ledger',
      (Layout.compute? usage config.optimise clause).run.run ledger = (some layout, ledger') ∧
      (Layout.compute usage config.optimise clause).run ledger = (layout, ledger')) ∧
    ∀ compiled s, (lexer.compile config).run.run {} = (.ok compiled, s) →
      ∀ e ∈ compiled.entries,
        e.NumbersBelow compiled.pool.size e.completions.length e.cells := by
  have hpasses : ∀ (usage : Usage) (clause : Tagged) (ledger : Layout.Ledger),
      ∃ layout ledger',
        (Layout.compute? usage config.optimise clause).run.run ledger =
          (some layout, ledger') ∧
        (Layout.compute usage config.optimise clause).run ledger = (layout, ledger') := by
    intro usage clause ledger
    rw [Layout.compute?_eq]
    exact ⟨_, _, rfl, rfl⟩
  obtain ⟨s, hrun⟩ := compile_run config lexer
  rw [← firstEmpty?_eq_none]
  cases h : lexer.firstEmpty? with
  | none =>
      rw [h] at hrun
      obtain ⟨compiled, hrun, hnumbers⟩ := hrun
      rw [hrun]
      refine ⟨iff_of_true ⟨_, _, rfl⟩ rfl, fun error => iff_of_false ?_ ?_, ?_, hpasses, ?_⟩
      · rintro ⟨s', hs'⟩
        cases hs'
      · rintro ⟨e, he, -⟩
        cases he
      · intro entry action cause s' hs'
        cases hs'
      · intro compiled' s' hs'
        cases hs'
        exact hnumbers
  | some e =>
      rw [h] at hrun
      dsimp only at hrun
      rw [hrun]
      refine ⟨iff_of_false ?_ nofun, fun error => ⟨?_, ?_⟩, ?_, hpasses, ?_⟩
      · rintro ⟨compiled, s', hs'⟩
        cases hs'
      · rintro ⟨s', hs'⟩
        cases hs'
        exact ⟨e, rfl, rfl⟩
      · rintro ⟨e', he', rfl⟩
        cases he'
        exact ⟨s, rfl⟩
      · intro entry action cause s' hs'
        cases hs'
      · intro compiled s' hs'
        cases hs'

/-- Of two entries without clauses, the one that comes first is the error. -/
theorem compile_fails_iff_second :
    ∃ s, (Lexer.compile ⟨true⟩
        { entries := [
            { name := "word"
              returnType := default
              clauses := [⟨.star (.chars (.single 97)), default⟩] },
            { name := "gap", returnType := default, clauses := [] },
            { name := "end", returnType := default, clauses := [] }] }).run.run {} =
      (.error (.emptyEntry "gap"), s) :=
  ((compile_fails_iff _ _).2.1 _).2 ⟨_, rfl, rfl⟩

end Lexer

end LexTags
