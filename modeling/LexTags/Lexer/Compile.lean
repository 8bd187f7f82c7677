import LexTags.Lexer.Compiled
import LexTags.Pattern.Shadowing

/-!
# Compiling a lexer

A clause is compiled by dropping shadowed bindings, collecting the usage of its names,
encoding it and laying it out. An entry is the alternation of its clauses, in order, each
with its action at the end.

All clauses of a session share one pool, so that an index means the same set everywhere. The
session also keeps the trace, and both outlive a failure.
-/

namespace LexTags

structure Config where
  /-- Place tags by the start and the end of the match before giving out cells. -/
  optimise : Bool := true
deriving DecidableEq

instance : Inhabited Config := ⟨{}⟩

inductive CompileError where
  | emptyEntry (entry : String)
  | clause (entry : String) (action : Nat) (cause : ClauseError)
deriving DecidableEq

def CompileError.message : CompileError → String
  | emptyEntry entry => s!"entry `{entry}` has no clause"
  | clause entry action cause => s!"clause {action} of entry `{entry}`: {cause.message}"

/-- What the compilation of several clauses has in common. -/
structure Session where
  pool : Pool := #[]
  trace : Array Event := #[]
deriving Inhabited

namespace Session

def emit (events : Array Event) : StateM Session Unit :=
  modify fun s => { s with trace := s.trace ++ events }

/-- Runs an encoding on the pool of the session. -/
def encode (charNames : OrderedSet String) (action : Nat) (p : Pattern) :
    StateM Session Tagged := fun s =>
  let (tagged, pool) := (p.encode charNames action).run s.pool
  (tagged, { s with pool })

/-- Compiles the clause of an action. -/
def compileClause (config : Config) (action : Nat) (p : Pattern) :
    ExceptT ClauseError (StateM Session) Layout := do
  let p := p.withoutShadowed
  let usage := p.usage
  let clause ← encode usage.charNames action p
  match clause.layout usage config.optimise with
  | .error fault => throw fault
  | .ok (layout, events) =>
      emit events
      return layout

/-- Compiles a clause as part of an entry. -/
def compileEntryClause (config : Config) (entry : String) (clause : Clause) (action : Nat) :
    ExceptT CompileError (StateM Session) (Layout × Completion) := do
  let layout ← (compileClause config action clause.pattern).adapt (.clause entry action)
  emit #[.clauseDone entry action layout.cells layout.regular.tags.length]
  return (layout, ⟨action, layout.captures, clause.action⟩)

/-- One expression for all clauses, from a first one and those that follow. -/
def joinBranches (first : Tagged) (others : List Tagged) : Tagged :=
  others.foldl .either first

/-- The clause of a layout with its action at the end. -/
def branch (result : Layout × Completion) : Tagged :=
  result.1.regular ++ .action result.2.action

def compileEntry (config : Config) (entry : Entry) :
    ExceptT CompileError (StateM Session) CompiledEntry := do
  let results ← entry.clauses.zipIdx.mapM fun (clause, action) =>
    compileEntryClause config entry.name clause action
  match results.map branch with
  | [] => throw (.emptyEntry entry.name)
  | first :: others =>
      let cells := (results.map (·.1.cells)).foldl max 0
      emit #[.entryDone entry.name results.length cells]
      return {
        name := entry.name
        returnType := entry.returnType
        visibility := entry.visibility
        shortest := entry.shortest
        args? := entry.args?
        regular := joinBranches first others
        cells
        completions := results.map (·.2) }

end Session

/-- Compiles the entries of a lexer in one session, up to the first that fails. -/
def Lexer.compile (config : Config) (lexer : Lexer) :
    ExceptT CompileError (StateM Session) CompiledLexer := do
  let entries ← lexer.entries.mapM (Session.compileEntry config)
  let session ← get
  return {
    imports := lexer.imports
    header? := lexer.header?
    entries
    pool := session.pool
    footer? := lexer.footer? }

end LexTags
