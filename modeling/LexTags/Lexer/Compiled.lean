import LexTags.Lexer.Description
import LexTags.Tagged.Encoding
import LexTags.Tagged.Layout

/-!
# Compiled lexers

A compiled entry is a single tagged expression for all its clauses, in which the action that
is reached tells the clause. For each action it says where the bound texts are found.
-/

namespace LexTags

/-- What to do once a clause has matched. -/
structure Completion where
  action : Nat
  captures : OrderedMap String Capture
  location : Location
deriving DecidableEq

/-- An entry as one tagged expression. -/
structure CompiledEntry where
  name : String
  returnType : Location
  visibility : Visibility
  /-- The shortest match counts, not the longest. -/
  shortest : Bool
  args? : Option Location
  /-- The alternation of the clauses, each followed by its action. -/
  regular : Tagged
  /-- Number of cells that the most demanding clause needs. -/
  cells : Nat
  /-- One for each clause, at the index of its action. -/
  completions : List Completion
deriving DecidableEq

namespace CompiledEntry

def completion? (e : CompiledEntry) (action : Nat) : Option Completion :=
  e.completions[action]?

def completionLines (c : Completion) : List String :=
  ("  - \x7b" ++ toString c.action ++ "\x7d at " ++ toString c.location) ::
    c.captures.entries.map fun (name, capture) => s!"      {name}: {capture}"

/-- The printed form of an entry, on several lines. -/
def render (e : CompiledEntry) : String :=
  let args :=
    match e.args? with
    | some args => s!"({args})"
    | none => "()"
  let mode := if e.shortest then " [shortest]" else ""
  let lines :=
    [s!"{e.visibility} {e.name}{args}: {e.returnType}{mode}",
      s!"  regular: {e.regular}",
      s!"  cells: {e.cells}",
      "  actions:"] ++ e.completions.flatMap completionLines
  String.join (lines.map (· ++ "\n"))

end CompiledEntry

/-- A compiled lexer, and the sets that its expressions refer to. -/
structure CompiledLexer where
  imports : List Location
  /-- Where the code before the entries stands. -/
  header? : Option Location
  entries : List CompiledEntry
  pool : Pool
  footer? : Option Location
deriving DecidableEq

end LexTags
