import LexTags.Address

/-!
# Trace

What the compiler tells about its work, in order: which boundaries it found an address for,
which got a cell, and what each clause and entry came to. A line starts with its level; the
decisions are for tracing, the summaries for debugging.
-/

namespace LexTags

/-- One line of the trace. -/
inductive Event where
  /-- The boundary is found at an address, so its tag is not needed. -/
  | resolved (boundary : Boundary) (address : Address)
  | stored (boundary : Boundary) (address : Address)
  | clauseDone (entry : String) (action cells tagsLeft : Nat)
  | entryDone (entry : String) (clauses cells : Nat)
deriving DecidableEq

instance : ToString Event where
  toString
    | .resolved b a => s!"TRACE {b} resolved to {a}"
    | .stored b a => s!"TRACE {b} stored in {a}"
    | .clauseDone entry action cells tagsLeft =>
        s!"DEBUG {entry}: clause {action} uses {cells} cell(s), {tagsLeft} tag(s) left"
    | .entryDone entry clauses cells =>
        s!"DEBUG {entry}: {clauses} clause(s), {cells} cell(s)"

end LexTags
