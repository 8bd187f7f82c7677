import LexTags.Collection.OrderedMap
import LexTags.Pattern.Usage
import LexTags.Tagged.Basic
import LexTags.Trace

/-!
# Laying out a clause

The position of every tag has to be known after a match, and a cell in memory is the last
resort. The layout of a clause gives each boundary an address and drops the tags that are
not needed for it, in three passes:

- from the start, tags at a fixed distance behind the start of the match;
- from the end, tags at a fixed distance before its end;
- of what is left, each tag at a fixed distance behind one that is kept takes its address
  from that one, and any other is kept and gets a cell.

The first two are optional. A tag of a name that one match can bind more than once is always
kept, and its cell holds the last position. Alternations and repetitions with tags inside
are taken as a whole: no pass looks into them, and what lies behind them is placed by their
size alone.
-/

namespace LexTags

/-- Why a clause cannot be laid out. Both carry the printed form of the whole clause. -/
inductive ClauseError where
  | unexpectedAction (action : Nat) (clause : String)
  /-- A tag binds a name that the usage does not know. -/
  | unknownBinding (name tag clause : String)
deriving DecidableEq

def ClauseError.message : ClauseError → String
  | unexpectedAction action clause => s!"unexpected action {action} in clause `{clause}`"
  | unknownBinding name tag clause =>
      s!"tag `{tag}` binds `{name}`, which is not in the variable summary of `{clause}`"

/-- A clause with an address for each boundary. -/
structure Layout where
  /-- The clause, with the tags that are still needed. -/
  regular : Tagged
  /-- Where the text of each name is found, in the order of the usage. -/
  captures : OrderedMap String Capture
  cells : Nat
  addresses : OrderedMap Boundary Address
deriving DecidableEq

namespace Layout

/-- The boundary whose position a cell holds. -/
def cellOwner? (l : Layout) (cell : Nat) : Option Boundary :=
  (l.addresses.entries.find? (·.2 = .atCell cell)).map Prod.fst

/-- What a layout has decided so far. -/
structure Ledger where
  addresses : OrderedMap Boundary Address
  cells : Nat
  trace : Array Event

instance : Inhabited Ledger := ⟨⟨.empty, 0, #[]⟩⟩

/-- Records that a boundary is found at an address. -/
def record (b : Boundary) (a : Address) : StateM Ledger Unit := fun ledger =>
  ((), { ledger with
    addresses := ledger.addresses.insert b a
    trace := ledger.trace.push (.resolved b a) })

/-- The address of a boundary, which gets the next cell if it has none. -/
def addressOf (b : Boundary) : StateM Ledger Address := fun ledger =>
  match ledger.addresses.get? b with
  | some a => (a, ledger)
  | none =>
      let a := Address.atCell ledger.cells
      (a, { addresses := ledger.addresses.insert b a
            cells := ledger.cells + 1
            trace := ledger.trace.push (.stored b a) })

/-- Resolves tags at a known distance behind the start of the match, where `pos` is the
distance of the expression. The other result is the distance of what follows; once it is
unknown the rest is left as it is. -/
def resolveFromStart (usage : Usage) (pos : Nat) :
    Tagged → StateM Ledger (Option Nat × Tagged)
  | .tag t => do
      if usage.isRepeated t.boundary.name then return (some pos, .tag t)
      record t.boundary (.afterStart pos)
      return (some pos, .epsilon)
  | .seq a b => do
      if !(Tagged.seq a b).hasTags then
        return (advance? pos (Tagged.seq a b).size?, .seq a b)
      match ← resolveFromStart usage pos a with
      | (none, a) => return (none, a ++ b)
      | (some next, a) =>
          let (next, b) ← resolveFromStart usage next b
          return (next, a ++ b)
  | p => return (advance? pos p.size?, p)

/-- Resolves tags at a known distance before the end of the match, where `pos` is the
distance of the expression. The other result is the distance of what precedes. -/
def resolveFromEnd (usage : Usage) (pos : Nat) :
    Tagged → StateM Ledger (Option Nat × Tagged)
  | .tag t => do
      if usage.isRepeated t.boundary.name then return (some pos, .tag t)
      record t.boundary (.beforeEnd pos)
      return (some pos, .epsilon)
  | .seq a b => do
      if !(Tagged.seq a b).hasTags then
        return (advance? pos (Tagged.seq a b).size?, .seq a b)
      match ← resolveFromEnd usage pos b with
      | (none, b) => return (none, a ++ b)
      | (some next, b) =>
          let (next, a) ← resolveFromEnd usage next a
          return (next, a ++ b)
  | p => return (advance? pos p.size?, p)

/-- Resolves tags at a known distance behind a tag that is kept, and gives cells to the
others. `here?` is the address of the place where the expression stands, if it is known; the
other result is that of the place behind it. -/
def allocate (usage : Usage) (here? : Option Address) :
    Tagged → StateM Ledger (Option Address × Tagged)
  | .tag t => do
      if usage.isRepeated t.boundary.name then return (here?, .tag t)
      match here? with
      | some a =>
          record t.boundary a
          return (some a, .epsilon)
      | none =>
          let a ← addressOf t.boundary
          return (some a, .tag t)
  | .seq a b => do
      if !(Tagged.seq a b).hasTags then
        return (Address.behind? here? (Tagged.seq a b).size?, .seq a b)
      let (here?, a) ← allocate usage here? a
      let (here?, b) ← allocate usage here? b
      return (here?, a ++ b)
  | p => return (Address.behind? here? p.size?, p)

/-- Where the text of a name is found, which covers one unit if the name is in `charNames`.
Boundaries that no pass came across get a cell. -/
def captureOf (charNames optional : OrderedSet String) (name : String) :
    StateM Ledger Capture := do
  let start ← addressOf (.opening name)
  if name ∈ charNames then return ⟨name ∈ optional, start, none⟩
  let stop ← addressOf (.closing name)
  return ⟨name ∈ optional, start, some stop⟩

/-- The captures of all names of a usage, in order. -/
def capturesOf (usage : Usage) : StateM Ledger (OrderedMap String Capture) := do
  let charNames := usage.charNames
  let entries ← usage.bound.toList.mapM fun name =>
    return (name, ← captureOf charNames usage.optional name)
  return .ofList entries

/-- The clause without the tags whose positions are known from the match alone. -/
def resolveStatically (usage : Usage) (clause : Tagged) : StateM Ledger Tagged := do
  if !clause.hasTags then return clause
  let (_, clause) ← resolveFromStart usage 0 clause
  let (_, clause) ← resolveFromEnd usage 0 clause
  return clause

/-- The layout of a clause that has no fault; `optimise` asks for the passes that place tags
by the start and the end of the match. -/
def compute (usage : Usage) (optimise : Bool) (clause : Tagged) : StateM Ledger Layout := do
  let clause ← if optimise then resolveStatically usage clause else pure clause
  let (_, regular) ← allocate usage none clause
  let captures ← capturesOf usage
  let ledger ← get
  return ⟨regular, captures, ledger.cells, ledger.addresses⟩

/-- The leftmost action, or tag of an unknown name, as the fault of a clause with the given
printed form. -/
def faultIn? (usage : Usage) (clause : String) : Tagged → Option ClauseError
  | .action id => some (.unexpectedAction id clause)
  | .tag t =>
      if t.boundary.name ∈ usage.bound then none
      else some (.unknownBinding t.boundary.name (toString t) clause)
  | .alt l r => (faultIn? usage clause l).or (faultIn? usage clause r)
  | .seq a b => (faultIn? usage clause a).or (faultIn? usage clause b)
  | .star p => faultIn? usage clause p
  | _ => none

end Layout

/-- The layout of a clause, and the trace of the decisions. -/
def Tagged.layout (usage : Usage) (optimise : Bool) (clause : Tagged) :
    Except ClauseError (Layout × Array Event) :=
  match Layout.faultIn? usage clause.render clause with
  | some fault => .error fault
  | none =>
      let (layout, ledger) := (Layout.compute usage optimise clause).run default
      .ok (layout, ledger.trace)

end LexTags
