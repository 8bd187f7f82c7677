import LexTags.Collection.Distinct
import LexTags.Lexer.Compile
import LexTags.Pattern.Matching
import LexTags.Pattern.Witness
import LexTags.Tagged.Matching

/-!
# Certifying a layout

A layout is right if the text it finds for each name is the text that the pattern binds.
Certification tests this on witnesses of the pattern: both forms are matched, the address of
each bound name is followed with the positions that the tags recorded, and the texts are
compared. Every recorded tag has to serve some name, or else its cell is wasted.
-/

namespace LexTags

/-- What certification has found. -/
inductive Discrepancy where
  | sourceMismatch (witness regular : String)
  | optimisedMismatch (witness regular : String)
  | missingName (name : String)
  /-- An address counts from a cell that no recorded tag owns. -/
  | unownedCell (witness : String) (address : Address)
  | outOfBounds (witness : String) (address : Address)
  | bindingMismatch (witness name expected found : String)
  /-- Recorded tags serve no name. -/
  | unusedTags (witness tags : String)
  | clause (cause : ClauseError)
deriving DecidableEq

def Discrepancy.message : Discrepancy → String
  | sourceMismatch witness regular => s!"witness \"{witness}\" does not match `{regular}`"
  | optimisedMismatch witness regular =>
      s!"witness \"{witness}\" does not match the optimised `{regular}`"
  | missingName name => s!"no address for `{name}`"
  | unownedCell witness address =>
      s!"with \"{witness}\", {address} is based on a cell no recorded tag owns"
  | outOfBounds witness address => s!"with \"{witness}\", {address} is out of bounds"
  | bindingMismatch witness name expected found =>
      s!"with \"{witness}\", `{name}` decodes to \"{found}\" instead of \"{expected}\""
  | unusedTags witness tags =>
      s!"with \"{witness}\", tags {tags} are not used by any binding"
  | clause cause => cause.message

structure Crossing where
  tag : Tag
  /-- Where it was crossed last. -/
  position : Nat
  /-- The address that the layout has for the boundary. -/
  address? : Option Address

/-- One match of a text by the tagged expression of a layout. -/
structure Reading where
  layout : Layout
  text : Text
  crossings : List Crossing

namespace Reading

/-- The reading of a text, from the position of each tag that was crossed. -/
def ofMarkers (layout : Layout) (text : Text) (markers : OrderedMap Tag Nat) : Reading where
  layout := layout
  text := text
  crossings := markers.entries.map fun (tag, position) =>
    ⟨tag, position, layout.addresses.get? tag.boundary⟩

/-- The first crossing of a tag whose boundary owns a cell. -/
def recorded? (r : Reading) (cell : Nat) : Option Crossing :=
  if cell < r.layout.cells then r.crossings.find? (·.address? = some (.atCell cell)) else none

def cellPosition? (r : Reading) (cell : Nat) : Option Nat :=
  (r.recorded? cell).map Crossing.position

/-- The tag that an address depends on. -/
def owner? (r : Reading) (a : Address) : Option Tag :=
  match a.anchor with
  | .cell c => (r.recorded? c).map Crossing.tag
  | _ => none

/-- The address counts from a cell that no recorded tag owns. -/
def isUnowned (r : Reading) (a : Address) : Bool :=
  match a.anchor with
  | .cell c => (r.recorded? c).isNone
  | _ => false

/-- The position that an address stands for. -/
def position (r : Reading) (a : Address) : Except Discrepancy Nat :=
  if r.isUnowned a then .error (.unownedCell r.text.decode a)
  else
    match a.resolve? 0 r.text.length r.cellPosition? with
    | some i => .ok i
    | none => .error (.outOfBounds r.text.decode a)

/-- The stretch of the text that a capture stands for. -/
def span (r : Reading) (c : Capture) : Except Discrepancy Span := do
  let start ← r.position c.start
  let stop ←
    match c.stop? with
    | some stop => r.position stop
    | none => pure (start + 1)
  if start ≤ stop ∧ stop ≤ r.text.length then return ⟨start, stop⟩
  throw (.outOfBounds r.text.decode (c.stop?.getD c.start))

/-- Compares the text found for a name with the one that the pattern binds to it. -/
def checkBinding (r : Reading) (name : String) (bound : Span) : Except Discrepancy Unit := do
  match r.layout.captures.get? name with
  | none => throw (.missingName name)
  | some capture =>
      let found := cut (← r.span capture)
      let expected := cut bound
      if found = expected then return
      throw (.bindingMismatch r.text.decode name expected.decode found.decode)
where
  cut (s : Span) : Text := (r.text.drop s.start).take (s.stop - s.start)

/-- The tags that the addresses of a name depend on. -/
def tagsOf (r : Reading) (name : String) : List Tag :=
  match r.layout.captures.get? name with
  | none => []
  | some c => (c.start :: c.stop?.toList).filterMap r.owner?

/-- The recorded tags that none of the given names depends on. -/
def unusedTags (r : Reading) (names : OrderedSet String) : List Tag :=
  let used := names.toList.flatMap r.tagsOf
  (r.crossings.map Crossing.tag).filter (· ∉ used)

end Reading

/-- Checks a layout on one text of the pattern. -/
def Layout.check (layout : Layout) (pool : Pool) (p : Pattern) (text : Text) :
    Except Discrepancy Unit := do
  match p.firstMatch? text, layout.regular.firstMatch? pool text with
  | none, _ => throw (.sourceMismatch text.decode p.render)
  | some _, none => throw (.optimisedMismatch text.decode layout.regular.render)
  | some bindings, some markers =>
      let reading := Reading.ofMarkers layout text markers
      bindings.entries.forM fun (name, bound) => reading.checkBinding name bound
      let unused := reading.unusedTags bindings.keys
      if unused.isEmpty then return
      throw (.unusedTags text.decode (", ".intercalate (unused.map toString)))

/-- The texts on which a pattern is tested: the first distinct ones of four times as many
witnesses. -/
def Pattern.samples (p : Pattern) (count : Nat) : List Text :=
  firstDistinct count [] (p.witnesses (4 * count))

/-- Checks a layout on samples of the pattern that it was made from. -/
def Layout.certify (layout : Layout) (pool : Pool) (p : Pattern) (count : Nat) :
    Except Discrepancy Unit :=
  let p := p.withoutShadowed
  (p.samples count).forM (layout.check pool p)

/-- Compiles a pattern as a clause of its own, and checks the layout. -/
def Pattern.certify (config : Config) (p : Pattern) (count : Nat) :
    ExceptT Discrepancy (StateM Session) Unit := do
  let layout ← (Session.compileClause config 0 p).adapt .clause
  let session ← get
  layout.certify session.pool p count

end LexTags
