import LexTags.Json.Value
import LexTags.Lexer.Compiled

/-!
# Writing JSON

Records become objects, and a value of a type with several forms becomes the name of its
form, or an object with that name as its only key if there is more to say. A set is the list
of its intervals. Tagged expressions are written with the facts computed from them.

A map can only be written if its keys are names. The addresses of a layout have boundaries
as keys, so a layout is written only as long as it has none.
-/

namespace LexTags.Json

inductive EncodeError where
  /-- A map has keys that are not names. -/
  | compositeKey
deriving DecidableEq

def EncodeError.message : EncodeError → String
  | compositeKey => "key must be a string"

def ofInterval (i : Interval) : Json :=
  obj [("first", nat i.first.toNat), ("last", nat i.last.toNat)]

def ofCharSet (s : CharSet) : Json := arr (s.intervals.map ofInterval)

def ofPattern : Pattern → Json
  | .epsilon => str "epsilon"
  | .eof => str "eof"
  | .chars set => obj [("characters", ofCharSet set)]
  | .alt l r => obj [("alternate", arr [ofPattern l, ofPattern r])]
  | .seq a b => obj [("sequence", arr [ofPattern a, ofPattern b])]
  | .star p => obj [("repetition", ofPattern p)]
  | .bind name p => obj [("binding", obj [("name", str name), ("inner", ofPattern p)])]

def ofLocation (l : Location) : Json :=
  obj [("start", nat l.start.toNat), ("end", nat l.stop.toNat)]

def ofVisibility (v : Visibility) : Json := str (toString v)

def ofClause (c : Clause) : Json :=
  obj [("regular", ofPattern c.pattern), ("action", ofLocation c.action)]

def ofEntry (e : Entry) : Json :=
  obj [("visibility", ofVisibility e.visibility), ("name", str e.name),
    ("shortest", bool e.shortest), ("return_type", ofLocation e.returnType),
    ("args", ofOption ofLocation e.args?), ("clauses", arr (e.clauses.map ofClause))]

def ofLexer (l : Lexer) : Json :=
  obj [("imports", arr (l.imports.map ofLocation)), ("header", ofOption ofLocation l.header?),
    ("entries", arr (l.entries.map ofEntry)), ("footer", ofOption ofLocation l.footer?)]

def ofBoundary (b : Boundary) : Json :=
  obj [("name", str b.name), ("start", bool (b.side = .opening))]

def ofTag (t : Tag) : Json :=
  obj [("name", str t.boundary.name), ("start", bool (t.boundary.side = .opening)),
    ("action", nat t.action)]

/-- The form of a tagged expression together with the facts computed from it. -/
def withFacts (p : Tagged) (kind : Json) : Json :=
  obj [("kind", kind), ("size", ofOption nat p.size?), ("has_tags", bool p.hasTags),
    ("has_actions", bool p.hasActions), ("nullable", bool p.nullable)]

def ofPooled (id : Nat) (eof : Bool) : Json :=
  obj [("characters", obj [("charset", nat id), ("eof", bool eof)])]

def ofTagged (p : Tagged) : Json :=
  withFacts p <|
    match p with
    | .epsilon => str "epsilon"
    | .chars id => ofPooled id false
    | .eof id => ofPooled id true
    | .tag t => obj [("tag", ofTag t)]
    | .action id => obj [("action", nat id)]
    | .alt l r => obj [("alternate", arr [ofTagged l, ofTagged r])]
    | .seq a b => obj [("sequence", arr [ofTagged a, ofTagged b])]
    | .star q => obj [("repetition", ofTagged q)]

def ofAnchor : Anchor → Json
  | .matchStart => str "start"
  | .matchEnd => str "end"
  | .cell c => obj [("cell", nat c)]

def ofAddress (a : Address) : Json :=
  obj [("base", ofAnchor a.anchor), ("offset", nat a.offset)]

def ofCapture (c : Capture) : Json :=
  obj [("optional", bool c.optional), ("start", ofAddress c.start),
    ("end", ofOption ofAddress c.stop?)]

def ofCaptures (captures : OrderedMap String Capture) : Json :=
  ofEntries ofCapture captures.entries

/-- The written form of a layout without addresses. -/
def ofLayout (l : Layout) : Except EncodeError Json :=
  if l.addresses.entries.isEmpty then
    .ok (obj [("regular", ofTagged l.regular), ("ident_infos", ofCaptures l.captures),
      ("num_cells", nat l.cells), ("env", obj [])])
  else .error .compositeKey

def ofCompletion (c : Completion) : Json :=
  obj [("action", nat c.action), ("ident_infos", ofCaptures c.captures),
    ("location", ofLocation c.location)]

def ofCompiledEntry (e : CompiledEntry) : Json :=
  obj [("visibility", ofVisibility e.visibility), ("name", str e.name),
    ("shortest", bool e.shortest), ("return_type", ofLocation e.returnType),
    ("args", ofOption ofLocation e.args?), ("regular", ofTagged e.regular),
    ("mem_cells", nat e.cells), ("finishers", arr (e.completions.map ofCompletion))]

def ofCompiledLexer (l : CompiledLexer) : Json :=
  obj [("imports", arr (l.imports.map ofLocation)), ("header", ofOption ofLocation l.header?),
    ("entries", arr (l.entries.map ofCompiledEntry)),
    ("charsets", arr (l.pool.toList.map ofCharSet)), ("footer", ofOption ofLocation l.footer?)]

end LexTags.Json
