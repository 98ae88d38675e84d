import Transpiler.Json.Reader
import Transpiler.SourceMap.Token
import Transpiler.SourceMap.Vlq

/-!
# Source maps

A source map holds tokens in the order of the output. It is written as JSON (`SourceMap.encode`): the
tokens become segments, grouped by output line, of variable-length quantities that count from the
token before, and refer to tables of sources and names in the order of first use. Reading such a
text back (`SourceMap.decode`) checks every segment.
-/

namespace Transpiler

open SourceMap (Token)

structure SourceMap where
  tokens : List Token
  contents : List (String × Json)
  raw : List (String × Json)
  lenient : Bool
  deriving Inhabited

namespace SourceMap

/-- Makes a map. Tokens given here are set aside: a map holds the tokens that are added to it. -/
def make (_tokens : List Token) (contents raw : List (String × Json)) (lenient : Bool) :
    SourceMap :=
  ⟨[], contents, raw, lenient⟩

/-! ### Adding tokens -/

/-- The position after all tokens that are not greater than `t`, found by halving; it lies between
`lo` and `hi`, and `fuel` is at least their distance. -/
def bisect (t : Token) (ts : List Token) : Nat → Nat → Nat → Except Fault Nat
  | 0, lo, _ => .ok lo
  | fuel + 1, lo, hi =>
    if lo < hi then do
      let mid := (lo + hi) / 2
      match ts[mid]? with
      | some u =>
        if (← t.compareFields u) == .lt then bisect t ts fuel lo mid
        else bisect t ts fuel (mid + 1) hi
      | none => return lo
    else .ok lo

/-- Adds a token: at the end if it stands after all others, else where it belongs. A map that is not
lenient refuses a token whose predecessor stands at the same place. -/
def add (m : SourceMap) (t : Token) : Except Fault SourceMap := do
  if m.tokens.getLast?.all t.isAfter then return { m with tokens := m.tokens ++ [t] }
  let n := m.tokens.length
  let index ← bisect t m.tokens n 0 n
  let before := if index = 0 then none else m.tokens[index - 1]?
  if !m.lenient && (before.map t.samePlace).getD false then throw .tokenExists
  return { m with tokens := m.tokens.take index ++ t :: m.tokens.drop index }

def addAll (m : SourceMap) (ts : List Token) : Except Fault SourceMap :=
  ts.foldlM add m

/-! ### Writing -/

structure Cursor where
  dstCol : Int
  srcId : Int
  srcLine : Int
  srcCol : Int
  nameId : Int
  deriving Inhabited, Repr, DecidableEq

def Cursor.start : Cursor := ⟨0, 0, 0, 0, 0⟩

structure Tables where
  sources : List String
  names : List String
  deriving Inhabited, Repr, DecidableEq

/-- The number of a text in a table, which is extended if the text is new. -/
def intern (s : String) (table : List String) : Int × List String :=
  match table.findIdx? (· == s) with
  | some i => (i, table)
  | none => (table.length, table ++ [s])

def present (s : Option String) : Option String :=
  if s == some "" then none else s

/-- The fields of the segment of a token, and what the next one counts from. -/
def fieldsOf (c : Cursor) (tables : Tables) (t : Token) : List Int × Cursor × Tables :=
  let col := t.dstCol - c.dstCol
  let c := { c with dstCol := t.dstCol }
  match present t.src with
  | none => ([col], c, tables)
  | some src =>
    let (srcId, sources) := intern src tables.sources
    let place := [col, srcId - c.srcId, t.srcLine - c.srcLine, t.srcCol - c.srcCol]
    let c := { c with srcId := srcId, srcLine := t.srcLine, srcCol := t.srcCol }
    match present t.name with
    | none => (place, c, { tables with sources := sources })
    | some name =>
      let (nameId, names) := intern name tables.names
      (place ++ [nameId - c.nameId], { c with nameId := nameId }, ⟨sources, names⟩)

/-- The state of writing: the output line of the last token, the lines of segments (the last line
first, and in it the last segment first), what the next segment counts from, and the tables. -/
structure Encoder where
  line : Int
  lines : List (List (List Int))
  cursor : Cursor
  tables : Tables
  deriving Inhabited

def Encoder.start : Encoder := ⟨-1, [], .start, ⟨[], []⟩⟩

def Encoder.add (e : Encoder) (t : Token) : Except Fault Encoder :=
  let gap := (t.dstLine - e.line).toNat
  let cursor := if gap = 0 then e.cursor else { e.cursor with dstCol := 0 }
  match List.replicate gap [] ++ e.lines with
  | [] => .error (.unassigned "prev_dst_col")
  | current :: earlier =>
    let (fields, cursor, tables) := fieldsOf cursor e.tables t
    .ok ⟨max e.line t.dstLine, (fields :: current) :: earlier, cursor, tables⟩

def segmentText (fields : List Int) : String :=
  String.join (fields.map Vlq.encode)

def mappingsText (lines : List (List (List Int))) : String :=
  ";".intercalate (lines.map fun segments => ",".intercalate (segments.map segmentText))

structure Encoded where
  mappings : String
  sources : List String
  names : List String
  contents : List Json
  deriving Inhabited

def contentOf (m : SourceMap) (src : String) : Json :=
  ((m.contents.find? (·.1 == src)).map (·.2)).getD .null

def encode (m : SourceMap) : Except Fault Encoded := do
  let e ← m.tokens.foldlM Encoder.add .start
  return {
    mappings := mappingsText (e.lines.reverse.map List.reverse)
    sources := e.tables.sources
    names := e.tables.names
    contents := e.tables.sources.map m.contentOf }

def Encoded.fields (e : Encoded) : List (String × Json) :=
  [("version", .int 3), ("mappings", .str e.mappings), ("sources", .arr (e.sources.map .str)),
    ("names", .arr (e.names.map .str)), ("sourcesContent", .arr e.contents)]

def Encoded.toJson (e : Encoded) : Json :=
  .obj e.fields

def stringify (m : SourceMap) : Except Fault String := do
  return (← m.encode).toJson.render

def inlineComment (text : String) : String :=
  "\n//# sourceMappingURL=data:text/json;base64," ++ Text.Base64.ofText text ++ "\n"

def stringifyInline (m : SourceMap) : Except Fault String := do
  return inlineComment (← m.stringify)

/-! ### Reading -/

def lookup (table : List String) (id : Int) : Option String :=
  if id < 0 then none else table[id.toNat]?

def fieldAt (fields : List Int) (i : Nat) : Except Fault Int :=
  match fields[i]? with
  | some n => .ok n
  | none => .error .outOfRange

/-- The token of a segment on an output line, and what the next one counts from. -/
def tokenOf (sources names : List String) (dstLine : Int) (c : Cursor) (segment : String) :
    Except Fault (Token × Cursor) := do
  let refuse (d : MapDefect) : Except Fault Unit := .error (.badMap d)
  let fields ← Vlq.decode segment
  let dstCol := c.dstCol + (← fieldAt fields 0)
  if dstCol < 0 then refuse (.negativeColumn segment)
  let n := fields.length
  if n != 1 && n != 4 && n != 5 then refuse (.fieldCount segment fields)
  if n == 1 then
    return (.plain dstLine dstCol none c.srcLine c.srcCol none, { c with dstCol := dstCol })
  let srcId := c.srcId + (← fieldAt fields 1)
  let src := lookup sources srcId
  if src.isNone then refuse (.unknownSource segment srcId)
  let srcLine := c.srcLine + (← fieldAt fields 2)
  if srcLine < 0 then refuse (.negativeSourceLine segment)
  let srcCol := c.srcCol + (← fieldAt fields 3)
  if srcCol < 0 then refuse (.negativeSourceColumn segment)
  if n == 4 then
    return (.plain dstLine dstCol src srcLine srcCol none, ⟨dstCol, srcId, srcLine, srcCol, c.nameId⟩)
  let nameId := c.nameId + (← fieldAt fields 4)
  let name := lookup names nameId
  if name.isNone then refuse (.unknownName segment nameId)
  return (.plain dstLine dstCol src srcLine srcCol name, ⟨dstCol, srcId, srcLine, srcCol, nameId⟩)

/-- The tokens of the segments of one output line; empty segments are skipped. -/
def tokensOfLine (sources names : List String) (dstLine : Int) (c : Cursor) :
    List String → Except Fault (List Token × Cursor)
  | [] => .ok ([], c)
  | segment :: rest =>
    if segment == "" then tokensOfLine sources names dstLine c rest
    else do
      let (t, c) ← tokenOf sources names dstLine c segment
      let (ts, c) ← tokensOfLine sources names dstLine c rest
      return (t :: ts, c)

/-- The tokens of lines of segments, the first of which is output line `dstLine`. -/
def tokensOfLines (sources names : List String) (dstLine : Int) (c : Cursor) : List String → Except Fault (List Token)
  | [] => .ok []
  | line :: rest => do
    let (ts, c) ← tokensOfLine sources names dstLine { c with dstCol := 0 } (Text.splitOn ',' line)
    return ts ++ (← tokensOfLines sources names (dstLine + 1) c rest)

def tokensOf (sources names : List String) (mappings : String) : Except Fault (List Token) :=
  tokensOfLines sources names 0 .start (Text.splitOn ';' mappings)

def nameText : Json → String
  | .str s => s
  | v => v.render

/-- The JSON value of a text, without a first line that keeps it from being run. -/
def parseGuarded (text : String) : Except Fault Json := do
  let cs := text.toList
  let body ← if ")]\x7d'".toList.isPrefixOf cs then
      match cs.dropWhile (· != '\n') with
      | [] => throw .outOfRange
      | _ :: rest => pure (String.ofList rest)
    else pure text
  match Json.parse? body with
  | some v => return v
  | none => throw .notJson

def requireField (key : String) (fields : List (String × Json)) : Except Fault Json :=
  match (Json.obj fields).get? key with
  | some v => .ok v
  | none => .error (.noKey ("'" ++ key ++ "'"))

def membersOf : Json → Except Fault (List Json)
  | .arr vs => .ok vs
  | .str s => .ok (s.toList.map fun c => .str c.toString)
  | .obj fields => .ok (fields.map fun (k, _) => .str k)
  | _ => .error (.wrongType "object is not iterable")

def underRoot : Json → Json → Except Fault Json
  | .str root, .str s => .ok (.str (root ++ "/" ++ s))
  | _, _ => .error (.wrongType "expected str instance")

def rooted (root : Json) (sources : List Json) : Except Fault (List Json) :=
  if root.isNull then .ok sources else sources.mapM (underRoot root)

/-- The fault of mappings whose sources cannot be looked at: `fault`, unless a segment before the
first that has a source is faulty itself. -/
def faultWithout (fault : Fault) (names : List String) (mappings : String) : Fault :=
  match tokensOf [] names mappings with
  | .ok _ | .error (.badMap (.unknownSource _ _)) => fault
  | .error earlier => earlier

def noteContent (acc : List (String × Json)) : Json × Json → Except Fault (List (String × Json))
  | (_, .null) => .ok acc
  | (.arr _, _) | (.obj _, _) => .error (.wrongType "unhashable type")
  | (src, content) => .ok (Json.setField (nameText src) content acc)

def ofFields (fields : List (String × Json)) (lenient : Bool) : Except Fault SourceMap := do
  let given ← requireField "sources" fields
  let names := (← membersOf (← requireField "names" fields)).map nameText
  let mappings ← match ← requireField "mappings" fields with
    | .str s => pure s
    | _ => throw (.noPart "'NoneType' object has no attribute 'split'")
  let root := (Json.obj fields).getD "source_root"
  let sources ← match membersOf given with
    | .ok sources => rooted root sources
    | .error fault => throw (if root.isNull then faultWithout fault names mappings else fault)
  let tokens ← tokensOf (sources.map nameText) names mappings
  let known ← (((Json.obj fields).get? "sourcesContent").map membersOf).getD (.ok [])
  let contents ← (sources.zip known).foldlM noteContent []
  return .make tokens contents fields lenient

def ofJson (v : Json) (lenient : Bool) : Except Fault SourceMap :=
  match v with
  | .obj fields => ofFields fields lenient
  | _ => .error (.wrongType "list indices must be integers or slices, not str")

def decode (text : String) (lenient : Bool) : Except Fault SourceMap := do
  ofJson (← parseGuarded text) lenient

/-! ### Maps of laid-out text -/

/-- The map of items that are written one after the other, made from the source `src` with the
content `content`. -/
def ofItems (content : Json) (src : String) (srcOffset dstOffset : Script.Offset)
    (items : List Script.Item) : Except Fault SourceMap := do
  let ms ← Script.mappings? srcOffset dstOffset items
  (make [] [(src, content)] [] false).addAll (ms.map (Token.ofMapping src))

end SourceMap

end Transpiler
