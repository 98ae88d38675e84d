import Transpiler.Compile.Module
import Transpiler.SourceMap.Basic

/-!
# Compiling a text

A text comes with its tree. It is compiled to a script and a source map. A text that is part of a
longer one may be indented and start anywhere in it; the map then refers to the longer one.
-/

namespace Transpiler.Compile

open Script (Js Offset)
open Source (Stmt)

structure SourceText where
  text : String
  lines : List String
  /-- The statements of the text without its margin; none if it has a mistake. -/
  tree : Option (List Stmt)

def SourceText.ofText (text : String) (tree : Option (List Stmt)) : SourceText :=
  ⟨text, Text.splitLines text, tree⟩

def SourceText.ofLines (lines : List String) (tree : Option (List Stmt)) : SourceText :=
  ⟨String.join lines, lines, tree⟩

structure Request where
  es6 : Bool
  stage3 : Bool
  dedent : Bool
  filename : Option String
  offset : Offset
  /-- Whether only the body of the single statement is compiled. -/
  bodyOnly : Bool
  whole : Option String

def Request.standard (es6 stage3 : Bool) : Request :=
  ⟨es6, stage3, true, none, .zero, false, none⟩

structure Output where
  text : String
  map : SourceMap

/-- The width of the margin of a text: what is lost by removing it, shared by the lines that are
not blank. -/
def marginWidth (s : SourceText) : Except Fault Int :=
  let lost := s.text.length - (Text.dedent s.text).length
  let count := (s.lines.filter (!Text.allBlank ·)).length
  if lost == 0 then .ok 0
  else if count == 0 then .error .divisionByZero
  else .ok (lost / count : Nat)

/-- The place of the statements inside a statement of which only they are compiled. -/
def bodyPlace (cfg : Config) : Stmt → Place
  | .classDef _ _ bases .. => Place.member (bases.head?.map (compileExpr cfg .top)) .top
  | _ => .top

/-- The statements to compile and the place where they stand. The body of a single statement leaves
out a final `return`. -/
def selectBody (cfg : Config) (bodyOnly : Bool) (body : List Stmt) : Except Fault (Place × List Stmt) :=
  match bodyOnly, body with
  | true, [s] =>
    match s.body? with
    | none => .ok (.top, body)
    | some inner =>
      match inner.getLast? with
      | none => .error .outOfRange
      | some (.ret ..) => .ok (bodyPlace cfg s, inner.dropLast)
      | some _ => .ok (bodyPlace cfg s, inner)
  | _, _ => .ok (.top, body)

def given (s : Option String) (other : String) : String :=
  match s with
  | some "" | none => other
  | some s => s

def compileScript (r : Request) (body : List Stmt) : Except Fault Js := do
  let cfg := Config.standard r.es6 r.stage3
  let (place, body) ← selectBody cfg r.bodyOnly body
  let compiled ← compileModule cfg place body
  compiled.withLibrary cfg

/-- Where the places of a text are counted from: its start in the longer text, and its margin. -/
def sourceOffset (r : Request) (s : SourceText) : Except Fault Offset := do
  let margin ← if r.dedent then marginWidth s else pure 0
  return ⟨r.offset.line, r.offset.col + margin⟩

def compileText (r : Request) (s : SourceText) : Except Fault Output := do
  let offset ← sourceOffset r s
  match s.tree with
  | none => throw .notSource
  | some body =>
    let script ← compileScript r body
    let items ← script.items?
    let map ← SourceMap.ofItems (.str (given r.whole s.text)) (given r.filename "<source>") offset
      .zero items
    return ⟨Script.Item.joinAll items, map⟩

structure Definition where
  filename : String
  whole : String
  /-- The line of the file that the definition starts on, counted from one. -/
  firstLine : Int
  source : SourceText

def compileDefinition (es6 stage3 bodyOnly : Bool) (d : Definition) : Except Fault Output :=
  compileText {
    es6 := es6
    stage3 := stage3
    dedent := true
    filename := some d.filename
    offset := ⟨d.firstLine - 1, 0⟩
    bodyOnly := bodyOnly
    whole := some (String.ofList (Text.unifyEnds d.whole.toList)) } d.source

end Transpiler.Compile
