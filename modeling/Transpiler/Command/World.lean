import Transpiler.Command.Arguments
import Transpiler.Command.Disk
import Transpiler.Engine.Program

/-!
# Compiling files

What the command acts on (`World`), and how it compiles one file: the script and its map are written
beside each other, and the script ends with a comment that names its map or holds it.
-/

namespace Transpiler.Command

open Compile (Output Request SourceText compileText)

structure World where
  disk : Disk
  engine : Engine
  out : String
  err : String
  deriving Inhabited

def World.complain (line : String) (w : World) : World :=
  { w with err := w.err ++ line ++ "\n" }

abbrev Act (α : Type) := EStateM Fault World α

namespace Act

def ofEngine (step : Engine.Step α) : Act α := fun w =>
  match step w.engine with
  | .ok a e => .ok a { w with engine := e }
  | .error fault e => .error fault { w with engine := e }

def onDisk (change : Disk → Except Fault Disk) : Act Unit := do
  let disk ← ofExcept (change (← get).disk)
  modify fun w => { w with disk := disk }

def printLine (s : String) : Act Unit :=
  modify fun w => { w with out := w.out ++ s ++ "\n" }

def printError (s : String) : Act Unit := modify (World.complain s)

end Act

open Act

def readSource (path : String) : Act SourceText := do
  match (← get).disk.document? path with
  | some doc =>
    let lines := Text.keepLines (Text.unifyEnds doc.text.toList)
    return .ofLines (lines.map String.ofList) doc.tree
  | none => throw (.missingFile path)

def mapComment (map : String) : String :=
  "\n//# sourceMappingURL=" ++ map ++ "\n"

def targetsOf (src : String) (dst : Option String) : Act Path.Targets := do
  let disk := (← get).disk
  return Path.targets disk.cwd disk.isDir src dst none

def compileFile (o : Options) (src : String) (dst : Option String) : Act Unit := do
  let t ← targetsOf src dst
  let source ← readSource src
  let out ← ofExcept (compileText { Request.standard o.es6 o.stage3 with
    filename := some t.source } source)
  let ending ← if o.inlineMap then ofExcept out.map.stringifyInline
    else pure (mapComment t.mapFromScript)
  onDisk (·.write t.script (out.text ++ ending))
  if !o.inlineMap then
    let map ← ofExcept out.map.stringify
    onDisk (·.write t.map map)

def scriptText : Json → Act String
  | .str s => pure s
  | v => throw (.wrongType ("write() argument must be str, not " ++ Engine.typeOf v))

/-- Compiles a file to a script and a map, and converts the script to ES5; both are written. -/
def compileFileToEs5 (o : Options) (src : String) (dst : Option String) : Act Unit := do
  let t ← targetsOf src dst
  let dir := Path.dirname t.script
  let besides (name : String) : String :=
    let (stem, extension) := Path.splitExtension name
    stem ++ ".es6" ++ extension
  let es6Script := besides t.script
  let es6Map := besides t.map
  let source ← readSource src
  let out ← ofExcept (compileText { Request.standard true o.stage3 with
    filename := some t.source } source)
  let map ← ofExcept out.map.encode
  let (code, es5Map) ← ofEngine (Engine.toEs5
    ⟨some (Path.relative es6Script dir), some (.json map.toJson), o.stage3, o.runtime⟩
    (.json (.str out.text)))
  let code ← ofExcept (Engine.extend code (mapComment t.mapFromScript))
  onDisk (·.write es6Script (out.text ++ mapComment (Path.relative es6Map dir)))
  onDisk (·.write es6Map map.toJson.render)
  onDisk (·.write t.script (← scriptText code))
  onDisk (·.write t.map es5Map.render)

def compileAs (o : Options) (src : String) (dst : Option String) : Act Unit :=
  if o.es5 then compileFileToEs5 o src dst else compileFile o src dst

/-- Compiles a text as the options say: the script, with its map if that is asked for. -/
def compileString (o : Options) (s : SourceText) : Act Json := do
  if o.inlineMap && o.sourceName.isNone then throw .sourceNameNeeded
  let everything := o.eval
  let r := { Request.standard (o.es6 || everything) (o.stage3 || everything) with
    filename := o.sourceName }
  if o.es5 || everything then
    let (code, _) ← ofEngine (Engine.transpileText r none false s)
    return code
  let out ← ofExcept (compileText r s)
  if o.inlineMap then
    let comment ← ofExcept out.map.stringifyInline
    return .str (out.text ++ comment)
  return .str out.text

end Transpiler.Command
