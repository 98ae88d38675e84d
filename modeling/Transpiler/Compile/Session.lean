import Transpiler.Compile.Context
import Transpiler.Script.Tree

/-!
# Compiling sessions

What a compilation is told (`Config`), what it remembers (`Session`), and where in the source tree
it is (`Place`). A rule is a `Run`: it may change the session and may fail; the changes made before a
failure stay.
-/

namespace Transpiler.Compile

open Script (Js Origin)
open Source (Ref)

/-- The run-time functions that compiled code may call. -/
inductive Snippet where
  | contains | containsEs6 | setDecorators | setClassDecorators | setProperties | assertion
  deriving Inhabited, Repr, DecidableEq

def Snippet.name : Snippet → String
  | .contains => "_in"
  | .containsEs6 => "in_es6"
  | .setDecorators => "set_decorators"
  | .setClassDecorators => "set_class_decorators"
  | .setProperties => "set_properties"
  | .assertion => "_assert"

def Snippet.all : List Snippet :=
  [.assertion, .contains, .containsEs6, .setClassDecorators, .setDecorators, .setProperties]

structure Config where
  es6 : Bool
  stage3 : Bool
  /-- Whether compiled code may call run-time functions. -/
  snippets : Bool
  /-- Whether the output takes part in the source map. -/
  mapped : Bool
  /-- The source node that all output is mapped to, if it is one. -/
  remap : Option Ref
  deriving Inhabited, Repr, DecidableEq

def Config.standard (es6 stage3 : Bool) : Config :=
  ⟨es6, stage3, true, true, none⟩

def Config.origin (cfg : Config) (source : Option Ref) : Origin :=
  ⟨cfg.remap.or source, some ⟨cfg.es6, cfg.mapped⟩⟩

structure Warning where
  node : Ref
  text : String
  deriving Inhabited, Repr, DecidableEq

structure Session where
  context : Context
  /-- The run-time functions that are called so far; none if there is no list of them. -/
  snippets : Option (List Snippet)
  globals : List String
  warnings : List Warning
  deriving Inhabited, Repr, DecidableEq

def Session.start : Session := ⟨.empty, some [], [], []⟩

def Session.isolated : Session := ⟨.empty, none, [], []⟩

abbrev Run (α : Type) := EStateM Fault Session α

def Run.result (step : Run α) (s : Session) : Except Fault α :=
  match step s with
  | .ok a _ => .ok a
  | .error fault _ => .error fault

structure Method where
  isInit : Bool
  isAsync : Bool
  superclass : Option (Run Js)

structure Owner where
  superclass : Option (Run Js)

structure Place where
  /-- The nearest function around, if it is a method. -/
  method : Option Method
  /-- The class that the node is a member of, if it is one. -/
  owner : Option Owner
  underClass : Bool

def Place.top : Place := ⟨none, none, false⟩

def Place.member (superclass : Option (Run Js)) (here : Place) : Place :=
  ⟨here.method, some ⟨superclass⟩, true⟩

def Place.inner (here : Place) : Place := { here with owner := none }

def Place.inside (name : String) (isAsync : Bool) (here : Place) : Place :=
  ⟨here.owner.map fun c => ⟨name == "__init__", isAsync, c.superclass⟩, none, here.underClass⟩

/-! ### Steps -/

def demand (cond : Bool) : Run Unit :=
  if cond then pure () else throw (.unmet "")

def refuseIf (cond : Bool) (node : Ref) (why : Refusal) : Run Unit :=
  if cond then throw (.unsupported (some node) why) else pure ()

def guardFeature (on : Bool) (node : Ref) (what : Requirement) : Run Unit :=
  if on then pure () else throw (.requires node what)

def newName : Run String := fun s =>
  match s.context.newName with
  | (.ok name, c) => .ok name { s with context := c }
  | (.error e, c) => .error e { s with context := c }

/-- Runs a step with a frame of its own. A step that fails leaves its frame. -/
def inFrame (step : Run α) : Run α := do
  modify fun s => { s with context := s.context.push [] }
  let a ← step
  modify fun s => { s with context := s.context.pop }
  return a

def setEntry (key : String) (v : Entry) : Run Unit :=
  modify fun s => { s with context := s.context.set key v }

def useSnippet (f : Snippet) : Run Unit := do
  match (← get).snippets with
  | none => throw (.noPart "'NoneType' object has no attribute 'add'")
  | some fs => modify fun s => { s with snippets := some (if fs.contains f then fs else fs ++ [f]) }

def addGlobals (names : List String) : Run Unit :=
  modify fun s => { s with globals := names.foldl (fun acc n => Source.insertName n acc) s.globals }

def warn (node : Ref) (text : String) : Run Unit :=
  modify fun s => { s with warnings := s.warnings ++ [⟨node, text⟩] }

end Transpiler.Compile
