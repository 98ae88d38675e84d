import Transpiler.Fault
import Transpiler.Json.Basic

/-!
# The JavaScript engine

What is handed to a JavaScript engine: code, and variables as JSON. The engine itself is outside:
an `Engine` knows what it will answer and remembers what it was asked. Scripts are turned into ES5 by
a transpiler that is itself a script; the interpreter that has loaded it is kept for the next time.
-/

namespace Transpiler

inductive Value where
  | json (v : Json)
  | foreign (type : String)
  deriving Inhabited

def Value.isTruthy : Value → Bool
  | .json v => v.isTruthy
  | .foreign _ => true

def Value.toJson? : Value → Except Fault Json
  | .json v => .ok v
  | .foreign type => .error (.wrongType ("Object of type " ++ type ++ " is not JSON serializable"))

structure Evaluation where
  /-- The number of the interpreter, counted from one. -/
  interpreter : Nat
  code : String
  vars : List (String × Json)
  deriving Inhabited

structure Engine where
  transpiler : String
  /-- The script that older interpreters need for newer code. -/
  polyfill : String
  made : Nat
  /-- The interpreter that is kept for the transpiler. -/
  kept : Option Nat
  /-- What the engine will answer; nothing after these. -/
  answers : List Json
  evaluations : List Evaluation
  deriving Inhabited

namespace Engine

def start (transpiler polyfill : String) (answers : List Json) : Engine :=
  ⟨transpiler, polyfill, 0, none, answers, []⟩

abbrev Step (α : Type) := EStateM Fault Engine α

def make : Step Nat := do
  let e ← get
  set { e with made := e.made + 1 }
  return e.made + 1

def evaluate (interpreter : Nat) (code : String) (vars : List (String × Json)) : Step Json := do
  let e ← get
  set { e with
    answers := e.answers.drop 1
    evaluations := ⟨interpreter, code, vars⟩ :: e.evaluations }
  return e.answers.headD .null

def joinCode (pieces : List String) : String :=
  ";\n".intercalate pieces

/-! ### The transpiler -/

def transpilerCall : List String :=
  ["var bres, res;bres = Babel.transform(dukpy.es6code, dukpy.babel_options);",
    "res = \x7bmap: bres.map, code: bres.code\x7d;"]

def setOption (key : String) (v : Value) : List (String × Value) → List (String × Value)
  | [] => [(key, v)]
  | (k, w) :: rest => if k = key then (k, v) :: rest else (k, w) :: setOption key v rest

/-- Runs the transpiler on a script. Without a list of presets the usual one is taken. With `reuse`
the interpreter that has loaded the transpiler is kept; it is kept even if this run fails. -/
def transpile (source : Value) (reuse : Bool) (options : List (String × Value)) : Step Json := do
  let presets := (options.find? (·.1 == "presets")).map (·.2)
  let options := if (presets.map Value.isTruthy).getD false then options
    else setOption "presets" (.json (.arr [.str "es2015"])) options
  let vars : Except Fault (List (String × Json)) := do
    let source ← source.toJson?
    let fields ← options.mapM fun (k, v) => do return (k, ← v.toJson?)
    return [("es6code", source), ("babel_options", .obj fields)]
  let e ← get
  let (interpreter, code) ← match reuse, e.kept with
    | true, some n => pure (n, transpilerCall)
    | _, _ => do
      let n ← make
      if reuse then modify fun e => { e with kept := some n }
      pure (n, e.transpiler :: transpilerCall)
  let vars ← ofExcept vars
  evaluate interpreter (joinCode code) vars

structure Es5Request where
  filename : Option String
  map : Option Value
  stage3 : Bool
  /-- Whether helpers come from a module instead of the script. -/
  runtime : Bool

def Es5Request.options (r : Es5Request) : List (String × Value) :=
  let presets := "es2015" :: if r.stage3 then ["stage-3"] else []
  [("sourceMaps", .json (.bool true))] ++
    (match r.filename with
      | some "" | none => []
      | some f => [("filename", .json (.str f))]) ++
    (match r.map with
      | some m => if m.isTruthy then [("inputSourceMap", m)] else []
      | none => []) ++
    [("presets", .json (.arr (presets.map .str)))] ++
    (if r.runtime then [("plugins", .json (.arr [.str "transform-runtime"]))] else [])

def answerField (key : String) : Json → Except Fault Json
  | .obj fields => match (Json.obj fields).get? key with
    | some v => .ok v
    | none => .error (.noKey ("'" ++ key ++ "'"))
  | .null => .error (.wrongType "'NoneType' object is not subscriptable")
  | .str _ => .error (.wrongType "string indices must be integers, not 'str'")
  | .arr _ => .error (.wrongType "list indices must be integers or slices, not str")
  | .bool _ => .error (.wrongType "'bool' object is not subscriptable")
  | .int _ => .error (.wrongType "'int' object is not subscriptable")
  | .decimal _ => .error (.wrongType "'float' object is not subscriptable")

/-- Converts a script to ES5: the script and its map, as the transpiler gives them. -/
def toEs5 (r : Es5Request) (source : Value) : Step (Json × Json) := do
  let answer ← transpile source true r.options
  let code ← ofExcept (answerField "code" answer)
  let map ← ofExcept (answerField "map" answer)
  return (code, map)

/-! ### Running scripts -/

def evaluateAlone (code : String) (vars : List (String × Json)) : Step Json := do
  evaluate (← make) code vars

inductive Code where
  | text (s : String)
  | pieces (items : List String)
  /-- Pieces in a fixed row, to which none can be added. -/
  | fixed (items : List String)
  | other (type : String)

def Code.ofJson : Json → Code
  | .str s => .text s
  | .arr items => match items.mapM Json.str? with
    | some ss => .pieces ss
    | none => .other "list"
  | .null => .other "NoneType"
  | .bool _ => .other "bool"
  | .int _ => .other "int"
  | .decimal _ => .other "float"
  | .obj _ => .other "dict"

/-- Runs a script in an interpreter of its own, with or without the polyfill before it. -/
def runScript (code : Code) (withPolyfill : Bool) (vars : List (String × Json)) : Step Json := do
  let e ← get
  let start := if withPolyfill then
      ["global = this; this.console = \x7blog: print\x7d;\n", e.polyfill] else []
  match code with
  | .text s => evaluateAlone (joinCode (start ++ [s])) vars
  | .pieces items => evaluateAlone (joinCode (start ++ items)) vars
  | .fixed items =>
    if withPolyfill then
      throw (.wrongType "can only concatenate list (not \"tuple\") to list")
    evaluateAlone (joinCode items) vars
  | .other type => throw (.wrongType ("'" ++ type ++ "' object is not iterable"))

end Engine

end Transpiler
