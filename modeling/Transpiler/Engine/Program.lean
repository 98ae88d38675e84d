import Transpiler.Compile.Text
import Transpiler.Engine.Basic

/-!
# Compiling and running

Texts and definitions that are compiled and then handed to the engine, to be converted to ES5 or to
be run.
-/

namespace Transpiler.Engine

open Compile (Definition Output Request SourceText compileDefinition compileText)

def typeOf : Json → String
  | .null => "NoneType"
  | .bool _ => "bool"
  | .int _ => "int"
  | .decimal _ => "float"
  | .str _ => "str"
  | .arr _ => "list"
  | .obj _ => "dict"

/-- A script from the transpiler with a text added to its end. A list takes the characters of the
text as pieces. -/
def extend (code : Json) (more : String) : Except Fault Json :=
  match code with
  | .str s => .ok (.str (s ++ more))
  | .arr items => .ok (.arr (items ++ more.toList.map fun c => .str c.toString))
  | v => .error (.wrongType
      ("unsupported operand type(s) for +=: '" ++ typeOf v ++ "' and 'str'"))

/-- Converts a compiled text to ES5. The map is handed over as it is, and the engine has no form for
it. -/
def transpileText (r : Request) (filename : Option String) (runtime : Bool) (s : SourceText) : Step (Json × Json) := do
  let out ← ofExcept (compileText { r with es6 := true } s)
  toEs5 ⟨filename, some (.foreign "SourceMap"), r.stage3, runtime⟩ (.json (.str out.text))

def transpileDefinition (stage3 bodyOnly : Bool) (filename : Option String) (runtime : Bool)
    (d : Definition) : Step (Json × Json) := do
  let out ← ofExcept (compileDefinition true stage3 bodyOnly d)
  let map ← ofExcept out.map.encode
  toEs5 ⟨filename, some (.json map.toJson), stage3, runtime⟩ (.json (.str out.text))

def evalText (bodyOnly : Bool) (s : SourceText) (vars : List (String × Json)) : Step (Json × Json) := do
  let out ← ofExcept (compileText { Request.standard false false with bodyOnly := bodyOnly } s)
  return (← evaluateAlone out.text vars, .str out.text)

/-- Compiles and runs a definition with a text after it: the answer and the script. -/
def evalDefinition (bodyOnly : Bool) (append : String) (d : Definition)
    (vars : List (String × Json)) : Step (Json × Json) := do
  let out ← ofExcept (compileDefinition false false bodyOnly d)
  let code := out.text ++ append
  return (← evaluateAlone code vars, .str code)

/-- Compiles a text, converts it to ES5 and runs it: the answer and the script. -/
def evalTextEs6 (stage3 bodyOnly : Bool) (s : SourceText) (vars : List (String × Json)) : Step (Json × Json) := do
  let r := { Request.standard true stage3 with bodyOnly := bodyOnly }
  let (code, _) ← transpileText r none false s
  return (← runScript (.ofJson code) true vars, code)

/-- Compiles a definition, converts it to ES5 and runs it with a text after it: the answer and the
script. -/
def evalDefinitionEs6 (stage3 bodyOnly : Bool) (append : String) (d : Definition)
    (vars : List (String × Json)) : Step (Json × Json) := do
  let (code, _) ← transpileDefinition stage3 bodyOnly none false d
  let code ← if append == "" then pure code else ofExcept (extend code ("\n" ++ append))
  return (← runScript (.ofJson code) true vars, code)

end Transpiler.Engine
