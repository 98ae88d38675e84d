import Transpiler.Text.Quoted

/-!
# JSON values

The value type of the JSON format and its one-line text form. The fields of an object keep the
order in which they were put; a number with a fraction or an exponent keeps its digits as text,
because nothing here computes with it.
-/

namespace Transpiler

inductive Json where
  | null
  | bool (b : Bool)
  | int (n : Int)
  | decimal (digits : String)
  | str (s : String)
  | arr (items : List Json)
  | obj (fields : List (String × Json))
  deriving Inhabited, Repr

namespace Json

mutual
/-- The text of a value on one line: `, ` between items and `: ` after a key. -/
def render : Json → String
  | .null => "null"
  | .bool b => if b then "true" else "false"
  | .int n => toString n
  | .decimal digits => digits
  | .str s => Text.quote s
  | .arr items => "[" ++ renderItems items ++ "]"
  | .obj fields => "\x7b" ++ renderFields fields ++ "\x7d"

def renderItems : List Json → String
  | [] => ""
  | [v] => render v
  | v :: rest => render v ++ ", " ++ renderItems rest

def renderFields : List (String × Json) → String
  | [] => ""
  | [(k, v)] => Text.quote k ++ ": " ++ render v
  | (k, v) :: rest => Text.quote k ++ ": " ++ render v ++ ", " ++ renderFields rest
end

mutual
def depth : Json → Nat
  | .arr items => depthItems items + 1
  | .obj fields => depthFields fields + 1
  | _ => 1

def depthItems : List Json → Nat
  | [] => 0
  | v :: rest => max (depth v) (depthItems rest)

def depthFields : List (String × Json) → Nat
  | [] => 0
  | (_, v) :: rest => max (depth v) (depthFields rest)
end

def setField (key : String) (value : Json) : List (String × Json) → List (String × Json)
  | [] => [(key, value)]
  | (k, v) :: rest => if k = key then (k, value) :: rest else (k, v) :: setField key value rest

def get? (key : String) : Json → Option Json
  | .obj fields => (fields.find? (·.1 == key)).map (·.2)
  | _ => none

def getD (key : String) (v : Json) : Json :=
  (v.get? key).getD .null

def items : Json → List Json
  | .arr vs => vs
  | _ => []

def str? : Json → Option String
  | .str s => some s
  | _ => none

def int? : Json → Option Int
  | .int n => some n
  | _ => none

def bool? : Json → Option Bool
  | .bool b => some b
  | _ => none

def isNull : Json → Bool
  | .null => true
  | _ => false

/-- Whether a value counts as present: `null`, `false`, zero and all that is empty do not. -/
def isTruthy : Json → Bool
  | .null => false
  | .bool b => b
  | .int n => n != 0
  | .decimal _ => true
  | .str s => s != ""
  | .arr vs => !vs.isEmpty
  | .obj fields => !fields.isEmpty

end Json

end Transpiler
