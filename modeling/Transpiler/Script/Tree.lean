import Transpiler.Json.Basic
import Transpiler.Source.Ref

/-!
# JavaScript trees

The trees that a compilation builds and that are then laid out as text. A tree is either a leaf
(verbatim text, or a bare value) or a node with an `Origin`. The slots of a node are trees again:
the layout accepts any tree in any slot, so there is no separate type of statements. A slot that is
left empty holds `Script.absent`.

Nodes of one shape that differ by a word share a constructor and carry the word: operators, the
forms that put a keyword before a value, declarations, functions and class members.
-/

namespace Transpiler.Script

open Source (Ref)

/-- What the layout of a node depends on besides the node. -/
structure Settings where
  /-- Whether names are checked against the words of the ES6 dialect. -/
  es6 : Bool
  mapped : Bool
  deriving Inhabited, Repr, DecidableEq

/-- Where a node comes from: the source node, if there is one, and the settings of the compilation
that built it. A tree that no compilation built has no settings. -/
structure Origin where
  source : Option Ref
  settings : Option Settings
  deriving Inhabited, Repr, DecidableEq

inductive Scalar where
  | none
  | bool (b : Bool)
  | int (n : Int)
  deriving Inhabited, Repr, DecidableEq

def Scalar.text : Scalar → String
  | .none => "None"
  | .bool b => if b then "True" else "False"
  | .int n => toString n

def Scalar.isTruthy : Scalar → Bool
  | .none => false
  | .bool b => b
  | .int n => n != 0

inductive Operator where
  | isIn | and | or | not | instanceOf | typeOf | add | sub | mult | div | mod | rShift | lShift
  | bitXor | bitAnd | bitOr | invert | neg | strongEq | strongNotEq | lt | ltE | gt | gtE
  deriving Inhabited, Repr, DecidableEq

def Operator.symbol : Operator → String
  | .isIn => "in"
  | .and => "&&"
  | .or => "||"
  | .not => "!"
  | .instanceOf => "instanceof"
  | .typeOf => "typeof"
  | .add => "+"
  | .sub => "-"
  | .mult => "*"
  | .div => "/"
  | .mod => "%"
  | .rShift => ">>"
  | .lShift => "<<"
  | .bitXor => "^"
  | .bitAnd => "&"
  | .bitOr => "|"
  | .invert => "~"
  | .neg => "-"
  | .strongEq => "==="
  | .strongNotEq => "!=="
  | .lt => "<"
  | .ltE => "<="
  | .gt => ">"
  | .gtE => ">="

def Operator.isUnary : Operator → Bool
  | .not | .typeOf | .invert | .neg => true
  | _ => false

inductive Atom where
  | this | super | null | true | false
  deriving Inhabited, Repr, DecidableEq

def Atom.word : Atom → String
  | .this => "this"
  | .super => "super"
  | .null => "null"
  | .true => "true"
  | .false => "false"

/-- The statements that leave a loop or a turn of it. -/
inductive Jump where
  | leave | next
  deriving Inhabited, Repr, DecidableEq

def Jump.word : Jump → String
  | .leave => "break"
  | .next => "continue"

/-- The marks that stand before a value inside an expression. -/
inductive Mark where
  | yield | yieldAll | await | rest
  deriving Inhabited, Repr, DecidableEq

def Mark.word : Mark → String
  | .yield => "yield "
  | .yieldAll => "yield* "
  | .await => "await "
  | .rest => "..."

/-- The statements that are a keyword before a value. -/
inductive Command where
  | delete | throw
  deriving Inhabited, Repr, DecidableEq

def Command.word : Command → String
  | .delete => "delete "
  | .throw => "throw "

inductive Declarer where
  | var | letVar
  deriving Inhabited, Repr, DecidableEq

def Declarer.word : Declarer → String
  | .var => "var "
  | .letVar => "let "

/-- The loops over the keys or the elements of a value. -/
inductive Each where
  | keys | elements
  deriving Inhabited, Repr, DecidableEq

def Each.word : Each → String
  | .keys => " in "
  | .elements => " of "

inductive Func where
  | plain | async | generator | arrow
  deriving Inhabited, Repr, DecidableEq

def Func.word : Func → String
  | .plain => "function "
  | .async => "async function "
  | .generator => "function* "
  | .arrow => ""

inductive Member where
  | constructor | method | async | generator | getter | setter
  deriving Inhabited, Repr, DecidableEq

def Member.head (name : String) : Member → String
  | .constructor => "constructor"
  | .method => name
  | .async => "async " ++ name
  | .generator => "* " ++ name
  | .getter => "get " ++ name
  | .setter => "set " ++ name

inductive Import where
  | depend (module : String)
  /-- Binds some names of a module, each maybe under another name. -/
  | named (module : String) (names : List (String × Option String))
  | star (module name : String)
  | default (module name : String)
  deriving Inhabited, Repr, DecidableEq

inductive Js where
  | bare (v : Scalar)
  | text (s : String)
  | name (o : Origin) (id : Js)
  | num (o : Origin) (digits : String)
  | json (o : Origin) (value : Json)
  | atom (o : Origin) (a : Atom)
  | op (o : Origin) (s : Operator)
  | paren (o : Origin) (e : Js)
  | assign (o : Origin) (left right : Js)
  | ifExp (o : Origin) (test body orelse : Js)
  /-- A call; `operator` is the text before the function, and `kwargs` a last argument. -/
  | call (o : Origin) (operator : String) (func : Js) (args : List Js) (kwargs : Js)
  | dot (o : Origin) (obj : Js) (field : String)
  | subscript (o : Origin) (obj key : Js)
  | keySubscript (o : Origin) (key : Js)
  | binOp (o : Origin) (left op right : Js)
  /-- Several tests between pairs of operands, joined by one operator. -/
  | tests (o : Origin) (conj : Js) (ops lefts rights : List Js)
  | unaryOp (o : Origin) (op right : Js)
  | tagged (o : Origin) (value : String) (tag : Js)
  | template (o : Origin) (value : String)
  | literal (o : Origin) (value : String)
  | dict (o : Origin) (keys values : List Js)
  | list (o : Origin) (elts : List Js)
  | marked (o : Origin) (m : Mark) (value : Js)
  | statements (o : Origin) (items : List Js)
  | exprStmt (o : Origin) (value : Js)
  /-- A declaration; an absent value leaves a variable without an initialiser. A declaration with
  `var` may move to the start of its block if it is `movable`. -/
  | declare (o : Origin) (d : Declarer) (movable : Bool) (keys : List String) (values : List Js)
  | augAssign (o : Origin) (target op value : Js)
  | ret (o : Origin) (value : Js)
  | jump (o : Origin) (j : Jump)
  | command (o : Origin) (c : Command) (value : Js)
  | ifStmt (o : Origin) (test : Js) (body orelse : List Js)
  | whileStmt (o : Origin) (test : Js) (body : List Js)
  | forStmt (o : Origin) (left test right : Js) (body : List Js)
  | forEach (o : Origin) (each : Each) (target source : Js) (body : List Js)
  | tryStmt (o : Origin) (body : List Js) (target : Js) (catchBody finallyBody : List Js)
  /-- A function; `rest` collects further arguments and `kwargs` are named ones. -/
  | func (o : Origin) (f : Func) (name : Option String) (args body : List Js) (rest : Js)
      (kwargs : List Js)
  | classDef (o : Origin) (name superclass : Js) (members : List Js)
  | member (o : Origin) (m : Member) (static : Bool) (name : String) (args body : List Js)
      (rest : Js) (kwargs : List Js)
  | importOf (o : Origin) (i : Import)
  | exportNames (o : Origin) (names : List Js)
  | exportDefault (o : Origin) (value : Js)
  | pass (o : Origin)
  | comment (o : Origin) (value : String)
  deriving Inhabited

namespace Js

def absent : Js :=
  .bare .none

def isAbsent : Js → Bool
  | bare .none => true
  | _ => false

/-- Whether a tree counts as present: an empty text and the bare values for nothing do not. -/
def isTruthy : Js → Bool
  | bare v => v.isTruthy
  | text s => s != ""
  | _ => true

def isNode : Js → Bool
  | bare _ | text _ => false
  | _ => true

end Js

/-! ### The order of a block -/

inductive Slot where
  | comment | importing | variable | other
  deriving Inhabited, Repr, DecidableEq

/-- The slot of a statement: declarations that may move, imports and comments have their own. -/
def Js.slot : Js → Slot
  | .importOf _ _ => .importing
  | .declare _ .var true _ _ => .variable
  | .comment _ _ => .comment
  | _ => .other

/-- The order in which a block is written: first the comments at its start, then the imports, then
the movable declarations, then the rest. -/
def arrange (xs : List (Slot × α)) : List α :=
  let imports := xs.filter (·.1 == .importing)
  let vars := xs.filter (·.1 == .variable)
  let others := xs.filter fun x => x.1 != .importing && x.1 != .variable
  (others.takeWhile (·.1 == .comment) ++ imports ++ vars ++ others.dropWhile (·.1 == .comment)).map (·.2)

/-- The statements of a block, those of a block directly inside it included. -/
def flattenOnce (items : List Js) : List Js :=
  items.flatMap fun
    | .statements _ inner => inner
    | s => [s]

def hoisted (items : List Js) : List Js :=
  arrange ((flattenOnce items).map fun s => (s.slot, s))

end Transpiler.Script
