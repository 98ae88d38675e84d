import Transpiler.Compile.Naming
import Transpiler.Compile.Session
import Transpiler.Script.Check

/-!
# Compiling expressions

One rule for each kind of expression. The parts of a node are compiled in the order in which they
stand in the output; a part that the output repeats is compiled again each time, because compiling
may use up generated names.

A call of a name with a meaning of its own (`Builtin`) has its own rule, and so have a few calls of
methods: `super().m(…)`, `dict(x).update(…)`, `dict(x).copy()` and `list(x).append`.
-/

namespace Transpiler.Compile

open Script (Js Origin Operator)
open Source (BinOp BoolOp CmpOp Constant Expr Keyword Generator Ref UnaryOp)

/-! ### Operators -/

def BinOp.operator? : BinOp → Option Operator
  | .add => some .add
  | .sub => some .sub
  | .mult => some .mult
  | .div => some .div
  | .mod => some .mod
  | .lShift => some .lShift
  | .rShift => some .rShift
  | .bitOr => some .bitOr
  | .bitXor => some .bitXor
  | .bitAnd => some .bitAnd
  | .pow | .matMult | .floorDiv => none

def UnaryOp.operator? : UnaryOp → Option Operator
  | .invert => some .invert
  | .not => some .not
  | .uSub => some .neg
  | .uAdd => none

def CmpOp.operator? : CmpOp → Option Operator
  | .eq | .is => some .strongEq
  | .notEq | .isNot => some .strongNotEq
  | .lt => some .lt
  | .ltE => some .ltE
  | .gt => some .gt
  | .gtE => some .gtE
  | .isIn => some .isIn
  | .notIn => none

def BoolOp.operator : BoolOp → Operator
  | .and => .and
  | .or => .or

/-- The node of an operator, or a failure that names the kind of the operator. -/
def operatorNode (cfg : Config) (kind : String) : Option Operator → Run Js
  | some s => pure (.op (cfg.origin none) s)
  | none => throw (.noRule (.uncited kind none))

/-! ### Names and constants -/

def nameNode (o : Origin) (id : String) : Js :=
  if id == "self" then .atom o .this
  else if id == "True" then .atom o .true
  else if id == "False" then .atom o .false
  else if id == "None" then .atom o .null
  else .name o (.text (normalizeName id))

def constantNode (o : Origin) : Constant → Run Js
  | .none => pure (.atom o .null)
  | .bool b => pure (.atom o (if b then .true else .false))
  | .number digits => pure (.num o digits)
  | .str s => pure (.json o (.str s))
  | .ellipsis | .bytes => throw .unknownConstant

def typeName (e : Expr) : String :=
  if e.isAbsent then "NoneType" else "ast." ++ e.kind

inductive Key where
  | text (s : String)
  /-- A key to compute: the source node to cite, if there is one, and the name of its type. -/
  | computed (node : Option Ref) (type : String)
  deriving Inhabited, Repr, DecidableEq

def Key.check (es6 : Bool) : Key → Except Fault Unit
  | .text _ => .ok ()
  | .computed node type =>
    if es6 then .ok ()
    else match node with
      | some node => .error (.unsupported (some node) (.keyType type))
      | none => .error (.unusableKey type)

def Key.ofExpr (e : Expr) : Key :=
  match e.str? with
  | some s => .text s
  | none => .computed (if e.isAbsent then none else some e.ref) (typeName e)

def demandKey (cfg : Config) (key : Expr) : Run Unit :=
  ofExcept ((Key.ofExpr key).check cfg.es6)

/-! ### Calls -/

/-- The functions whose calls have rules of their own. -/
inductive Builtin where
  | typeOf | callable | isInstance | print | len | js | new | dependImport | str | type | tagged
  | template | hasAttr | getAttr | setAttr | isSubclass | int | float
  deriving Inhabited, Repr, DecidableEq

def Builtin.names : List (String × Builtin) :=
  [("typeof", .typeOf), ("callable", .callable), ("isinstance", .isInstance), ("print", .print),
    ("len", .len), ("JS", .js), ("new", .new), ("__import__", .dependImport), ("str", .str),
    ("type", .type), ("__", .tagged), ("tmpl", .template), ("hasattr", .hasAttr),
    ("getattr", .getAttr), ("setattr", .setAttr), ("issubclass", .isSubclass), ("int", .int),
    ("float", .float)]

def Builtin.ofName? (id : String) : Option Builtin :=
  (Builtin.names.find? (·.1 == id)).map (·.2)

/-- Whether calling a name makes an object: its first letter is a capital. -/
def makesObject (name : String) : Bool :=
  (name.toList.head?.map Char.isUpper).getD false

def callOperator (name : String) : String :=
  if makesObject name then "new " else ""

def plainCall (o : Origin) (func : Js) (args : List Js) : Js :=
  .call o "" func args .absent

def fieldOf (o : Origin) (obj field : String) : Js :=
  .dot o (.name o (.text obj)) field

/-- A call with its keyword arguments, which are collected in an object. `node` is the call in the
source. -/
def callNode (cfg : Config) (o : Origin) (node : Ref) (operator : String) (func : Run Js)
    (args : Run (List Js)) (keywords : List Keyword) (values : Run (List Js)) : Run Js := do
  refuseIf (keywords.any (·.arg.isNone)) node .keywordSpread
  let func ← func
  let args ← args
  if keywords.isEmpty then return .call o operator func args .absent
  let n := cfg.origin none
  let values ← values
  return .call o operator func args (.dict n (keywords.map fun k => .json n (.str (k.arg.getD ""))) values)

def isSequence : Expr → Bool
  | .tuple .. | .list .. | .set .. => true
  | _ => false

/-- The test whether a value is an instance of a class, or of one of several. `target` compiles the
value, `whole` the class, and `pairs` the value and the class for each of several. -/
def instanceNode (cfg : Config) (o : Origin) (target : Run Js) (cls : Expr) (whole : Run Js)
    (pairs : Run (List (Js × Js))) : Run Js := do
  let n := cfg.origin none
  let byType (type object : String) : Run Js := do
    let a ← target
    let b ← target
    return .tests o (.op n .or) [.op n .strongEq, .op n .instanceOf]
      [.unaryOp n (.op n .typeOf) a, b] [.json n (.str type), .name n (.text object)]
  if isSequence cls then
    let pairs ← pairs
    return .tests o (.op n .or) (pairs.map fun _ => .op n .instanceOf) (pairs.map (·.1)) (pairs.map (·.2))
  match cls.name? with
  | some "str" => byType "string" "String"
  | some "int" | some "float" => byType "number" "Number"
  | _ => return .binOp o (← target) (.op n .instanceOf) (← whole)

def joinTests (o n : Origin) (op : Js) : List Js → Option Js
  | [] => none
  | [j] => some j
  | j :: rest =>
    let front := (rest.dropLast).foldl (fun acc r => Js.binOp n acc op r) j
    rest.getLast?.map fun last => .binOp o front op last

/-- The names that the rule for list comprehensions generates. -/
structure LoopNames where
  result : String
  source : String
  index : String
  bound : String

/-- The function that a list comprehension is compiled to, called at once. -/
def comprehensionNode (cfg : Config) (o : Origin) (names : LoopNames) (var : String)
    (source : Js) (cond : Option Js) (elt : Js) : Js :=
  let n := cfg.origin none
  let ref (s : String) : Js := .name n (.text s)
  let push : Js := .exprStmt n (plainCall n (.dot n (ref names.result) "push") [elt])
  let step : Js := match cond with
    | some test => .ifStmt n test [push] []
    | none => push
  let loop : Js := .forStmt n (.declare n .var true [names.index, names.bound]
      [.bare (.int 0), .dot n (ref names.source) "length"])
    (.binOp n (ref names.index) (.op n .lt) (ref names.bound))
    (.augAssign n (ref names.index) (.op n .add) (.num n "1"))
    [.declare n .var true [var] [.subscript n (ref names.source) (ref names.index)], step]
  let func : Js := .func n .plain none [] [.declare n .var true [names.result, names.source] [.list n [], source], loop,
      .ret n (ref names.result)] .absent []
  plainCall o (.dot n func "call") [.atom n .this]

def subclassNode (n : Origin) (cls target : Js) : Js :=
  plainCall n (.dot n (.dot n cls "prototype") "isPrototypeOf") [.dot n target "prototype"]

def isNegation : Expr → Bool
  | .unaryOp _ .uSub _ => true
  | _ => false

def refuseSuper (here : Place) (node : Ref) (value : Expr) : Run Unit :=
  match value, here.method with
  | .call _ (.name _ "super") [] _, some m => do
    refuseIf m.isInit node .superSubscript
    throw (.noPart "object has no attribute 'startswith'")
  | _, _ => pure ()

/-! ### Rules

A rule gets the parts of a node as steps that compile them, and runs them in the order in which they
stand in the output. -/

/-- The steps that compile the parts of an expression: the function, the arguments and the values of
the keywords of a call; the elements of a sequence; the index or the bounds between brackets. -/
structure Parts where
  func : Run Js
  args : List (Run Js)
  values : Run (List Js)

def Parts.none : Parts := ⟨pure .absent, [], pure []⟩

def Parts.ofArgs (args : List (Run Js)) : Parts := { Parts.none with args := args }

/-- An argument of a call with the steps that compile it and its parts. -/
structure Operand where
  expr : Expr
  whole : Run Js
  parts : Parts

def inOrder (steps : List (Run α)) : Run (List α) :=
  steps.mapM id

def keyNodes (cfg : Config) : List Expr → List (Run Js) → Run (List Js)
  | key :: keys, step :: steps => do
    let j ← step
    let j := if key.str?.isSome then j else .keySubscript (cfg.origin none) j
    return j :: (← keyNodes cfg keys steps)
  | _, _ => pure []

def pairNodes (target : Run Js) (classes : List (Run Js)) : Run (List (Js × Js)) :=
  classes.mapM fun cls => do
    let t ← target
    return (t, ← cls)

/-- The subclass tests of classes in order, each with another copy of `target`. -/
def subclassNodes (n : Origin) (target : Run Js) (classes : List (Run Js)) : Run (List Js) :=
  classes.mapM fun cls => do
    let c ← cls
    return subclassNode n c (← target)

/-- The tests of a chain of comparisons; `left` compiles the left operand of the first. -/
def testNodes (cfg : Config) (o : Origin) (left : Run Js) : List CmpOp → List (Run Js) → Run (List Js)
  | op :: ops, right :: rest => do
    let l ← left
    let s ← operatorNode cfg op.kind (CmpOp.operator? op)
    let r ← right
    return .binOp o l s r :: (← testNodes cfg o right ops rest)
  | _, _ => pure []

def attrRule (cfg : Config) (here : Place) (node : Ref) (value : Expr) (field : String)
    (whole : Run Js) (args : List (Run Js)) : Run Js :=
  let o := cfg.origin (some node)
  let plain : Run Js := do return .dot o (← whole) (normalizeName field)
  match value with
  | .call _ (.name _ called) _ _ =>
    match called, args, here.method with
    | "super", [], some m => do
      refuseIf m.isInit node .superAttribute
      return .dot o (.atom (cfg.origin none) .super) (normalizeName field)
    | "list", [item], _ =>
      if field == "append" then do return .dot o (← item) "push" else plain
    | _, _, _ => plain
  | _ => plain

/-- A subscript; `parts` are the bounds or the index between the brackets. -/
def subscriptRule (cfg : Config) (here : Place) (node : Ref) (value slice : Expr) (whole : Run Js)
    (parts : List (Run Js)) : Run Js :=
  let o := cfg.origin (some node)
  let n := cfg.origin none
  match slice, parts with
  | .slice _ lower upper step, [first, last] => do
    refuseIf (!step.isAbsent) node .sliceStep
    let value ← whole
    let first ← first
    let last ← last
    let args := (if lower.isAbsent then .num n "0" else first) ::
      (if upper.isAbsent then [] else [last])
    return plainCall o (.dot n value "slice") args
  | slice, parts => do
    refuseSuper here node value
    match slice, parts with
    | .index key, [item] =>
      let value ← whole
      let item ← item
      if isNegation key then
        return .subscript o (plainCall n (.dot n value "slice") [item]) (.num n "0")
      return .subscript o value item
    | _, _ => throw (.unmet "")

/-- A call of `new(…)`: the call inside it, as one that makes an object. -/
def newRule (cfg : Config) (o : Origin) (subject : Operand) : Run Js :=
  match subject.expr with
  | .call _ _ _ keywords =>
    callNode cfg o subject.expr.ref "new " subject.parts.func (inOrder subject.parts.args) keywords
      subject.parts.values
  | _ => throw (.noPart ("'" ++ subject.expr.kind ++ "' object has no attribute 'keywords'"))

def demandText (a : Operand) : Run String := do
  demand a.expr.str?.isSome
  return a.expr.str?.getD ""

/-- A call of a function with a rule of its own; `call` compiles it like any other. -/
def builtinRule (cfg : Config) (node : Ref) (f : Builtin) (args : List Operand) (call : Run Js) : Run Js :=
  let o := cfg.origin (some node)
  let n := cfg.origin none
  let all : Run (List Js) := inOrder (args.map (·.whole))
  match f, args with
  | .typeOf, [a] => do return .unaryOp o (.op n .typeOf) (← a.whole)
  | .callable, [a] => do
    let one ← a.whole
    let two ← a.whole
    return .binOp o (.binOp n one (.op n .instanceOf) (.name n (.text "Function"))) (.op n .or)
      (.binOp n (.unaryOp n (.op n .typeOf) two) (.op n .strongEq) (.json n (.str "function")))
  | .isInstance, [target, cls] =>
    instanceNode cfg o target.whole cls.expr cls.whole (pairNodes target.whole cls.parts.args)
  | .print, _ => do return plainCall o (fieldOf n "console" "log") (← all)
  | .len, [a] => do return .dot o (← a.whole) "length"
  | .js, [a] => do return .literal o (← demandText a)
  | .new, [] => throw .outOfRange
  | .new, subject :: _ => newRule cfg o subject
  | .dependImport, [a] => do
    let text ← demandText a
    guardFeature cfg.es6 node .dependImport
    return .importOf o (.depend text)
  | .str, [a] => do return plainCall o (.dot n (.name n (← a.whole)) "toString") []
  | .type, [a] => do return plainCall o (fieldOf n "Object" "getPrototypeOf") [← a.whole]
  | .tagged, [a] => do
    let text ← demandText a
    guardFeature cfg.es6 node .taggedTemplate
    return .tagged o text (.name n (.text "__"))
  | .tagged, [a, tag] => do
    let text ← demandText a
    guardFeature cfg.es6 node .taggedTemplate
    return .tagged o text (← tag.whole)
  | .template, [a] => do
    let text ← demandText a
    guardFeature cfg.es6 node .template
    return .template o text
  | .hasAttr, [obj, key] => do
    let key ← key.whole
    return .binOp o key (.op n .isIn) (← obj.whole)
  | .getAttr, [obj, key] => do
    let obj ← obj.whole
    return .subscript o obj (← key.whole)
  | .getAttr, [obj, key, default] => do
    let obj ← obj.whole
    let key ← key.whole
    return .binOp o (.subscript n obj key) (.op n .or) (← default.whole)
  | .setAttr, [obj, key, value] => do
    let obj ← obj.whole
    let key ← key.whole
    return .exprStmt o (.assign n (.subscript n obj key) (← value.whole))
  | .isSubclass, [target, classes] => do
    let steps := if isSequence classes.expr then classes.parts.args else [classes.whole]
    let each ← subclassNodes n target.whole steps
    match joinTests n n (.op n .or) each with
    | some tests => return .exprStmt o tests
    | none => throw (.unassigned "cur")
  | .int, _ => do
    let args ← all
    return plainCall o (if cfg.es6 then .dot n (.text "Number") "parseInt"
      else .name n (.text "parseInt")) args
  | .float, _ => do
    let args ← all
    return plainCall o (if cfg.es6 then .dot n (.text "Number") "parseFloat"
      else .name n (.text "parseFloat")) args
  | .typeOf, _ | .callable, _ | .isInstance, _ | .dependImport, _ | .type, _ => throw (.unmet "")
  | .tagged, _ :: _ | .template, _ :: _ => throw (.unmet "")
  | _, _ => call

def superRule (cfg : Config) (o : Origin) (m : Method) (field : String) (all : Run (List Js)) : Run Js := do
  let n := cfg.origin none
  if m.isInit then return plainCall o (.atom n .super) (← all)
  if !m.isAsync then
    let args ← all
    return plainCall o (.dot n (.atom n .super) (normalizeName field)) args
  match m.superclass with
  | none => throw .outOfRange
  | some superclass => do
    let cls ← superclass
    let args ← all
    return plainCall o (.dot n (.dot n (.dot n (.name n cls) "prototype") (normalizeName field))
      "call") (.atom n .this :: args)

/-- A call of the method `field` of what the call of a name gives; `inner` are the arguments of that
call, and `call` compiles the whole like any other. -/
def methodRule (cfg : Config) (here : Place) (node : Ref) (called : String) (inner : List (Run Js))
    (field : String) (all : Run (List Js)) (call : Run Js) : Run Js :=
  let o := cfg.origin (some node)
  let n := cfg.origin none
  match called, inner, here.method with
  | "super", [], some m => superRule cfg o m field all
  | "dict", [item], _ => do
    if field == "update" then
      guardFeature cfg.es6 node .dictUpdate
      let item ← item
      return plainCall o (fieldOf n "Object" "assign") (item :: (← all))
    else if field == "copy" then
      guardFeature cfg.es6 node .dictCopy
      return plainCall o (fieldOf n "Object" "assign") [.dict n [] [], ← item]
    else call
  | _, _, _ => call

/-- A call; `inner` are the arguments of the call that a method of it is called of. -/
def callRule (cfg : Config) (here : Place) (node : Ref) (func : Expr) (keywords : List Keyword)
    (whole : Run Js) (inner : List (Run Js)) (args : List Operand) (values : Run (List Js)) :
    Run Js :=
  let all : Run (List Js) := inOrder (args.map (·.whole))
  let call (operator : String) : Run Js :=
    callNode cfg (cfg.origin (some node)) node operator whole all keywords values
  match func with
  | .name _ id =>
    match Builtin.ofName? id with
    | some f => builtinRule cfg node f args (call (callOperator id))
    | none => call (callOperator id)
  | .attr _ (.call _ (.name _ called) _ _) field =>
    if makesObject field then call "new " else methodRule cfg here node called inner field all (call "")
  | .attr _ _ field => call (callOperator field)
  | _ => call ""

def boolRule (cfg : Config) (o : Origin) (op : BoolOp) (values : List Expr) (all : Run (List Js)) : Run Js :=
  let n := cfg.origin none
  match values with
  | [] => throw (.wrongType "reduce() of empty iterable with no initial value")
  | [v] => throw (.noPart ("'" ++ v.kind ++ "' object has no attribute 'transformed_args'"))
  | _ => do
    let js ← all
    return (joinTests o n (.op n (BoolOp.operator op)) js).getD .absent

def membershipNode (cfg : Config) (o : Origin) (negated : Bool) (left container : Run Js) : Run Js := do
  let n := cfg.origin none
  let helper : Snippet := if cfg.es6 then .containsEs6 else .contains
  let left ← left
  let container ← container
  let call (o : Origin) : Js := plainCall o (.dot n (.text "_pj") helper.name) [left, container]
  if negated then return .unaryOp o (.op n .not) (call n)
  return call o

def compareRule (cfg : Config) (o : Origin) (ops : List CmpOp) (left : Run Js) (rights : List (Run Js)) : Run Js :=
  let n := cfg.origin none
  match ops with
  | [] => throw .outOfRange
  | first :: _ => do
    if (first = .isIn || first = .notIn) && cfg.snippets then
      useSnippet (if cfg.es6 then .containsEs6 else .contains)
      match rights with
      | [] => throw .outOfRange
      | container :: _ => membershipNode cfg o (first = .notIn) left container
    else
      if rights.length < ops.length then throw .outOfRange
      let tests ← testNodes cfg (if ops.length = 1 then o else n) left ops rights
      return (joinTests o n (.op n .and) tests).getD .absent

/-- A list comprehension; `steps` compile the list and the tests of each clause. -/
def comprehensionRule (cfg : Config) (o : Origin) (generators : List Generator)
    (steps : List (Run Js × Run (List Js))) (elt : Run Js) : Run Js :=
  match generators, steps with
  | [.mk (.name _ var) _ ifs], [(iter, tests)] => do
    demand (ifs.length ≤ 1)
    let result ← newName
    let source ← newName
    let index ← newName
    let bound ← newName
    let iter ← iter
    let tests ← tests
    let elt ← elt
    return comprehensionNode cfg o ⟨result, source, index, bound⟩ var iter tests.head? elt
  | _, _ => throw (.unmet "")

mutual
def compileExpr (cfg : Config) (here : Place) (e : Expr) : Run Js :=
  let o := cfg.origin (some e.ref)
  let n := cfg.origin none
  match e with
  | .absent => pure .absent
  | .name _ id => pure (nameNode o id)
  | .constant _ c => constantNode o c
  | .attr _ value field =>
    attrRule cfg here e.ref value field (compileExpr cfg here value) (compileParts cfg here value).args
  | .subscript _ value slice =>
    subscriptRule cfg here e.ref value slice (compileExpr cfg here value) (compileParts cfg here slice).args
  | .call _ func args keywords =>
    callRule cfg here e.ref func keywords (compileExpr cfg here func)
      (compileReceiver cfg here func).args (compileOperands cfg here args)
      (compileValues cfg here keywords)
  | .boolOp _ op values => boolRule cfg o op values (inOrder (compileRuns cfg here values))
  | .binOp _ left op right => do
    let left ← compileExpr cfg here left
    if op = .pow then
      return plainCall o (fieldOf n "Math" "pow") [left, ← compileExpr cfg here right]
    let op ← operatorNode cfg op.kind (BinOp.operator? op)
    return .binOp o left op (← compileExpr cfg here right)
  | .unaryOp _ op operand => do
    let op ← operatorNode cfg op.kind (UnaryOp.operator? op)
    return .unaryOp o op (← compileExpr cfg here operand)
  | .compare _ left ops comparators =>
    compareRule cfg o ops (compileExpr cfg here left) (compileRuns cfg here comparators)
  | .ifExp _ test body orelse => do
    let test ← compileExpr cfg here test
    let body ← compileExpr cfg here body
    return .ifExp o test body (← compileExpr cfg here orelse)
  | .lambda _ params kwDefaults defaults body => do
    demand (params.vararg.isNone && params.kwOnly.isEmpty && params.kwarg.isNone &&
      defaults.isEmpty && kwDefaults.isEmpty)
    let body ← compileExpr cfg here body
    return .func o .arrow none (params.args.map fun a => .text a.name) [.ret n body] .absent []
  | .list _ elts | .tuple _ elts => do return .list o (← inOrder (compileRuns cfg here elts))
  | .dict _ keys values => do
    keys.forM (demandKey cfg)
    let keys ← keyNodes cfg keys (compileRuns cfg here keys)
    return .dict o keys (← inOrder (compileRuns cfg here values))
  | .listComp _ elt generators =>
    comprehensionRule cfg o generators (compileGenerators cfg here generators) (compileExpr cfg here elt)
  | .await _ value => do
    guardFeature cfg.stage3 e.ref .asyncStuff
    return .marked o .await (← compileExpr cfg here value)
  | .yield _ value => do return .marked o .yield (← compileExpr cfg here value)
  | .yieldFrom _ value => do return .marked o .yieldAll (← compileExpr cfg here value)
  | .starred _ value => do return .marked o .rest (← compileExpr cfg here value)
  | .joinedStr _ values => do
    guardFeature cfg.es6 e.ref .fString
    return .template o (← compileChunks cfg here e.ref values)
  | .set .. | .setComp .. | .generatorExp .. | .dictComp .. | .namedExpr .. | .formattedValue ..
  | .slice .. | .index .. | .extSlice .. => throw (.noRule e.ref)

def compileRuns (cfg : Config) (here : Place) : List Expr → List (Run Js)
  | [] => []
  | e :: rest => compileExpr cfg here e :: compileRuns cfg here rest

def compileParts (cfg : Config) (here : Place) : Expr → Parts
  | .call _ func args keywords =>
    ⟨compileExpr cfg here func, compileRuns cfg here args, compileValues cfg here keywords⟩
  | .tuple _ elts | .list _ elts | .set _ elts => .ofArgs (compileRuns cfg here elts)
  | .slice _ lower upper _ => .ofArgs [compileExpr cfg here lower, compileExpr cfg here upper]
  | .index key => .ofArgs [compileExpr cfg here key]
  | _ => .none

def compileReceiver (cfg : Config) (here : Place) : Expr → Parts
  | .attr _ value _ => compileParts cfg here value
  | _ => .none

def compileOperands (cfg : Config) (here : Place) : List Expr → List Operand
  | [] => []
  | e :: rest =>
    ⟨e, compileExpr cfg here e, compileParts cfg here e⟩ :: compileOperands cfg here rest

def compileValues (cfg : Config) (here : Place) : List Keyword → Run (List Js)
  | [] => pure []
  | .mk _ _ value :: rest => do
    let j ← compileExpr cfg here value
    return j :: (← compileValues cfg here rest)

/-- The steps that compile the lists and the tests of the clauses of a comprehension. -/
def compileGenerators (cfg : Config) (here : Place) : List Generator → List (Run Js × Run (List Js))
  | [] => []
  | .mk _ iter ifs :: rest =>
    (compileExpr cfg here iter, inOrder (compileRuns cfg here ifs)) :: compileGenerators cfg here rest

/-- Compiles the chunks of a formatted string to the text of a template. An expression in it is
written at once. -/
def compileChunks (cfg : Config) (here : Place) (node : Ref) : List Expr → Run String
  | [] => pure ""
  | .constant _ (.str s) :: rest => do return s ++ (← compileChunks cfg here node rest)
  | .formattedValue _ value conversion spec :: rest => do
    refuseIf (conversion != -1) node .fStringConversion
    refuseIf (!spec.isAbsent) node .fStringFormat
    let j ← compileExpr cfg here value
    let text ← ofExcept j.render?
    return "$\x7b" ++ text ++ "\x7d" ++ (← compileChunks cfg here node rest)
  | _ => throw (.unmet "")
end

def compileExprs (cfg : Config) (here : Place) (es : List Expr) : Run (List Js) :=
  inOrder (compileRuns cfg here es)

end Transpiler.Compile
