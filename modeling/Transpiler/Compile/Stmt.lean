import Transpiler.Compile.Function
import Transpiler.Compile.Library

/-!
# Compiling statements

One rule for each kind of statement. A statement is compiled in a frame of its own, so that names
generated in it are free again after it.

A class that only names an exception is compiled from a template. How a template is compiled is a
parameter here (`Templates`), because it is compiled by these same rules in a session of its own.
-/

namespace Transpiler.Compile

open Script (Js Origin)
open Source (Alias At BinOp Constant Expr Handler Keyword Params Ref Stmt Tree)

abbrev Templates := Config → List Stmt → Except Fault Js

/-! ### Assignments -/

def assignChain (n : Origin) (value : Js) : List Js → Js
  | [] => value
  | target :: rest => .assign n target (assignChain n value rest)

def compileExports (cfg : Config) (node : Ref) (value : Expr) : Run Js := do
  guardFeature cfg.es6 node .allAssignment
  let names ← match value with
    | .tuple _ elts | .list _ elts => elts.mapM fun el => do
      refuseIf el.str?.isNone el.ref .allNotString
      return Js.text (el.str?.getD "")
    | _ => throw (.unsupported (some node) .allNotList)
  return .exportNames (cfg.origin (some node)) names

def compileDefaultExport (cfg : Config) (here : Place) (node : Ref) (value : Expr) : Run Js := do
  let o := cfg.origin (some node)
  guardFeature cfg.es6 node .defaultAssignment
  let isList := match value with
    | .tuple .. | .list .. => true
    | _ => false
  refuseIf isList value.ref .defaultList
  match value.str? with
  | some s => return .exportDefault o (.text s)
  | none => return .exportDefault o (← compileExpr cfg here value)

def compileAssign (cfg : Config) (here : Place) (node : Ref) (targets : List Expr) (value : Expr) : Run Js := do
  match targets with
  | [] => throw .outOfRange
  | [.name _ "__all__"] => compileExports cfg node value
  | [.name _ "__default__"] => compileDefaultExport cfg here node value
  | targets =>
    let targets ← compileExprs cfg here targets
    let value ← compileExpr cfg here value
    return .exprStmt (cfg.origin (some node)) (assignChain (cfg.origin none) value targets)

/-! ### Imports -/

def slashed (path : String) : String :=
  String.ofList (path.toList.map fun c => if c = '.' then '/' else c)

def Alias.bound (a : Alias) : String :=
  match a.asName with
  | some s => if s == "" then a.name else s
  | none => a.name

def compileImport (cfg : Config) (node : Ref) (names : List Alias) : Run Js := do
  guardFeature cfg.es6 node .importStatement
  addGlobals (names.map Alias.bound)
  let js ← names.mapM fun a => do
    let name := modulePath a.name
    refuseIf (name != a.name && a.asName.getD "" == "") node (.moduleName name)
    return Js.importOf (cfg.origin none) (.star (slashed name) (Alias.bound { a with name := name }))
  return .statements (cfg.origin (some node)) js

/-- The path of a module relative to the importing one, `level` steps up. -/
def relativePath (level : Int) (path : String) : String :=
  if level == 1 then "./" ++ path
  else if level > 1 then String.join (List.replicate (level - 1).toNat "../") ++ path
  else path

def compileImportFrom (cfg : Config) (node : Ref) (module : Option String) (names : List Alias)
    (level : Option Int) : Run Js := do
  let o := cfg.origin (some node)
  let noLevel : Fault := .wrongType "'>' not supported between instances of 'NoneType' and 'int'"
  if module == some "__globals__" then
    demand (level == some 0)
    addGlobals (names.map Alias.bound)
    return .pass o
  guardFeature cfg.es6 node .importFrom
  addGlobals (names.map Alias.bound)
  match level with
  | none => throw noLevel
  | some level =>
    match module.getD "" with
    | "" => do
      demand (level > 0)
      let single := names.length == 1
      let js := names.map fun a =>
        let source := if single then node else a.ref
        Js.importOf (cfg.origin (some source)) (.star (relativePath level a.name) (Alias.bound a))
      return .statements o js
    | module => do
      let fragments := (Text.splitOn '.' (modulePath module)).map normalizeName
      let path := relativePath level ("/".intercalate fragments)
      match names with
      | [⟨_, "__default__", asName⟩] => do
        refuseIf asName.isNone node .defaultImportAlias
        return .importOf o (.default path (asName.getD ""))
      | names => return .importOf o (.named path (names.map fun a => (a.name, a.asName)))

/-! ### Loops -/

inductive LoopForm where
  | range (var : String) (start bound step : Option Expr)
  /-- Goes through the keys of an object; `own` leaves out those that it inherits. -/
  | keys (var : String) (object : Expr) (own : Bool)
  /-- Goes through the elements that an object gives. -/
  | elements (object : Expr)
  | array (var : String)

def isTrueConstant : Expr → Bool
  | .constant _ (.bool b) => b
  | _ => false

def arrayForm (node : Ref) (target : Expr) : Run LoopForm :=
  match target.name? with
  | some var => pure (.array var)
  | none => throw (.unsupported (some node) .arrayLoopTarget)

/-- The form of a loop. Three functions around what is iterated choose it; a loop with an `else`
block goes through an array. -/
def loopForm (cfg : Config) (node : Ref) (target iter : Expr) (hasElse : Bool) : Run LoopForm :=
  match iter, hasElse with
  | .call _ (.name _ called) args _, false =>
    match called, target.name?, args with
    | "range", some var, [bound] => pure (.range var none (some bound) none)
    | "range", some var, [start, bound] => pure (.range var (some start) (some bound) none)
    | "range", some var, [start, bound, step] =>
      pure (.range var (some start) (some bound) (some step))
    | "dict", found, args =>
      if args.length > 2 then arrayForm node target
      else match found, args with
        | none, _ => throw (.unsupported (some node) .loopTarget)
        | some _, [] => throw .outOfRange
        | some var, object :: rest => pure (.keys var object (!rest.any isTrueConstant))
    | "iterable", _, [object] => do
      guardFeature cfg.es6 node .forOf
      return .elements object
    | _, _, _ => arrayForm node target
  | _, _ => arrayForm node target

/-- Compiles a part of a `range`, which is `other` if the source leaves it out. -/
def compileRangePart (cfg : Config) (here : Place) (other : String) : Option Expr → Run Js
  | some e => compileExpr cfg here e
  | none => pure (.num (cfg.origin none) other)

def compileLoop (cfg : Config) (here : Place) (node : Ref) (target iter : Expr) (hasElse : Bool)
    (body : Run (List Js)) : Run Js := do
  let o := cfg.origin (some node)
  let n := cfg.origin none
  let ref (s : String) : Js := .name n (.text s)
  match ← loopForm cfg node target iter hasElse with
  | .range var start bound step =>
    let limit ← newName
    let start ← compileRangePart cfg here "0" start
    let bound ← compileRangePart cfg here "0" bound
    let step ← compileRangePart cfg here "1" step
    return .forStmt o (.declare n .var true [var, limit] [start, bound])
      (.binOp n (ref var) (.op n .lt) (ref limit)) (.augAssign n (ref var) (.op n .add) step)
      (← body)
  | .keys var object own =>
    let dict ← newName
    let object ← compileExpr cfg here object
    let body ← body
    let body := if own then
        [.ifStmt n (plainCall n (.dot n (ref dict) "hasOwnProperty") [ref var]) body []]
      else body
    return .statements o [.declare n .var false [dict] [object], .forEach o .keys (.text var) (ref dict) body]
  | .elements object =>
    let target ← compileExpr cfg here target
    let object ← compileExpr cfg here object
    return .forEach o .elements target object (← body)
  | .array var =>
    let array ← newName
    let length ← newName
    let index ← newName
    let iter ← compileExpr cfg here iter
    let pick : Js := .exprStmt n (.assign n (ref var) (.subscript n (ref array) (ref index)))
    return .forStmt o (.declare n .var false [var, index, array, length]
        [.absent, .num n "0", iter, .dot n (ref array) "length"])
      (.binOp n (ref index) (.op n .lt) (ref length))
      (.exprStmt n (.augAssign n (ref index) (.op n .add) (.num n "1"))) (pick :: (← body))

/-! ### Exceptions -/

def compileRaise (cfg : Config) (here : Place) (node : Ref) (exc : Expr) : Run Js := do
  let o := cfg.origin (some node)
  let n := cfg.origin none
  match exc with
  | .absent =>
    match (← get).context.exception? with
    | some name => return .command o .throw (.name n (.text name))
    | none => throw (.unsupported (some node) .bareRaise)
  | .call _ (.name _ "Exception") [arg] _ =>
    let arg ← compileExpr cfg here arg
    return .command o .throw (.call n "new " (.name n (.text "Error")) [arg] .absent)
  | exc => return .command o .throw (← compileExpr cfg here exc)

/-- Whether a clause takes every exception: the last one without a type, or `Exception`. -/
def takesAll (isLast : Bool) (type : Expr) : Bool :=
  (isLast && type.isAbsent) || type.name? == some "Exception"

def mayBeType : Expr → Bool
  | .absent | .name .. | .attr .. | .tuple .. | .list .. => true
  | _ => false

/-- The name that the caught exception is bound to: that of the last clause, or `e`. -/
def caughtName (handlers : List Handler) : String :=
  match handlers.getLast? with
  | some h => match h.name with
    | some s => if s == "" then "e" else s
    | none => "e"
  | none => "e"

/-- Binds the caught exception to the name that a clause gives it, if that is another one. -/
def renameCaught (n : Origin) (caught : String) : Option String → List Js
  | some s => if s == caught then [] else [.declare n .var true [s] [.text caught]]
  | none => []

def compileCatchTest (cfg : Config) (here : Place) (caught : String) (type : Expr) : Run Js :=
  let n := cfg.origin none
  let target : Run Js := pure (.name n (.text caught))
  let pairs := pairNodes target (compileParts cfg here type).args
  instanceNode cfg n target type (compileExpr cfg here type) pairs

/-- Prepares a `try` statement: refuses what is not supported, notes what is doubtful, and chooses
the name of the caught exception. -/
def beginTry (node : Ref) (handlers : List Handler) (orelse finalbody : List Stmt) : Run String := do
  refuseIf (!orelse.isEmpty) node .tryElse
  let caught := caughtName handlers
  handlers.forM fun h =>
    if mayBeType h.type then pure ()
    else warn node "Exception type expression might not evaluate to a valid type or sequence of types."
  let has (kind : String) (ts : List Tree) : Bool := Tree.scopeHas (· == kind) ts
  if has "Raise" (Source.handlerTrees handlers) && has "Return" (Source.stmtTrees finalbody) then
    throw (.undefinedName "node")
  if !handlers.isEmpty then setEntry Context.exceptionKey (.name caught)
  return caught

/-! ### Classes -/

structure ClassHeader where
  pos : At
  name : String
  bases : List Expr
  keywords : List Keyword
  decorators : List Expr

def ClassHeader.ref (h : ClassHeader) : Ref :=
  (Stmt.classDef h.pos h.name h.bases h.keywords [] h.decorators).ref

def isDoc : Stmt → Bool
  | .expr _ v => v.str?.isSome
  | _ => false

def mayBeMember : Stmt → Bool
  | .functionDef .. | .assign .. | .annAssign .. | .pass _ => true
  | s => isDoc s

def classDoc (cfg : Config) : List Stmt → List Js
  | .expr p v :: _ => match v.str? with
    | some s => [.comment (cfg.origin (some (Stmt.expr p v).ref)) s]
    | none => []
  | _ => []

def checkClass (cfg : Config) (h : ClassHeader) (body : List Stmt) : Run Unit := do
  guardFeature cfg.es6 h.ref .classStatement
  refuseIf (h.bases.length > 1) h.ref .severalBases
  body.forM fun s => do
    refuseIf (!mayBeMember s) h.ref .classMember
    refuseIf (match s with
      | .assign _ targets _ => targets.length > 1
      | _ => false) h.ref .classAssignment
  if !h.keywords.isEmpty then
    throw (.unmet ("class '" ++ h.name ++ "', args cannot be keywords"))

def isExceptionClass (h : ClassHeader) (body : List Stmt) : Bool :=
  let isBare := body.all fun
    | .functionDef .. | .assign .. | .annAssign .. => false
    | _ => true
  let base := match h.bases with
    | b :: _ => b.name?
    | [] => none
  isBare && (base == some "Exception" || base == some "Error")

def memberDecorators : List String := ["property", "classmethod", "staticmethod"]

/-- Whether decorators of a method are applied when the compiled code runs. -/
def appliedAtRunTime : List Expr → Bool
  | [] => false
  | [.name _ id] => !memberDecorators.contains id
  | .attr _ _ "setter" :: _ => false
  | _ => true

/-- The methods whose decorators are applied when the compiled code runs: the name of each, and its
header. Of methods of one name the last counts; they come in the order of their names. -/
def decoratedMethods (body : List Stmt) : List (String × Header) :=
  let found := body.filterMap fun
    | .functionDef p isAsync name params _ ds _ =>
      if appliedAtRunTime ds then some (name, (⟨p, isAsync, name, params, ds⟩ : Header)) else none
    | _ => none
  (Source.sortNames (found.map (·.1))).filterMap fun name =>
    found.reverse.find? (·.1 == name)

/-- The assignments of a class: the name by which each is sorted, its target and its value. -/
def classAssigns (body : List Stmt) : List (String × Expr × Expr) :=
  body.filterMap fun
    | .assign _ targets value =>
      let target := targets.headD .absent
      some (target.name?.getD "~", target, value)
    | .annAssign _ target _ value => some (target.name?.getD "~", target, value)
    | _ => none

def insertAssign (a : String × Expr × Expr) : List (String × Expr × Expr) → List (String × Expr × Expr)
  | [] => [a]
  | b :: rest => if a.1 < b.1 then a :: b :: rest else b :: insertAssign a rest

def sortAssigns (as : List (String × Expr × Expr)) : List (String × Expr × Expr) :=
  as.foldl (fun acc a => insertAssign a acc) []

def classCall (n : Origin) (f : Snippet) (cls : String) (keys values : List Js) : Js :=
  .exprStmt n (plainCall n (fieldOf n "_pj" f.name) [.name n (.text cls), .dict n keys values])

/-- Compiles the target of an assignment of a class to the key of an entry. -/
def compileClassKey (cfg : Config) (here : Place) (target : Expr) : Run Js := do
  match target.name? with
  | some id => return Js.json (cfg.origin none) (.str (normalizeName id))
  | none => return .keySubscript (cfg.origin none) (← compileExpr cfg here target)

def compileClassAssigns (cfg : Config) (here : Place) (h : ClassHeader)
    (assigns : List (String × Expr × Expr)) : Run Js := do
  let n := cfg.origin none
  let keys ← assigns.mapM fun (_, target, _) => compileClassKey cfg here target
  let values ← assigns.mapM fun (_, _, value) => compileExpr cfg here value
  return classCall n .setProperties h.name keys values

/-- Compiles the decorators of methods that are applied when the compiled code runs. -/
def compileMethodDecorators (cfg : Config) (here : Place) (h : ClassHeader)
    (methods : List (String × Header)) : Run Js := do
  let n := cfg.origin none
  let values ← methods.mapM fun (_, m) => do
    return Js.list n (← compileExprs cfg (here.inside m.name m.isAsync) m.decorators)
  return classCall n .setDecorators h.name (methods.map fun (name, _) => .json n (.str name)) values

/-- Compiles the decorators of a class: an assignment of the decorated class to its name. -/
def compileClassDecorators (cfg : Config) (here : Place) (h : ClassHeader) : Run Js := inFrame do
  let n := cfg.origin none
  let call : Run Js := do
    let decorators ← compileExprs cfg here h.decorators
    return plainCall n (fieldOf n "_pj" Snippet.setClassDecorators.name)
      [nameNode n h.name, .list n decorators]
  match h.name with
  | "__all__" => throw (.unsupported (some (.uncited "Assign" none)) .allNotList)
  | "__default__" => return .exprStmt n (.exportDefault n (← call))
  | _ => return .exprStmt n (.exprStmt n (.assign n (nameNode n h.name) (← call)))

/-- Fails unless every method of a class has a receiver and every assignment a target. -/
def checkMembers (body : List Stmt) : Run Unit := do
  body.forM fun
    | .functionDef p isAsync name params _ ds _ => do
      let first := params.args.head?.map (·.name)
      refuseIf (first != some "self") (Header.ref ⟨p, isAsync, name, params, ds⟩) .methodSelf
    | _ => pure ()
  let hasNoTarget := body.any fun
    | .assign _ targets _ => targets.isEmpty
    | _ => false
  if body.isEmpty || hasNoTarget then throw .outOfRange

def useClassSnippets (h : ClassHeader) (body : List Stmt) : Run Unit := do
  if !(classAssigns body).isEmpty then useSnippet .setProperties
  if !(decoratedMethods body).isEmpty then useSnippet .setDecorators
  if !h.decorators.isEmpty then useSnippet .setClassDecorators

def optionally (cond : Bool) (step : Run Js) : Run (List Js) :=
  if cond then List.singleton <$> step else pure []

/-- Compiles a class; `members` compiles its methods and its documentation. -/
def compileClass (cfg : Config) (here : Place) (h : ClassHeader) (body : List Stmt)
    (members : Place → Run (List Js)) : Run Js := do
  checkMembers body
  useClassSnippets h body
  let superclass := h.bases.head?.map (compileExpr cfg here)
  let inside := here.member superclass
  let base ← superclass.getD (pure .absent)
  let js ← members inside
  let cls : Js := .classDef (cfg.origin (some h.ref)) (.name (cfg.origin none) (.text h.name)) base js
  let assigns := sortAssigns (classAssigns body)
  let decorated := decoratedMethods body
  let properties ← optionally (!assigns.isEmpty) (compileClassAssigns cfg here h assigns)
  let decorators ← optionally (!decorated.isEmpty) (compileMethodDecorators cfg inside h decorated)
  let classDecorators ← optionally (!h.decorators.isEmpty) (compileClassDecorators cfg here h)
  return .statements (cfg.origin (some h.ref)) (cls :: (properties ++ decorators ++ classDecorators))

/-- Compiles a class that only names an exception. All of it maps to the class statement. -/
def compileExceptionClass (templates : Templates) (cfg : Config) (h : ClassHeader) : Run Js := do
  let inner := { cfg with remap := some h.ref, snippets := false, mapped := true }
  match ← ofExcept (templates inner (exceptionSource h.name)) with
  | .statements _ items => return .statements (cfg.origin (some h.ref)) items
  | j => return j

/-! ### Statements -/

mutual
def compileStmt (templates : Templates) (cfg : Config) (here : Place) (s : Stmt) : Run Js :=
  let o := cfg.origin (some s.ref)
  let n := cfg.origin none
  let node := s.ref
  match s with
  | .functionDef p isAsync name params body ds _ =>
    inFrame (compileFunction cfg here ⟨p, isAsync, name, params, ds⟩ body
      (fun inside => compileBlock templates cfg inside body))
  | .classDef p name bases keywords body ds => inFrame do
    let h : ClassHeader := ⟨p, name, bases, keywords, ds⟩
    checkClass cfg h body
    if isExceptionClass h body then compileExceptionClass templates cfg h
    else compileClass cfg here h body fun inside => do
      return classDoc cfg body ++ (← compileMethods templates cfg inside body)
  | .ret _ value => inFrame do return .ret o (← compileExpr cfg here value)
  | .delete _ targets => inFrame do
    let single := targets.length == 1
    let js ← targets.mapM fun t => do
      let source := if single then node else t.ref
      return Js.command (cfg.origin (some source)) .delete (← compileExpr cfg here t)
    return .statements o js
  | .assign _ targets value => inFrame (compileAssign cfg here node targets value)
  | .augAssign _ target op value => inFrame do
    let target ← compileExpr cfg here target
    let op ← operatorNode cfg op.kind (BinOp.operator? op)
    return .augAssign o target op (← compileExpr cfg here value)
  | .annAssign _ target _ value => inFrame do
    let target ← compileExpr cfg here target
    return .exprStmt o (.assign n target (← compileExpr cfg here value))
  | .forLoop _ isAsync target iter body orelse => inFrame do
    if isAsync then throw (.noRule node)
    compileLoop cfg here node target iter (!orelse.isEmpty) (compileBlock templates cfg here.inner body)
  | .whileLoop _ test body orelse => inFrame do
    demand orelse.isEmpty
    let test ← compileExpr cfg here test
    return .whileStmt o test (← compileBlock templates cfg here.inner body)
  | .ifElse _ test body orelse => inFrame do
    let test ← compileExpr cfg here test
    let body ← compileBlock templates cfg here.inner body
    return .ifStmt o test body (← compileBlock templates cfg here.inner orelse)
  | .raise _ exc _ => inFrame (compileRaise cfg here node exc)
  | .tryBlock _ star body handlers orelse finalbody => inFrame do
    if star then throw (.noRule node)
    let caught ← beginTry node handlers orelse finalbody
    let body ← compileBlock templates cfg here.inner body
    let catching ← compileHandlers templates cfg here.inner caught handlers
    let finishing ← compileBlock templates cfg here.inner finalbody
    if handlers.isEmpty then return .tryStmt o body .absent [] finishing
    return .tryStmt o body (.text caught) catching finishing
  | .assertion _ test msg => inFrame do
    if !cfg.snippets then throw (.noRule node)
    useSnippet .assertion
    let test ← compileExpr cfg here test
    let reason ← compileExpr cfg here msg
    let reason := if msg.isAbsent then .atom n .null else reason
    return plainCall o (.dot n (.text "_pj") Snippet.assertion.name) [test, reason]
  | .importNames _ names => inFrame (compileImport cfg node names)
  | .importFrom _ module names level => inFrame (compileImportFrom cfg node module names level)
  | .expr _ value => inFrame do
    match value.str? with
    | some s => return .comment o s
    | none => return .exprStmt o (← compileExpr cfg here value)
  | .pass _ => inFrame (pure (.pass o))
  | .breakLoop _ => inFrame (pure (.jump o .leave))
  | .continueLoop _ => inFrame (pure (.jump o .next))
  | .withBlock .. | .global .. | .nonlocal .. | .matchBlock .. => inFrame (throw (.noRule node))
  | .bare e => compileExpr cfg here e

def compileBlock (templates : Templates) (cfg : Config) (here : Place) : List Stmt → Run (List Js)
  | [] => pure []
  | s :: rest => do
    let j ← compileStmt templates cfg here s
    return j :: (← compileBlock templates cfg here rest)

/-- Compiles the clauses of a `try` statement to one statement: the first whose test holds is run,
and the exception is thrown again if there is none. -/
def compileHandlers (templates : Templates) (cfg : Config) (here : Place) (caught : String) :
    List Handler → Run (List Js)
  | [] => pure []
  | .mk _ type name body :: rest => do
    let n := cfg.origin none
    let rename := renameCaught n caught name
    if takesAll rest.isEmpty type then
      let body ← compileBlock templates cfg here body
      return [.statements n (rename ++ body)]
    let test ← compileCatchTest cfg here caught type
    let body ← compileBlock templates cfg here body
    let others ← if rest.isEmpty then pure [.command n .throw (.name n (.text caught))]
      else compileHandlers templates cfg here caught rest
    return [.ifStmt n test (rename ++ body) others]

def compileMethods (templates : Templates) (cfg : Config) (here : Place) : List Stmt → Run (List Js)
  | [] => pure []
  | .functionDef p isAsync name params body ds _ :: rest => do
    let ds := if appliedAtRunTime ds then [] else ds
    let j ← inFrame (compileFunction cfg here ⟨p, isAsync, name, params, ds⟩ body
      (fun inside => compileBlock templates cfg inside body))
    return j :: (← compileMethods templates cfg here rest)
  | _ :: rest => compileMethods templates cfg here rest
end

end Transpiler.Compile
