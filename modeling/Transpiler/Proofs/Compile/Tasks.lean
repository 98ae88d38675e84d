import Transpiler.Proofs.Compile.Occurrences

/-!
# What a compilation consists of

A compilation is made of tasks: to compile an expression or a statement that stands at a site, and to
act on the session. A task has parts, which are tasks again (`Task.parts`). They are listed in the order
in which the rules come to them, and as often.
-/

namespace Transpiler.Compile

open Script (Js)
open Source (CmpOp Expr Generator Handler Keyword Params Ref Stmt)

/-! ### Sites -/

inductive Site where
  | top
  /-- Among the members of a class; `base` is the superclass. -/
  | member (base : Option Expr) (outer : Site)
  | inner (outer : Site)
  | inside (name : String) (isAsync : Bool) (outer : Site)

structure SiteMethod where
  isInit : Bool
  isAsync : Bool
  superclass : Option (Site × Expr)

namespace Site

def owner? : Site → Option (Option (Site × Expr))
  | member base outer => some (base.map fun e => (outer, e))
  | _ => none

def method? : Site → Option SiteMethod
  | top => none
  | member _ outer | inner outer => outer.method?
  | inside name isAsync outer =>
    outer.owner?.map fun superclass => ⟨name == "__init__", isAsync, superclass⟩

def place (cfg : Config) : Site → Place
  | top => .top
  | member base outer => (outer.place cfg).member (base.map (compileExpr cfg (outer.place cfg)))
  | inner outer => (outer.place cfg).inner
  | inside name isAsync outer => (outer.place cfg).inside name isAsync

end Site

/-! ### Tasks -/

inductive Action where
  | draw
  | use (f : Snippet)
  | imports (names : List String)
  | remark (node : Ref) (text : String)
  | scope (taken : List String) (body : List Stmt)
  /-- Notes the name of the exception that is handled. -/
  | catching (name : String)
  /-- Looks up the name of the exception that is handled. -/
  | caught

inductive Task where
  | act (a : Action)
  | expr (site : Site) (e : Expr)
  | stmt (site : Site) (s : Stmt)
  | decorators (site : Site) (h : ClassHeader)

inductive Value where
  | done
  | text (s : String)
  | names (ns : List String)
  | caught (name : Option String)
  | tree (j : Js)

def Action.run : Action → Run Value
  | draw => Value.text <$> newName
  | use f => (fun _ => .done) <$> useSnippet f
  | imports names => (fun _ => .done) <$> addGlobals names
  | remark node text => (fun _ => .done) <$> warn node text
  | scope taken body => Value.names <$> openScope taken body
  | catching name => (fun _ => .done) <$> setEntry Context.exceptionKey (.name name)
  | caught => (fun s => .caught s.context.exception?) <$> get

def Task.run (templates : Templates) (cfg : Config) : Task → Run Value
  | act a => a.run
  | expr site e => Value.tree <$> compileExpr cfg (site.place cfg) e
  | stmt site s => Value.tree <$> compileStmt templates cfg (site.place cfg) s
  | decorators site h => Value.tree <$> compileClassDecorators cfg (site.place cfg) h

def Task.isFramed : Task → Bool
  | stmt _ (.bare _) => false
  | stmt .. | decorators .. => true
  | act _ | expr .. => false

/-! ### Parts of expressions -/

/-- The arguments of a call, the elements of a sequence, and the index or the bounds between brackets. -/
def pieces : Expr → List Expr
  | .call _ _ args _ => args
  | .tuple _ elts | .list _ elts | .set _ elts => elts
  | .slice _ lower upper _ => [lower, upper]
  | .index key => [key]
  | _ => []

def callExprs (func : Expr) (args : List Expr) (keywords : List Keyword) : List Expr :=
  func :: (args ++ keywords.map Keyword.value)

def attrExprs (inMethod : Bool) (value : Expr) (field : String) : List Expr :=
  match value with
  | .call _ (.name _ called) args _ =>
    match called, args, inMethod with
    | "super", [], true => []
    | "list", [item], _ => if field == "append" then [item] else [value]
    | _, _, _ => [value]
  | _ => [value]

def instanceExprs (target : List Expr) (cls : Expr) : List Expr :=
  if isSequence cls then (pieces cls).flatMap fun c => target ++ [c]
  else
    match cls.name? with
    | some "str" | some "int" | some "float" => target ++ target
    | _ => target ++ [cls]

def newExprs : Expr → List Expr
  | .call _ func args keywords => callExprs func args keywords
  | _ => []

def builtinExprs (f : Builtin) (args call : List Expr) : List Expr :=
  match f, args with
  | .typeOf, [a] | .len, [a] | .str, [a] | .type, [a] => [a]
  | .callable, [a] => [a, a]
  | .isInstance, [target, cls] => instanceExprs [target] cls
  | .print, _ | .int, _ | .float, _ => args
  | .js, [_] => []
  | .new, subject :: _ => newExprs subject
  | .tagged, [_, tag] => [tag]
  | .hasAttr, [obj, key] => [key, obj]
  | .getAttr, [obj, key] => [obj, key]
  | .getAttr, [obj, key, default] => [obj, key, default]
  | .setAttr, [obj, key, value] => [obj, key, value]
  | .isSubclass, [target, classes] =>
    (if isSequence classes then pieces classes else [classes]).flatMap fun c => [c, target]
  | .typeOf, _ | .callable, _ | .isInstance, _ | .dependImport, _ | .type, _ | .new, _ => []
  | .tagged, _ :: _ | .template, _ :: _ => []
  | _, _ => call

def chainExprs : Expr → List CmpOp → List Expr → List Expr
  | left, _ :: ops, right :: rest => left :: right :: chainExprs right ops rest
  | _, _, _ => []

def formatted? : Expr → Option Expr
  | .formattedValue _ value _ _ => some value
  | _ => none

section

variable (cfg : Config) (site : Site)

def exprTasks (es : List Expr) : List Task :=
  es.map (.expr site)

def stmtTasks (body : List Stmt) : List Task :=
  body.map (.stmt site)

/-- A call of a method of what the call of a name gives. A method that is asynchronous names the
superclass where it calls its method. -/
def methodTasks (called : String) (inner : List Expr) (field : String) (args call : List Expr) : List Task :=
  match called, inner, site.method? with
  | "super", [], some m =>
    (if m.isInit || !m.isAsync then [] else (m.superclass.map fun b => Task.expr b.1 b.2).toList) ++ exprTasks site args
  | "dict", [item], _ =>
    exprTasks site <| if field == "update" then item :: args
      else if field == "copy" then [item] else call
  | _, _, _ => exprTasks site call

def callTasks (func : Expr) (args : List Expr) (keywords : List Keyword) : List Task :=
  let call := callExprs func args keywords
  match func with
  | .name _ id =>
    match Builtin.ofName? id with
    | some f => exprTasks site (builtinExprs f args call)
    | none => exprTasks site call
  | .attr _ (.call _ (.name _ called) inner _) field =>
    if makesObject field then exprTasks site call else methodTasks site called inner field args call
  | _ => exprTasks site call

def compareTasks (left : Expr) (ops : List CmpOp) (comparators : List Expr) : List Task :=
  match ops with
  | [] => []
  | first :: _ =>
    if (first = .isIn || first = .notIn) && cfg.snippets then
      .act (.use (if cfg.es6 then .containsEs6 else .contains)) :: exprTasks site (left :: comparators.take 1)
    else exprTasks site (chainExprs left ops comparators)

def comprehensionTasks (elt : Expr) : List Generator → List Task
  | [.mk (.name ..) iter ifs] =>
    List.replicate 4 (.act .draw) ++ exprTasks site (iter :: (ifs ++ [elt]))
  | _ => []

def exprParts : Expr → List Task
  | .attr _ value field => exprTasks site (attrExprs site.method?.isSome value field)
  | .subscript _ value slice => exprTasks site (value :: pieces slice)
  | .call _ func args keywords => callTasks site func args keywords
  | .boolOp _ _ values => exprTasks site values
  | .binOp _ left _ right => exprTasks site [left, right]
  | .unaryOp _ _ operand => exprTasks site [operand]
  | .compare _ left ops comparators => compareTasks cfg site left ops comparators
  | .ifExp _ test body orelse => exprTasks site [test, body, orelse]
  | .lambda _ _ _ _ body => exprTasks site [body]
  | .list _ elts | .tuple _ elts => exprTasks site elts
  | .dict _ keys values => exprTasks site (keys ++ values)
  | .listComp _ elt generators => comprehensionTasks site elt generators
  | .await _ value | .yield _ value | .yieldFrom _ value | .starred _ value => exprTasks site [value]
  | .joinedStr _ values => exprTasks site (values.filterMap formatted?)
  | .absent | .name .. | .constant .. | .set .. | .setComp .. | .generatorExp .. | .dictComp ..
  | .namedExpr .. | .formattedValue .. | .slice .. | .index .. | .extSlice .. => []

/-! ### Parts of statements -/

def Default.exprs : Default → List Expr
  | .value e => [e]
  | .none | .emptyDict => []

def Site.params (h : Header) : List (String × Default) :=
  withDefaults (positional site.owner?.isSome h.params) h.params

/-- The names of the parameters of a function that stands at a site: without the receiver of a method,
and with those that only come by name. -/
def Site.parameters (h : Header) : List String :=
  parameterNames (positional site.owner?.isSome h.params) h.params ++ h.params.kwOnly.map (·.name)

def namedDefaults (ps : Params) : List Expr :=
  (ps.kwOnly.zip ps.kwDefaults).flatMap fun p => if p.2.isAbsent then [] else [p.2]

/-- The defaults that are compiled before the body of a function and those that are compiled after it.
A member of a class may leave out some of its parameters. -/
def defaultExprs (h : Header) (generator : Bool) : List Expr × List Expr :=
  let given := (site.params h).map (·.2.exprs)
  let named := namedDefaults h.params
  if site.owner?.isNone then (given.flatten, named)
  else
    let taken := memberArity h generator
    ((taken.1.select given).flatten, if taken.2 then named else [])

def functionTasks (h : Header) (body : List Stmt) : List Task :=
  let inside := site.inside h.name h.isAsync
  let defaults := defaultExprs site h (isGenerator body)
  .act (.scope (site.parameters h) body) ::
    (exprTasks inside defaults.1 ++ stmtTasks inside body ++ exprTasks inside defaults.2)

/-- The methods of a class. Decorators that are applied when the compiled code runs are not compiled
with their method. -/
def methodStmts (body : List Stmt) : List Stmt :=
  body.filterMap fun
    | .functionDef p isAsync name params inner ds returns =>
      some (.functionDef p isAsync name params inner (if appliedAtRunTime ds then [] else ds) returns)
    | _ => none

def classSnippets (h : ClassHeader) (body : List Stmt) : List Snippet :=
  (if (classAssigns body).isEmpty then [] else [.setProperties]) ++
    (if (decoratedMethods body).isEmpty then [] else [.setDecorators]) ++
    (if h.decorators.isEmpty then [] else [.setClassDecorators])

def classAssignExprs (assigns : List (String × Expr × Expr)) : List Expr :=
  (assigns.flatMap fun a => if a.2.1.name?.isSome then [] else [a.2.1]) ++ assigns.map (·.2.2)

/-- The decorators of methods that are applied when the compiled code runs. They are compiled with the
class. -/
def methodDecoratorTasks (methods : List (String × Header)) : List Task :=
  methods.flatMap fun m => exprTasks (site.inside m.2.name m.2.isAsync) m.2.decorators

def classTasks (h : ClassHeader) (body : List Stmt) : List Task :=
  let members := site.member h.bases.head?
  (classSnippets h body).map (.act <| .use ·) ++ exprTasks site h.bases.head?.toList ++
    stmtTasks members (methodStmts body) ++
    exprTasks site (classAssignExprs (sortAssigns (classAssigns body))) ++
    methodDecoratorTasks members (decoratedMethods body) ++
    (if h.decorators.isEmpty then [] else [.decorators site h])

def assignExprs (targets : List Expr) (value : Expr) : List Expr :=
  match targets with
  | [.name _ "__all__"] => []
  | [.name _ "__default__"] => if value.str?.isSome then [] else [value]
  | targets => targets ++ [value]

def loopTasks (target iter : Expr) : LoopForm → List Task
  | .range _ start bound step =>
    .act .draw :: exprTasks site (start.toList ++ bound.toList ++ step.toList)
  | .keys _ object _ => .act .draw :: exprTasks site [object]
  | .elements object => exprTasks site [target, object]
  | .array _ => List.replicate 3 (.act .draw) ++ exprTasks site [iter]

def raiseTasks (exc : Expr) : List Task :=
  match exc with
  | .absent => [.act .caught]
  | .call _ (.name _ "Exception") [arg] _ => exprTasks site [arg]
  | exc => exprTasks site [exc]

def beginTryTasks (node : Ref) (handlers : List Handler) : List Task :=
  (handlers.flatMap fun h => if mayBeType h.type then [] else [.act <| .remark node
    "Exception type expression might not evaluate to a valid type or sequence of types."]) ++
    (if handlers.isEmpty then [] else [.act (.catching (caughtName handlers))])

def handlerTasks : List Handler → List Task
  | [] => []
  | .mk _ type _ body :: rest =>
    if takesAll rest.isEmpty type then stmtTasks site body
    else exprTasks site (instanceExprs [] type) ++ stmtTasks site body ++ handlerTasks rest

def stmtParts (s : Stmt) : List Task :=
  match s with
  | .functionDef p isAsync name params body ds _ => functionTasks site ⟨p, isAsync, name, params, ds⟩ body
  | .classDef p name bases keywords body ds =>
    let h : ClassHeader := ⟨p, name, bases, keywords, ds⟩
    if isExceptionClass h body then [] else classTasks site h body
  | .ret _ value => exprTasks site [value]
  | .delete _ targets => exprTasks site targets
  | .assign _ targets value => exprTasks site (assignExprs targets value)
  | .augAssign _ target _ value | .annAssign _ target _ value => exprTasks site [target, value]
  | .forLoop _ _ target iter body orelse =>
    ((loopForm? target iter (!orelse.isEmpty)).map (loopTasks site target iter)).getD [] ++ stmtTasks site.inner body
  | .whileLoop _ test body _ => exprTasks site [test] ++ stmtTasks site.inner body
  | .ifElse _ test body orelse =>
    exprTasks site [test] ++ stmtTasks site.inner body ++ stmtTasks site.inner orelse
  | .raise _ exc _ => raiseTasks site exc
  | .tryBlock _ _ body handlers _ finalbody =>
    beginTryTasks s.ref handlers ++ stmtTasks site.inner body ++ handlerTasks site.inner handlers ++
      stmtTasks site.inner finalbody
  | .assertion _ test msg => .act (.use .assertion) :: exprTasks site [test, msg]
  | .importNames _ names | .importFrom _ _ names _ => [.act (.imports (names.map Alias.bound))]
  | .expr _ value => if value.str?.isSome then [] else exprTasks site [value]
  | .bare e => exprTasks site [e]
  | .pass _ | .breakLoop _ | .continueLoop _ | .withBlock .. | .global .. | .nonlocal ..
  | .matchBlock .. => []

end

def Task.parts (cfg : Config) : Task → List Task
  | act _ => []
  | expr site e => exprParts cfg site e
  | stmt site s => stmtParts site s
  | decorators site h => exprTasks site h.decorators

end Transpiler.Compile
