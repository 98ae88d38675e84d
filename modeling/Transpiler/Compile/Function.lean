import Transpiler.Compile.Expr

/-!
# Compiling function definitions

A function definition becomes a function, a class member, or, below a class, an arrow function that
keeps `this`. First the form is chosen (`FuncForm`), which is also where a definition is refused;
then its parameters and its body are compiled.
-/

namespace Transpiler.Compile

open Script (Func Js Member Origin)
open Source (At Expr Params Ref Stmt Tree)

structure Header where
  pos : At
  isAsync : Bool
  name : String
  params : Params
  decorators : List Expr

def Header.ref (h : Header) : Ref :=
  (Stmt.functionDef h.pos h.isAsync h.name h.params [] h.decorators .absent).ref

/-- How many of the parameters a class member takes. -/
inductive Arity where
  | none | one | all
  deriving Inhabited, Repr, DecidableEq

inductive FuncForm where
  /-- A class member; `named` says whether it takes the rest and the keyword parameters. -/
  | member (m : Member) (static : Bool) (name : String) (arity : Arity) (named : Bool)
  | func (f : Func)
  | arrow
  | bound (f : Func)
  deriving Inhabited, Repr, DecidableEq

def isGenerator (body : List Stmt) : Bool :=
  Tree.scopeHas (fun k => k == "Yield" || k == "YieldFrom") (Source.stmtTrees body)

def isElaborate (ps : Params) : Bool :=
  ps.vararg.isSome || !ps.kwOnly.isEmpty || !ps.defaults.isEmpty || !ps.kwDefaults.isEmpty || ps.kwarg.isSome

/-- The positional parameters, without the receiver of a method and without a leading `self`. -/
def positional (isMethod : Bool) (ps : Params) : List String :=
  let names := ps.args.map (·.name)
  if isMethod || names.head? == some "self" then names.drop 1 else names

inductive Default where
  | none
  | value (e : Expr)
  | emptyDict

/-- The parameters with their defaults. Defaults belong to the last parameters; a parameter that
collects keywords is an empty object by default. -/
def withDefaults (names : List String) (ps : Params) : List (String × Default) :=
  let given := ps.defaults.map Default.value
  let given := List.replicate (names.length - given.length) .none ++ given
  match ps.kwarg with
  | some k => (names ++ [k.name]).zip (given ++ [.emptyDict])
  | none => names.zip given

/-- The names of the parameters in the output, those that only come by name apart. -/
def parameterNames (names : List String) (ps : Params) : List String :=
  names ++ (ps.kwarg.map (·.name)).toList

/-- The form of a method that is neither a generator nor asynchronous and has no accessor
decorator: some names have a member of their own. -/
def methodForm (static : Bool) (name : String) : FuncForm :=
  match name with
  | "__len__" => .member .getter static "length" .none false
  | "__str__" => .member .method static "toString" .none false
  | "__get__" => .member .method static "get" .none false
  | "__set__" => .member .method static "set" .none false
  | "__instancecheck__" => .member .method true "[Symbol.hasInstance]" .all false
  | _ => .member .method static name .all true

/-- The accessor that a decorator makes of a method, and whether it makes it static. -/
def accessor? : Expr → Option (Option Member × Bool)
  | .name _ "property" => some (some .getter, false)
  | .attr _ (.name _ _) "setter" => some (some .setter, false)
  | .name _ "classmethod" => some (none, true)
  | _ => none

def formOf (here : Place) (h : Header) (generator : Bool) (count : Nat) : Run FuncForm := do
  let name := normalizeName h.name
  let wrapper : Option Func :=
    if generator then some .generator else if h.isAsync then some .async else none
  if here.owner.isNone then
    let inMethod := !("fn_".toList.isPrefixOf h.name.toList) && here.underClass
    match inMethod, wrapper with
    | true, none => return .arrow
    | true, some f => return .bound f
    | false, f => return .func (f.getD .plain)
  let (access, static) ← match h.decorators.head? with
    | none => pure (none, false)
    | some d => match accessor? d with
      | some found => pure found
      | none => throw (.unsupported (some h.ref) .methodDecorator)
  if name == "__init__" then return .member .constructor false name .all true
  match wrapper, access with
  | some .generator, _ => return .member .generator static name .all true
  | some _, _ => return .member .async static name .all true
  | none, some .getter => return .member .getter static name .none false
  | none, some _ => do
    refuseIf (count == 0) h.ref .setterArgument
    return .member .setter static name .one false
  | none, none => return methodForm static name

def compileParam (cfg : Config) (here : Place) : String × Default → Run Js
  | (k, .none) => pure (.text k)
  | (k, .value e) => do return .assign (cfg.origin none) (.text k) (← compileExpr cfg here e)
  | (k, .emptyDict) =>
    let n := cfg.origin none
    pure (.assign n (.text k) (.dict n [] []))

def compileKeywordParams (cfg : Config) (here : Place) (ps : Params) : Run (List Js) :=
  (ps.kwOnly.zip ps.kwDefaults).mapM fun (k, v) => do
    if v.isAbsent then return .text k.name
    return .assign (cfg.origin none) (.text k.name) (← compileExpr cfg here v)

def checkFunction (cfg : Config) (here : Place) (h : Header) : Run Unit := do
  let ps := h.params
  if h.isAsync then guardFeature cfg.stage3 h.ref .asyncStuff
  refuseIf (here.owner.isNone && !h.decorators.isEmpty) h.ref .functionDecorator
  refuseIf (h.decorators.length > 1) h.ref .severalDecorators
  if isElaborate ps then guardFeature cfg.es6 h.ref .parameters
  refuseIf (ps.kwarg.isSome && !ps.kwOnly.isEmpty) h.ref .keywordsAndAccumulator
  refuseIf (ps.vararg.isSome && (!ps.kwOnly.isEmpty || ps.kwarg.isSome)) h.ref .restAndKeywords

/-- Notes the variables of a function and gives those that it declares: the names its body binds,
without its parameters and without the variables around it. -/
def openScope (taken : List String) (body : List Stmt) : Run (List String) := do
  let upper := (← get).context.vars
  let vars := (Source.localNames body).filter fun v => !taken.contains v && !upper.contains v
  setEntry Context.varsKey (.names (upper ++ vars))
  return vars

def declaring (n : Origin) (vars : List String) (js : List Js) : List Js :=
  if vars.isEmpty then js
  else [.statements n (.declare n .var true vars (vars.map fun _ => .absent) :: js)]

def restParam (n : Origin) (ps : Params) : Js :=
  match ps.vararg with
  | some a => .marked n .rest (.text a.name)
  | none => .absent

def Arity.select (params : List α) : Arity → List α
  | none => []
  | one => params.take 1
  | all => params

/-- A definition in its form; `args`, `block` and `named` compile its parameters, its body and the
parameters that only come by name. -/
def functionNode (cfg : Config) (h : Header) (form : FuncForm) (args : List (Run Js))
    (block named : Run (List Js)) : Run Js := do
  let o := cfg.origin (some h.ref)
  let n := cfg.origin none
  let name := normalizeName h.name
  let rest := restParam n h.params
  let func (f : Func) : Run Js := do
    let args ← inOrder args
    let js ← block
    return .func o f (some name) args js rest (← named)
  match form with
  | .func f => func f
  | .arrow => return .statements o [.declare n .var true [name] [.absent], ← func .arrow]
  | .bound f =>
    let rebound : Js := .assign n (.name n (.text name)) (plainCall n (.dot n (.text name) "bind") [.atom n .this])
    return .statements o [← func f, .exprStmt n rebound]
  | .member m static name arity takesNamed =>
    let args ← inOrder (arity.select args)
    let js ← block
    if takesNamed then return .member o m static name args js rest (← named)
    return .member o m static name args js .absent []

/-- Compiles a function definition. `body` is needed to know the variables of the function, and
`compileBody` compiles it. -/
def compileFunction (cfg : Config) (here : Place) (h : Header) (body : List Stmt)
    (compileBody : Place → Run (List Js)) : Run Js := do
  checkFunction cfg here h
  let names := positional here.owner.isSome h.params
  let params := withDefaults names h.params
  let vars ← openScope (parameterNames names h.params ++ h.params.kwOnly.map (·.name)) body
  let form ← formOf here h (isGenerator body) params.length
  let inside := here.inside h.name h.isAsync
  functionNode cfg h form (params.map (compileParam cfg inside))
    (declaring (cfg.origin none) vars <$> compileBody inside) (compileKeywordParams cfg inside h.params)

end Transpiler.Compile
