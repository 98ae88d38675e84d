import Transpiler.Compile.Text
import Transpiler.Proofs.Script.Traits

/-!
# Occurrences of names

Where the names of a source occur and in what role (`Occurrence`), and which of its parts are written
with a feature of the newer dialect in either dialect (`Loose`). Both are marks of the source. They
are collected from the parts that are compiled; the rules differ in which parts these are.
-/

namespace Transpiler.Compile

open Script (Feature Trait)
open Source (Alias CmpOp Expr Generator Handler Keyword Params Ref Stmt)

inductive Role where
  | use | function | parameter | declaration | loopVar | classDef | alias | caught | exported
  /-- A name with a rule of its own, in the place of which something else is written. -/
  | replaced
  deriving Inhabited, Repr, DecidableEq

inductive Route where
  | normalized | verbatim | replaced
  deriving Inhabited, Repr, DecidableEq

def Role.route : Role → Route
  | .use | .function => .normalized
  | .replaced => .replaced
  | _ => .verbatim

def Route.spelling? (name : String) : Route → Option String
  | .normalized => some (normalizeName name)
  | .verbatim => some name
  | .replaced => none

structure Occurrence where
  node : Option Ref
  name : String
  role : Role
  deriving Inhabited, Repr, DecidableEq

def Occurrence.spelling? (p : Occurrence) : Option String :=
  p.role.route.spelling? p.name

inductive Loose where
  | arrow | generator | member | spread | pattern
  deriving Inhabited, Repr, DecidableEq

def Loose.feature : Loose → Feature
  | .arrow => .arrow
  | .generator => .generator
  | .member => .member
  | .spread => .spread
  | .pattern => .pattern

inductive Mark where
  | occurrence (p : Occurrence)
  | feature (f : Loose)
  deriving Inhabited, Repr, DecidableEq

def Mark.trait? : Mark → Option Trait
  | .occurrence p => p.spelling?.map (.name p.node)
  | .feature f => some (.feature f.feature)

/-- Whether something is written for a mark in any case. A variable is only declared if none of that
name is declared around it. -/
def Mark.isSure : Mark → Bool
  | .occurrence p => p.role != .declaration
  | .feature _ => true

/-! ### Places -/

structure SpotMethod where
  isInit : Bool
  isAsync : Bool
  superclass : Option (List Mark)

structure Spot where
  method : Option SpotMethod
  /-- The class that a member stands in, with the marks of its superclass. -/
  owner : Option (Option (List Mark))
  underClass : Bool
  /-- The name that the exception being handled is bound to. -/
  caught : Option String

def Spot.top : Spot := ⟨none, none, false, none⟩

def Spot.member (superclass : Option (List Mark)) (spot : Spot) : Spot :=
  { spot with owner := some superclass, underClass := true }

def Spot.inner (spot : Spot) : Spot := { spot with owner := none }

def Spot.inside (name : String) (isAsync : Bool) (spot : Spot) : Spot :=
  { spot with
    method := spot.owner.map fun superclass => ⟨name == "__init__", isAsync, superclass⟩
    owner := none }

def Spot.catching (handlers : List Handler) (spot : Spot) : Spot :=
  if handlers.isEmpty then spot else { spot with caught := some (caughtName handlers) }

/-! ### Expressions -/

section

variable (cfg : Config)

def Config.nodeOf (r : Option Ref) : Option Ref :=
  (cfg.origin r).source

def boundMarks (role : Role) (name : String) : List Mark :=
  [.occurrence ⟨none, name, role⟩, .occurrence ⟨cfg.nodeOf none, name, role⟩]

def replacedMark (e : Expr) (id : String) : Mark :=
  .occurrence ⟨cfg.nodeOf (some e.ref), id, .replaced⟩

end

def useMarks (node : Option Ref) (id : String) : List Mark :=
  if id == "self" || id == "True" || id == "False" || id == "None" then []
  else [.occurrence ⟨node, id, .use⟩]

def parameterMark (name : String) : Mark :=
  .occurrence ⟨none, name, .parameter⟩

structure PartMarks where
  func : List Mark
  args : List (List Mark)
  values : List Mark

def PartMarks.ofArgs (args : List (List Mark)) : PartMarks := ⟨[], args, []⟩

structure OperandMarks where
  expr : Expr
  whole : List Mark
  parts : PartMarks

section

variable (cfg : Config) (spot : Spot)

def attrMarks (value : Expr) (field : String) (whole : List Mark) (args : List (List Mark)) : List Mark :=
  match value with
  | .call _ (.name p called) _ _ =>
    match called, args, spot.method with
    | "super", [], some _ => [replacedMark cfg (.name p called) called]
    | "list", [item], _ =>
      if field == "append" then replacedMark cfg (.name p called) called :: item else whole
    | _, _, _ => whole
  | _ => whole

def subscriptMarks (slice : Expr) (whole : List Mark) (parts : List (List Mark)) : List Mark :=
  match slice, parts with
  | .slice _ lower upper _, [first, last] =>
    whole ++ (if lower.isAbsent then [] else first) ++ (if upper.isAbsent then [] else last)
  | _, _ => whole ++ parts.flatten

/-- A value that is written again for each of several others, and so not at all if there is none. -/
def eachWith (value : List Mark) (others : List (List Mark)) : List Mark :=
  if others.isEmpty then [] else value ++ others.flatten

def instanceMarks (target : List Mark) (cls : Expr) (whole : List Mark) (classes : List (List Mark)) : List Mark :=
  if isSequence cls then eachWith target classes
  else
    match cls.name? with
    | some "str" | some "int" | some "float" =>
      replacedMark cfg cls (cls.name?.getD "") :: target
    | _ => target ++ whole

def callMarks (keywords : List Keyword) (func args values : List Mark) : List Mark :=
  func ++ args ++ (if keywords.isEmpty then [] else values)

def builtinMarks (f : Builtin) (args : List OperandMarks) (call : List Mark) (name : Mark) : List Mark :=
  let all := (args.map (·.whole)).flatten
  match f, args with
  | .typeOf, [a] | .callable, [a] | .len, [a] | .str, [a] | .type, [a] => name :: a.whole
  | .isInstance, [target, cls] =>
    name :: instanceMarks cfg target.whole cls.expr cls.whole cls.parts.args
  | .print, _ | .int, _ | .float, _ => name :: all
  | .js, [_] | .dependImport, [_] | .tagged, [_] | .template, [_] => [name]
  | .new, subject :: _ =>
    match subject.expr with
    | .call _ _ _ keywords =>
      name :: callMarks keywords subject.parts.func subject.parts.args.flatten subject.parts.values
    | _ => []
  | .tagged, [_, tag] => name :: tag.whole
  | .hasAttr, [_, _] | .getAttr, [_, _] | .getAttr, [_, _, _] | .setAttr, [_, _, _] => name :: all
  | .isSubclass, [target, classes] =>
    name :: eachWith target.whole (if isSequence classes.expr then classes.parts.args else [classes.whole])
  | _, _ => call

def methodMarks (called : String) (name : Mark) (inner : List (List Mark)) (field : String)
    (all call : List Mark) : List Mark :=
  match called, inner, spot.method with
  | "super", [], some m =>
    name :: (if m.isInit || !m.isAsync then all else m.superclass.getD [] ++ all)
  | "dict", [item], _ =>
    if field == "update" then name :: (item ++ all)
    else if field == "copy" then name :: item
    else call
  | _, _, _ => call

def calledMarks (func : Expr) (keywords : List Keyword) (whole : List Mark)
    (inner : List (List Mark)) (args : List OperandMarks) (values : List Mark) : List Mark :=
  let all := (args.map (·.whole)).flatten
  let call := callMarks keywords whole all values
  match func with
  | .name p id =>
    match Builtin.ofName? id with
    | some f => builtinMarks cfg f args call (replacedMark cfg (.name p id) id)
    | none => call
  | .attr _ (.call _ (.name p called) _ _) field =>
    if makesObject field then call
    else methodMarks spot called (replacedMark cfg (.name p called) called) inner field all call
  | _ => call

def compareMarks (ops : List CmpOp) (left : List Mark) (rights : List (List Mark)) : List Mark :=
  match ops with
  | [] => []
  | first :: _ =>
    if (first = .isIn || first = .notIn) && cfg.snippets then left ++ (rights.take 1).flatten
    else eachWith left (rights.take ops.length)

def comprehensionMarks (generators : List Generator) (clauses : List (List Mark)) (elt : List Mark) : List Mark :=
  match generators with
  | [.mk (.name _ var) _ _] => .occurrence ⟨none, var, .loopVar⟩ :: (clauses.flatten ++ elt)
  | _ => []

end

mutual
def exprMarks (cfg : Config) (spot : Spot) (e : Expr) : List Mark :=
  match e with
  | .name _ id => useMarks (cfg.nodeOf (some e.ref)) id
  | .attr _ value field =>
    attrMarks cfg spot value field (exprMarks cfg spot value) (partMarks cfg spot value).args
  | .subscript _ value slice =>
    subscriptMarks slice (exprMarks cfg spot value) (partMarks cfg spot slice).args
  | .call _ func args keywords =>
    calledMarks cfg spot func keywords (exprMarks cfg spot func) (receiverMarks cfg spot func).args
      (operandMarks cfg spot args) (valueMarks cfg spot keywords)
  | .boolOp _ _ values => (exprsMarks cfg spot values).flatten
  | .binOp _ left _ right => exprMarks cfg spot left ++ exprMarks cfg spot right
  | .unaryOp _ _ operand => exprMarks cfg spot operand
  | .compare _ left ops comparators =>
    compareMarks cfg ops (exprMarks cfg spot left) (exprsMarks cfg spot comparators)
  | .ifExp _ test body orelse =>
    exprMarks cfg spot test ++ exprMarks cfg spot body ++ exprMarks cfg spot orelse
  | .lambda _ params _ _ body =>
    .feature .arrow :: (params.args.map (parameterMark ·.name) ++ exprMarks cfg spot body)
  | .list _ elts | .tuple _ elts => (exprsMarks cfg spot elts).flatten
  | .dict _ keys values => (exprsMarks cfg spot keys).flatten ++ (exprsMarks cfg spot values).flatten
  | .listComp _ elt generators =>
    comprehensionMarks generators (clauseMarks cfg spot generators) (exprMarks cfg spot elt)
  | .await _ value | .yield _ value | .yieldFrom _ value => exprMarks cfg spot value
  | .starred _ value => .feature .spread :: exprMarks cfg spot value
  | .joinedStr _ values => chunkMarks cfg spot values
  | .absent | .constant .. | .set .. | .setComp .. | .generatorExp .. | .dictComp .. | .namedExpr ..
  | .formattedValue .. | .slice .. | .index .. | .extSlice .. => []

def exprsMarks (cfg : Config) (spot : Spot) : List Expr → List (List Mark)
  | [] => []
  | e :: rest => exprMarks cfg spot e :: exprsMarks cfg spot rest

def partMarks (cfg : Config) (spot : Spot) : Expr → PartMarks
  | .call _ func args keywords =>
    ⟨exprMarks cfg spot func, exprsMarks cfg spot args, valueMarks cfg spot keywords⟩
  | .tuple _ elts | .list _ elts | .set _ elts => .ofArgs (exprsMarks cfg spot elts)
  | .slice _ lower upper _ => .ofArgs [exprMarks cfg spot lower, exprMarks cfg spot upper]
  | .index key => .ofArgs [exprMarks cfg spot key]
  | _ => .ofArgs []

def receiverMarks (cfg : Config) (spot : Spot) : Expr → PartMarks
  | .attr _ value _ => partMarks cfg spot value
  | _ => .ofArgs []

def operandMarks (cfg : Config) (spot : Spot) : List Expr → List OperandMarks
  | [] => []
  | e :: rest =>
    ⟨e, exprMarks cfg spot e, partMarks cfg spot e⟩ :: operandMarks cfg spot rest

def valueMarks (cfg : Config) (spot : Spot) : List Keyword → List Mark
  | [] => []
  | .mk _ _ value :: rest => exprMarks cfg spot value ++ valueMarks cfg spot rest

def clauseMarks (cfg : Config) (spot : Spot) : List Generator → List (List Mark)
  | [] => []
  | .mk _ iter ifs :: rest =>
    (exprMarks cfg spot iter ++ (exprsMarks cfg spot ifs).flatten) :: clauseMarks cfg spot rest

def chunkMarks (cfg : Config) (spot : Spot) : List Expr → List Mark
  | [] => []
  | .formattedValue _ value _ _ :: rest => exprMarks cfg spot value ++ chunkMarks cfg spot rest
  | _ :: rest => chunkMarks cfg spot rest
end

/-! ### Functions -/

section

variable (cfg : Config) (spot : Spot)

def declarationMarks (body : List Stmt) : List Mark :=
  (Source.localNames body).map fun v => .occurrence ⟨none, v, .declaration⟩

def defaultMarks : String × Default → List Mark
  | (k, .value e) => parameterMark k :: exprMarks cfg spot e
  | (k, _) => [parameterMark k]

def namedMarks (ps : Params) : List Mark :=
  (ps.vararg.map (parameterMark ·.name)).toList ++
    (ps.kwOnly.zip ps.kwDefaults).flatMap fun (k, v) => parameterMark k.name :: exprMarks cfg spot v

def inMethod (h : Header) : Bool :=
  !("fn_".toList.isPrefixOf h.name.toList) && spot.underClass

/-- The name of a function that is no member of a class. It is written again where the function is
bound to an object. -/
def functionNameMarks (h : Header) (generator : Bool) : List Mark :=
  let named (node : Option Ref) : Mark := .occurrence ⟨node, h.name, .function⟩
  let own := named (cfg.nodeOf (some h.ref))
  if inMethod spot h then
    if generator || h.isAsync then [own, named (cfg.nodeOf none), named none]
    else [.feature .arrow, named none, own]
  else [own]

/-- How many of its parameters an accessor or a method takes, and whether it takes those that only come
by name. -/
def accessArity (name : String) : Option Script.Member → Arity × Bool
  | some .getter => (.none, false)
  | some _ => (.one, false)
  | none => match methodForm false name with
    | .member _ _ _ arity named => (arity, named)
    | _ => (.all, true)

def memberArity (h : Header) (generator : Bool) : Arity × Bool :=
  let name := normalizeName h.name
  if name == "__init__" || generator || h.isAsync then (.all, true)
  else accessArity name ((h.decorators.head?.bind accessor?).bind (·.1))

/-- A definition, given the marks of its parameters, of its body and of the parameters that only come by
name. -/
def definitionMarks (h : Header) (generator : Bool) (params : List (List Mark)) (block named : List Mark) : List Mark :=
  if spot.owner.isNone then
    functionNameMarks cfg spot h generator ++ (if generator then [.feature .generator] else []) ++
      params.flatten ++ block ++ named
  else
    let (arity, takesNamed) := memberArity h generator
    .feature .member :: ((if generator && normalizeName h.name != "__init__" then [.feature .generator] else []) ++
        (arity.select params).flatten ++ block ++ (if takesNamed then named else []))

def functionMarks (h : Header) (body : List Stmt) (inner : Spot → List Mark) : List Mark :=
  let inside := spot.inside h.name h.isAsync
  let params := withDefaults (positional spot.owner.isSome h.params) h.params
  definitionMarks cfg spot h (isGenerator body) (params.map (defaultMarks cfg inside))
    (declarationMarks body ++ inner inside) (namedMarks cfg inside h.params)

/-! ### Statements -/

def isDisplay : Expr → Bool
  | .list .. | .tuple .. => true
  | _ => false

def targetMarks (target : Expr) : List Mark :=
  (if isDisplay target then [.feature .pattern] else []) ++ exprMarks cfg spot target

def exportMarks : Expr → List Mark
  | .tuple _ elts | .list _ elts =>
    elts.flatMap fun el => [.occurrence ⟨none, el.str?.getD "", .exported⟩]
  | _ => []

def defaultExportMarks (value : Expr) : List Mark :=
  match value.str? with
  | some s => [.occurrence ⟨none, s, .exported⟩]
  | none => exprMarks cfg spot value

def assignMarks (targets : List Expr) (value : Expr) : List Mark :=
  match targets with
  | [.name p "__all__"] => replacedMark cfg (.name p "__all__") "__all__" :: exportMarks value
  | [.name p "__default__"] =>
    replacedMark cfg (.name p "__default__") "__default__" :: defaultExportMarks cfg spot value
  | targets => targets.flatMap (targetMarks cfg spot) ++ exprMarks cfg spot value

def aliasMarks (names : List Alias) : List Mark :=
  names.flatMap fun a => [.occurrence ⟨none, Alias.bound a, .alias⟩]

def importFromMarks (module : Option String) (names : List Alias) : List Mark :=
  if module == some "__globals__" then []
  else if module.getD "" == "" then aliasMarks names
  else match names with
    | [⟨_, "__default__", asName⟩] => [.occurrence ⟨none, asName.getD "", .alias⟩]
    | names => aliasMarks names

def loopForm? (target iter : Expr) (hasElse : Bool) : Option LoopForm :=
  let array : Option LoopForm := target.name?.map .array
  match iter, hasElse with
  | .call _ (.name _ called) args _, false =>
    match called, target.name?, args with
    | "range", some var, [bound] => some (.range var none (some bound) none)
    | "range", some var, [start, bound] => some (.range var (some start) (some bound) none)
    | "range", some var, [start, bound, step] =>
      some (.range var (some start) (some bound) (some step))
    | "dict", found, args =>
      if args.length > 2 then array
      else match found, args with
        | some var, object :: rest => some (.keys var object (!rest.any isTrueConstant))
        | _, _ => none
    | "iterable", _, [object] => some (.elements object)
    | _, _, _ => array
  | _, _ => array

def choiceMarks (iter : Expr) : List Mark :=
  match iter with
  | .call _ (.name p called) _ _ => [replacedMark cfg (.name p called) called]
  | _ => []

def loopMarks (target iter : Expr) : LoopForm → List Mark
  | .range var start bound step =>
    let part (e : Option Expr) : List Mark := (e.map (exprMarks cfg spot)).getD []
    choiceMarks cfg iter ++ (boundMarks cfg .loopVar var ++ part start ++ part bound ++ part step)
  | .keys var object own =>
    choiceMarks cfg iter ++ ((if own then boundMarks cfg .loopVar var else [.occurrence ⟨none, var, .loopVar⟩]) ++
        exprMarks cfg spot object)
  | .elements object =>
    choiceMarks cfg iter ++ (exprMarks cfg spot target ++ exprMarks cfg spot object)
  | .array var => boundMarks cfg .loopVar var ++ exprMarks cfg spot iter

def caughtMark (name : String) : Mark :=
  .occurrence ⟨cfg.nodeOf none, name, .caught⟩

def raiseMarks (exc : Expr) : List Mark :=
  match exc with
  | .absent => (spot.caught.map (caughtMark cfg)).toList
  | .call _ (.name p "Exception") [arg] _ =>
    replacedMark cfg (.name p "Exception") "Exception" :: exprMarks cfg spot arg
  | exc => exprMarks cfg spot exc

def renameMarks (caught : String) : Option String → List Mark
  | some s =>
    if s == caught then [] else [.occurrence ⟨none, s, .caught⟩, .occurrence ⟨none, caught, .caught⟩]
  | none => []

def catchMarks (caught : String) (type : Expr) : List Mark :=
  instanceMarks cfg [caughtMark cfg caught] type (exprMarks cfg spot type) (partMarks cfg spot type).args

/-- A class; `members` are the marks of its methods. Its name is written again by the calls after it. -/
def classMarks (h : ClassHeader) (body : List Stmt) (members : Spot → List Mark) : List Mark :=
  let own : Mark := .occurrence ⟨cfg.nodeOf none, h.name, .classDef⟩
  let superclass := h.bases.head?.map (exprMarks cfg spot)
  let inside := spot.member superclass
  let assigns := sortAssigns (classAssigns body)
  let properties := assigns.flatMap fun (_, target, value) =>
    (if target.name?.isSome then [] else exprMarks cfg spot target) ++ exprMarks cfg spot value
  let decorated := decoratedMethods body
  let decorators := decorated.flatMap fun (_, m) =>
    (exprsMarks cfg (inside.inside m.name m.isAsync) m.decorators).flatten
  let classDecorators :=
    useMarks (cfg.nodeOf none) h.name ++ (exprsMarks cfg spot h.decorators).flatten
  own :: (superclass.getD [] ++ members inside) ++ (if !assigns.isEmpty then own :: properties else []) ++
    (if !decorated.isEmpty then own :: decorators else []) ++
    (if !h.decorators.isEmpty then classDecorators else [])

end

mutual
def stmtMarks (templates : Config → List Stmt → List Mark) (cfg : Config) (spot : Spot) (s : Stmt) : List Mark :=
  match s with
  | .functionDef p isAsync name params body ds _ =>
    functionMarks cfg spot ⟨p, isAsync, name, params, ds⟩ body (fun inside => blockMarks templates cfg inside body)
  | .classDef p name bases keywords body ds =>
    let h : ClassHeader := ⟨p, name, bases, keywords, ds⟩
    if isExceptionClass h body then
      templates { cfg with remap := some h.ref, snippets := false, mapped := true } (exceptionSource name)
    else classMarks cfg spot h body (fun inside => methodsMarks templates cfg inside body)
  | .ret _ value => exprMarks cfg spot value
  | .delete _ targets => targets.flatMap (exprMarks cfg spot)
  | .assign _ targets value => assignMarks cfg spot targets value
  | .augAssign _ target _ value => exprMarks cfg spot target ++ exprMarks cfg spot value
  | .annAssign _ target _ value => targetMarks cfg spot target ++ exprMarks cfg spot value
  | .forLoop _ _ target iter body orelse =>
    ((loopForm? target iter (!orelse.isEmpty)).map (loopMarks cfg spot target iter)).getD [] ++
      blockMarks templates cfg spot.inner body
  | .whileLoop _ test body _ => exprMarks cfg spot test ++ blockMarks templates cfg spot.inner body
  | .ifElse _ test body orelse =>
    exprMarks cfg spot test ++ blockMarks templates cfg spot.inner body ++ blockMarks templates cfg spot.inner orelse
  | .raise _ exc _ => raiseMarks cfg spot exc
  | .tryBlock _ _ body handlers _ finalbody =>
    let caught := caughtName handlers
    let inside := spot.inner.catching handlers
    blockMarks templates cfg inside body ++ (if handlers.isEmpty then [] else [.occurrence ⟨none, caught, .caught⟩]) ++
      handlersMarks templates cfg inside caught handlers ++ blockMarks templates cfg inside finalbody
  | .assertion _ test msg => exprMarks cfg spot test ++ exprMarks cfg spot msg
  | .importNames _ names => aliasMarks names
  | .importFrom _ module names _ => importFromMarks module names
  | .expr _ value => if value.str?.isSome then [] else exprMarks cfg spot value
  | .bare e => exprMarks cfg spot e
  | .pass _ | .breakLoop _ | .continueLoop _ | .withBlock .. | .global .. | .nonlocal ..
  | .matchBlock .. => []

def blockMarks (templates : Config → List Stmt → List Mark) (cfg : Config) (spot : Spot) : List Stmt → List Mark
  | [] => []
  | s :: rest => stmtMarks templates cfg spot s ++ blockMarks templates cfg spot rest

def handlersMarks (templates : Config → List Stmt → List Mark) (cfg : Config) (spot : Spot)
    (caught : String) : List Handler → List Mark
  | [] => []
  | .mk _ type name body :: rest =>
    renameMarks caught name ++ blockMarks templates cfg spot body ++
      if takesAll rest.isEmpty type then []
      else catchMarks cfg spot caught type ++
        if rest.isEmpty then [caughtMark cfg caught] else handlersMarks templates cfg spot caught rest

def methodsMarks (templates : Config → List Stmt → List Mark) (cfg : Config) (spot : Spot) : List Stmt → List Mark
  | [] => []
  | .functionDef p isAsync name params body ds _ :: rest =>
    let ds := if appliedAtRunTime ds then [] else ds
    functionMarks cfg spot ⟨p, isAsync, name, params, ds⟩ body
      (fun inside => blockMarks templates cfg inside body) ++ methodsMarks templates cfg spot rest
  | _ :: rest => methodsMarks templates cfg spot rest
end

/-! ### Modules -/

def bodyMarks (templates : Config → List Stmt → List Mark) (cfg : Config) (spot : Spot)
    (body : List Stmt) : List Mark :=
  declarationMarks body ++ blockMarks templates cfg spot body

def templateMarks (cfg : Config) (body : List Stmt) : List Mark :=
  bodyMarks (fun _ _ => []) cfg .top body

def libraryMarks (cfg : Config) (fs : List Snippet) : List Mark :=
  bodyMarks templateMarks { cfg with remap := none, snippets := false, mapped := false } .top (librarySource fs)

def bodySpot (cfg : Config) : Stmt → Spot
  | .classDef _ _ bases .. => Spot.member (bases.head?.map (exprMarks cfg .top)) .top
  | _ => .top

def selectedMarks (cfg : Config) (bodyOnly : Bool) (body : List Stmt) : List Mark :=
  match bodyOnly, body with
  | true, [s] =>
    match s.body? with
    | none => bodyMarks templateMarks cfg .top body
    | some inner =>
      match inner.getLast? with
      | some (.ret ..) => bodyMarks templateMarks cfg (bodySpot cfg s) inner.dropLast
      | _ => bodyMarks templateMarks cfg (bodySpot cfg s) inner
  | _, _ => bodyMarks templateMarks cfg .top body

def sourceMarks (r : Request) (body : List Stmt) : List Mark :=
  selectedMarks (.standard r.es6 r.stage3) r.bodyOnly body

end Transpiler.Compile
