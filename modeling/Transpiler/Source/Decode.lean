import Transpiler.Json.Basic
import Transpiler.Source.Stmt

/-!
# Syntax trees from JSON

A syntax tree is exchanged as JSON: a node is an object with its kind under `t`, its place under
`p` as a pair of line and column, and its fields under their own names. A field that is missing or
`null` is an absent part. A constant has its type under `k` and its value under `v`.
-/

namespace Transpiler.Source

open Transpiler (Json)

def posOfJson (j : Json) : At :=
  match j.getD "p" with
  | .arr [.int line, .int col] => some ⟨line, col⟩
  | _ => none

def textOf (key : String) (j : Json) : String :=
  ((j.getD key).str?).getD ""

def kindOf (j : Json) : String :=
  textOf "t" j

def Constant.ofJson (j : Json) : Constant :=
  match textOf "k" j, j.getD "v" with
  | "str", .str s => .str s
  | "bool", .bool b => .bool b
  | "None", _ => .none
  | "Ellipsis", _ => .ellipsis
  | "bytes", _ => .bytes
  | _, .str digits => .number digits
  | _, .int n => .number (toString n)
  | _, _ => .none

def BoolOp.ofJson? (j : Json) : Option BoolOp :=
  [BoolOp.and, .or].find? (·.kind == kindOf j)

def BinOp.ofJson? (j : Json) : Option BinOp :=
  [BinOp.add, .sub, .mult, .matMult, .div, .mod, .pow, .lShift, .rShift, .bitOr, .bitXor, .bitAnd,
    .floorDiv].find? (·.kind == kindOf j)

def UnaryOp.ofJson? (j : Json) : Option UnaryOp :=
  [UnaryOp.invert, .not, .uAdd, .uSub].find? (·.kind == kindOf j)

def CmpOp.ofJson? (j : Json) : Option CmpOp :=
  [CmpOp.eq, .notEq, .lt, .ltE, .gt, .gtE, .is, .isNot, .isIn, .notIn].find? (·.kind == kindOf j)

def Binder.ofJson (j : Json) : Binder :=
  ⟨posOfJson j, textOf "arg" j⟩

def optional (f : Json → α) (j : Json) : Option α :=
  if j.isNull then none else some (f j)

def Binders.ofJson (j : Json) : Binders where
  posOnly := (j.getD "posonlyargs").items.map Binder.ofJson
  args := (j.getD "args").items.map Binder.ofJson
  vararg := optional Binder.ofJson (j.getD "vararg")
  kwOnly := (j.getD "kwonlyargs").items.map Binder.ofJson
  kwarg := optional Binder.ofJson (j.getD "kwarg")

def Expr.decode? : Nat → Json → Option Expr
  | 0, _ => none
  | fuel + 1, j => do
    if j.isNull then return .absent
    let p := posOfJson j
    let sub (key : String) := Expr.decode? fuel (j.getD key)
    let subs (key : String) := (j.getD key).items.mapM (Expr.decode? fuel)
    let keywords := (j.getD "keywords").items.mapM fun k => do
      return Keyword.mk (posOfJson k) (k.getD "arg").str? (← Expr.decode? fuel (k.getD "value"))
    let generators := (j.getD "generators").items.mapM fun g => do
      return Generator.mk (← Expr.decode? fuel (g.getD "target"))
        (← Expr.decode? fuel (g.getD "iter")) (← (g.getD "ifs").items.mapM (Expr.decode? fuel))
    match kindOf j with
    | "Name" => return .name p (textOf "id" j)
    | "Constant" => return .constant p (Constant.ofJson j)
    | "Attribute" => return .attr p (← sub "value") (textOf "attr" j)
    | "Subscript" => return .subscript p (← sub "value") (← sub "slice")
    | "Call" => return .call p (← sub "func") (← subs "args") (← keywords)
    | "BoolOp" => return .boolOp p (← BoolOp.ofJson? (j.getD "op")) (← subs "values")
    | "BinOp" => return .binOp p (← sub "left") (← BinOp.ofJson? (j.getD "op")) (← sub "right")
    | "UnaryOp" => return .unaryOp p (← UnaryOp.ofJson? (j.getD "op")) (← sub "operand")
    | "Compare" =>
      return .compare p (← sub "left") (← (j.getD "ops").items.mapM CmpOp.ofJson?)
        (← subs "comparators")
    | "IfExp" => return .ifExp p (← sub "test") (← sub "body") (← sub "orelse")
    | "Lambda" =>
      let args := j.getD "args"
      return .lambda p (Binders.ofJson args) (← (args.getD "kw_defaults").items.mapM (Expr.decode? fuel))
        (← (args.getD "defaults").items.mapM (Expr.decode? fuel)) (← sub "body")
    | "List" => return .list p (← subs "elts")
    | "Tuple" => return .tuple p (← subs "elts")
    | "Set" => return .set p (← subs "elts")
    | "Dict" => return .dict p (← subs "keys") (← subs "values")
    | "ListComp" => return .listComp p (← sub "elt") (← generators)
    | "SetComp" => return .setComp p (← sub "elt") (← generators)
    | "GeneratorExp" => return .generatorExp p (← sub "elt") (← generators)
    | "DictComp" => return .dictComp p (← sub "key") (← sub "value") (← generators)
    | "Await" => return .await p (← sub "value")
    | "Yield" => return .yield p (← sub "value")
    | "YieldFrom" => return .yieldFrom p (← sub "value")
    | "Starred" => return .starred p (← sub "value")
    | "NamedExpr" => return .namedExpr p (← sub "target") (← sub "value")
    | "JoinedStr" => return .joinedStr p (← subs "values")
    | "FormattedValue" =>
      return .formattedValue p (← sub "value") ((j.getD "conversion").int?.getD 0)
        (← sub "format_spec")
    | "Slice" => return .slice p (← sub "lower") (← sub "upper") (← sub "step")
    | "Index" => return .index (← sub "value")
    | "ExtSlice" => return .extSlice (← subs "dims")
    | _ => none

def Expr.ofJson? (j : Json) : Option Expr :=
  Expr.decode? (j.depth + 1) j

def exprsOf? (key : String) (j : Json) : Option (List Expr) :=
  (j.getD key).items.mapM Expr.ofJson?

def Param.ofJson? (j : Json) : Option Param := do
  return ⟨posOfJson j, textOf "arg" j, ← Expr.ofJson? (j.getD "annotation")⟩

def optionalParam? (j : Json) : Option (Option Param) :=
  if j.isNull then some none else (Param.ofJson? j).map some

def Params.ofJson? (j : Json) : Option Params := do
  return {
    posOnly := ← (j.getD "posonlyargs").items.mapM Param.ofJson?
    args := ← (j.getD "args").items.mapM Param.ofJson?
    vararg := ← optionalParam? (j.getD "vararg")
    kwOnly := ← (j.getD "kwonlyargs").items.mapM Param.ofJson?
    kwDefaults := ← exprsOf? "kw_defaults" j
    kwarg := ← optionalParam? (j.getD "kwarg")
    defaults := ← exprsOf? "defaults" j }

def Alias.ofJson (j : Json) : Alias :=
  ⟨posOfJson j, textOf "name" j, (j.getD "asname").str?⟩

def Keyword.ofJson? (j : Json) : Option Keyword := do
  return .mk (posOfJson j) (j.getD "arg").str? (← Expr.ofJson? (j.getD "value"))

def WithItem.ofJson? (j : Json) : Option WithItem := do
  return ⟨← Expr.ofJson? (j.getD "context_expr"), ← Expr.ofJson? (j.getD "optional_vars")⟩

def Stmt.decode? : Nat → Json → Option Stmt
  | 0, _ => none
  | fuel + 1, j => do
    let p := posOfJson j
    let sub (key : String) := Expr.ofJson? (j.getD key)
    let block (key : String) := (j.getD key).items.mapM (Stmt.decode? fuel)
    let handlers := (j.getD "handlers").items.mapM fun h => do
      return Handler.mk (posOfJson h) (← Expr.ofJson? (h.getD "type")) (h.getD "name").str?
        (← (h.getD "body").items.mapM (Stmt.decode? fuel))
    let cases := (j.getD "cases").items.mapM fun c => do
      let pattern := c.getD "pattern"
      return MatchCase.mk (posOfJson pattern) (← Expr.ofJson? (pattern.getD "value"))
        (← Expr.ofJson? (c.getD "guard")) (← (c.getD "body").items.mapM (Stmt.decode? fuel))
    let names := (j.getD "names").items.map Alias.ofJson
    let idents := (j.getD "names").items.filterMap Json.str?
    let kind := kindOf j
    match kind with
    | "FunctionDef" | "AsyncFunctionDef" =>
      return .functionDef p (kind == "AsyncFunctionDef") (textOf "name" j)
        (← Params.ofJson? (j.getD "args")) (← block "body") (← exprsOf? "decorator_list" j)
        (← sub "returns")
    | "ClassDef" =>
      return .classDef p (textOf "name" j) (← exprsOf? "bases" j)
        (← (j.getD "keywords").items.mapM Keyword.ofJson?) (← block "body")
        (← exprsOf? "decorator_list" j)
    | "Return" => return .ret p (← sub "value")
    | "Delete" => return .delete p (← exprsOf? "targets" j)
    | "Assign" => return .assign p (← exprsOf? "targets" j) (← sub "value")
    | "AugAssign" =>
      return .augAssign p (← sub "target") (← BinOp.ofJson? (j.getD "op")) (← sub "value")
    | "AnnAssign" =>
      return .annAssign p (← sub "target") (← sub "annotation") (← sub "value")
    | "For" | "AsyncFor" =>
      return .forLoop p (kind == "AsyncFor") (← sub "target") (← sub "iter") (← block "body")
        (← block "orelse")
    | "While" => return .whileLoop p (← sub "test") (← block "body") (← block "orelse")
    | "If" => return .ifElse p (← sub "test") (← block "body") (← block "orelse")
    | "With" | "AsyncWith" =>
      return .withBlock p (kind == "AsyncWith") (← (j.getD "items").items.mapM WithItem.ofJson?)
        (← block "body")
    | "Raise" => return .raise p (← sub "exc") (← sub "cause")
    | "Try" | "TryStar" =>
      return .tryBlock p (kind == "TryStar") (← block "body") (← handlers) (← block "orelse")
        (← block "finalbody")
    | "Assert" => return .assertion p (← sub "test") (← sub "msg")
    | "Import" => return .importNames p names
    | "ImportFrom" =>
      return .importFrom p (j.getD "module").str? names (j.getD "level").int?
    | "Global" => return .global p idents
    | "Nonlocal" => return .nonlocal p idents
    | "Expr" => return .expr p (← sub "value")
    | "Pass" => return .pass p
    | "Break" => return .breakLoop p
    | "Continue" => return .continueLoop p
    | "Match" => return .matchBlock p (← sub "subject") (← cases)
    | _ => return .bare (← Expr.ofJson? j)

def Stmt.ofJson? (j : Json) : Option Stmt :=
  Stmt.decode? (j.depth + 1) j

def moduleOfJson? (j : Json) : Option (List Stmt) :=
  (j.getD "body").items.mapM Stmt.ofJson?

end Transpiler.Source
