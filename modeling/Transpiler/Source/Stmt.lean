import Transpiler.Source.Expr

/-!
# Python statements

The syntax trees of Python statements. A module is the list of its statements.
-/

namespace Transpiler.Source

structure Param where
  pos : At
  name : String
  annotation : Expr
  deriving Inhabited

/-- The parameters of a function. The defaults belong to the last of `posOnly ++ args`; there is
one keyword default, maybe absent, for each of `kwOnly`. -/
structure Params where
  posOnly : List Param
  args : List Param
  vararg : Option Param
  kwOnly : List Param
  kwDefaults : List Expr
  kwarg : Option Param
  defaults : List Expr
  deriving Inhabited

structure Alias where
  pos : At
  name : String
  asName : Option String
  deriving Inhabited, Repr, DecidableEq

/-- A context manager of a `with` statement, and what it is bound to. -/
structure WithItem where
  context : Expr
  target : Expr
  deriving Inhabited

mutual
inductive Stmt where
  | functionDef (p : At) (isAsync : Bool) (name : String) (params : Params) (body : List Stmt)
      (decorators : List Expr) (returns : Expr)
  | classDef (p : At) (name : String) (bases : List Expr) (keywords : List Keyword)
      (body : List Stmt) (decorators : List Expr)
  | ret (p : At) (value : Expr)
  | delete (p : At) (targets : List Expr)
  | assign (p : At) (targets : List Expr) (value : Expr)
  | augAssign (p : At) (target : Expr) (op : BinOp) (value : Expr)
  | annAssign (p : At) (target annotation value : Expr)
  | forLoop (p : At) (isAsync : Bool) (target iter : Expr) (body orelse : List Stmt)
  | whileLoop (p : At) (test : Expr) (body orelse : List Stmt)
  | ifElse (p : At) (test : Expr) (body orelse : List Stmt)
  | withBlock (p : At) (isAsync : Bool) (items : List WithItem) (body : List Stmt)
  | raise (p : At) (exc cause : Expr)
  | tryBlock (p : At) (star : Bool) (body : List Stmt) (handlers : List Handler)
      (orelse finalbody : List Stmt)
  | assertion (p : At) (test msg : Expr)
  | importNames (p : At) (names : List Alias)
  | importFrom (p : At) (module : Option String) (names : List Alias) (level : Option Int)
  | global (p : At) (names : List String)
  | nonlocal (p : At) (names : List String)
  | expr (p : At) (value : Expr)
  | pass (p : At)
  | breakLoop (p : At)
  | continueLoop (p : At)
  | matchBlock (p : At) (subject : Expr) (cases : List MatchCase)
  /-- An expression that stands where a statement is expected, without the node of an expression
  statement around it. -/
  | bare (e : Expr)

inductive Handler where
  | mk (p : At) (type : Expr) (name : Option String) (body : List Stmt)

inductive MatchCase where
  | mk (p : At) (value guard : Expr) (body : List Stmt)
end

instance : Inhabited Stmt := ⟨.pass none⟩

instance : Inhabited Handler := ⟨.mk none .absent none []⟩

instance : Inhabited MatchCase := ⟨.mk none .absent .absent []⟩

def Handler.type : Handler → Expr
  | .mk _ type _ _ => type

def Handler.name : Handler → Option String
  | .mk _ _ name _ => name

def Handler.body : Handler → List Stmt
  | .mk _ _ _ body => body

namespace Stmt

def pos : Stmt → At
  | functionDef p .. | classDef p .. | ret p _ | delete p _ | assign p _ _ | augAssign p _ _ _
  | annAssign p _ _ _ | forLoop p _ _ _ _ _ | whileLoop p _ _ _ | ifElse p _ _ _
  | withBlock p _ _ _ | raise p _ _ | tryBlock p _ _ _ _ _ | assertion p _ _ | importNames p _
  | importFrom p _ _ _ | global p _ | nonlocal p _ | expr p _ | pass p | breakLoop p | continueLoop p
  | matchBlock p _ _ => p
  | bare e => e.pos

def kind : Stmt → String
  | functionDef _ isAsync .. => if isAsync then "AsyncFunctionDef" else "FunctionDef"
  | classDef .. => "ClassDef"
  | ret .. => "Return"
  | delete .. => "Delete"
  | assign .. => "Assign"
  | augAssign .. => "AugAssign"
  | annAssign .. => "AnnAssign"
  | forLoop _ isAsync .. => if isAsync then "AsyncFor" else "For"
  | whileLoop .. => "While"
  | ifElse .. => "If"
  | withBlock _ isAsync .. => if isAsync then "AsyncWith" else "With"
  | raise .. => "Raise"
  | tryBlock _ star .. => if star then "TryStar" else "Try"
  | assertion .. => "Assert"
  | importNames .. => "Import"
  | importFrom .. => "ImportFrom"
  | global .. => "Global"
  | nonlocal .. => "Nonlocal"
  | expr .. => "Expr"
  | pass .. => "Pass"
  | breakLoop .. => "Break"
  | continueLoop .. => "Continue"
  | matchBlock .. => "Match"
  | bare e => e.kind

def decorators : Stmt → List Expr
  | functionDef _ _ _ _ _ ds _ => ds
  | classDef _ _ _ _ _ ds => ds
  | _ => []

/-- The statements a compound statement opens with, where it has such a list. -/
def body? : Stmt → Option (List Stmt)
  | functionDef _ _ _ _ body _ _ => some body
  | classDef _ _ _ _ body _ => some body
  | forLoop _ _ _ _ body _ => some body
  | whileLoop _ _ body _ => some body
  | ifElse _ _ body _ => some body
  | withBlock _ _ _ body => some body
  | tryBlock _ _ body _ _ _ => some body
  | _ => none

end Stmt

end Transpiler.Source
