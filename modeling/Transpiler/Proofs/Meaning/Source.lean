import Transpiler.Proofs.Meaning.Basic
import Transpiler.Source.Stmt

/-!
# The meaning of source functions

An evaluator of the imperative core of the source language: integers, truth values and lists of
integers; assignments, branches, loops and `return`. What lies outside of the core is an error, as is
a name without a value and an operation on values of the wrong type. The body of a function is run
with its parameters bound to the arguments (`callFunction`).
-/

namespace Transpiler.Meaning

open Source (BinOp BoolOp CmpOp Expr Params Stmt)

inductive Value where
  | int (n : Int)
  | bool (b : Bool)
  | list (ns : List Int)
  deriving Repr, DecidableEq

namespace Value

def int? : Value → Option Int
  | int n => some n
  | _ => none

def bool? : Value → Option Bool
  | bool b => some b
  | _ => none

end Value

def arithmetic? : BinOp → Option (Int → Int → Int)
  | .add => some (· + ·)
  | .sub => some (· - ·)
  | .mult => some (· * ·)
  | _ => none

def comparison? : CmpOp → Option (Int → Int → Bool)
  | .eq => some (· == ·)
  | .notEq => some (· != ·)
  | .lt => some fun a b => a < b
  | .ltE => some fun a b => a ≤ b
  | .gt => some fun a b => a > b
  | .gtE => some fun a b => a ≥ b
  | _ => none

def goesOnAfter : BoolOp → Bool
  | .and => true
  | .or => false

mutual
@[simp]
def evalExpr (ρ : Env Value) : Expr → Option Value
  | .constant _ (.number digits) => (decimal? digits).map fun n : Nat => .int n
  | .constant _ (.bool b) => some (.bool b)
  | .name _ x => ρ x
  | .unaryOp _ .uSub e => do
    let n ← (← evalExpr ρ e).int?
    return .int (-n)
  | .unaryOp _ .not e => do
    let b ← (← evalExpr ρ e).bool?
    return .bool (!b)
  | .binOp _ left op right => do
    let f ← arithmetic? op
    let a ← (← evalExpr ρ left).int?
    let b ← (← evalExpr ρ right).int?
    return .int (f a b)
  | .ifExp _ test body orelse => do
    let b ← (← evalExpr ρ test).bool?
    if b then evalExpr ρ body else evalExpr ρ orelse
  | .compare _ left ops comparators => do
    let a ← (← evalExpr ρ left).int?
    let b ← evalChain ρ a ops comparators
    return .bool b
  | .boolOp _ op values => do
    let b ← evalBools ρ op values
    return .bool b
  | _ => none

@[simp]
def evalChain (ρ : Env Value) (a : Int) : List CmpOp → List Expr → Option Bool
  | [], [] => some true
  | op :: ops, e :: rest => do
    let f ← comparison? op
    let b ← (← evalExpr ρ e).int?
    if f a b then evalChain ρ b ops rest else return false
  | _, _ => none

/-- The value of operands joined by an operator. What follows the operand that decides is not
evaluated. -/
@[simp]
def evalBools (ρ : Env Value) (op : BoolOp) : List Expr → Option Bool
  | [] => some (goesOnAfter op)
  | e :: rest => do
    let b ← (← evalExpr ρ e).bool?
    if b = goesOnAfter op then evalBools ρ op rest else return b
end

def evalInt (ρ : Env Value) (e : Expr) : Option Int :=
  (evalExpr ρ e).bind Value.int?

def evalBool (ρ : Env Value) (e : Expr) : Option Bool :=
  (evalExpr ρ e).bind Value.bool?

def assignInt (ρ : Env Value) (x : String) (value : Option Int) : Outcome (Env Value) Int :=
  match value with
  | some n => .done (ρ.set x (.int n))
  | none => .failed

mutual
@[simp]
def execStmt (fuel : Nat) : Stmt → Env Value → Outcome (Env Value) Int
  | .assign _ [.name _ x] e, ρ => assignInt ρ x (evalInt ρ e)
  | .augAssign _ (.name _ x) op e, ρ => assignInt ρ x do
    let f ← arithmetic? op
    let a ← (← ρ x).int?
    let b ← evalInt ρ e
    return f a b
  | .ifElse _ test body orelse, ρ =>
    .ofTest (evalBool ρ test) (execBlock fuel body ρ) (execBlock fuel orelse ρ)
  | .whileLoop _ test body [], ρ =>
    .whileTrue (evalBool · test) (execBlock fuel body) .done fuel ρ
  | .forLoop _ false (.name _ x) (.name _ xs) body [], ρ =>
    match ρ xs with
    | some (.list ns) => .forEach (fun n ρ => execBlock fuel body (ρ.set x (.int n))) fuel ns ρ
    | _ => .failed
  | .breakLoop _, ρ => .leave ρ
  | .continueLoop _, ρ => .next ρ
  | .pass _, ρ => .done ρ
  | .ret _ e, ρ =>
    match evalInt ρ e with
    | some n => .returned n
    | none => .failed
  | _, _ => .failed

@[simp]
def execBlock (fuel : Nat) : List Stmt → Env Value → Outcome (Env Value) Int
  | [], ρ => .done ρ
  | s :: rest, ρ => (execStmt fuel s ρ).andThen (execBlock fuel rest)
end

def parameters? (ps : Params) : Option (List String) :=
  if ps.vararg.isNone && ps.kwOnly.isEmpty && ps.kwarg.isNone then
    some ((ps.posOnly ++ ps.args).map (·.name))
  else none

def callFunction (fuel : Nat) (ps : Params) (body : List Stmt) (args : List Value) : Answer Int :=
  match parameters? ps with
  | some names =>
    if names.length = args.length then
      (execBlock fuel body (Env.bind names args .empty)).answer
    else .failed
  | none => .failed

end Transpiler.Meaning
