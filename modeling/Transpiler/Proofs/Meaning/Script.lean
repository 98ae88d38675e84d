import Transpiler.Proofs.Meaning.Basic
import Transpiler.Script.Tree

/-!
# The meaning of scripts

An evaluator of the trees that the imperative core is compiled to. Numbers are integers. The
variables that are declared anywhere in a function exist from its start (`varNames`), without a value;
assigning to any other variable is an error. A block is run in the order in which it is written.
A script declares functions, and one of them is called with arguments (`callScript`).
-/

namespace Transpiler.Meaning

open Script (Js Operator Slot arrange)

inductive JsValue where
  | undefined
  | number (n : Int)
  | boolean (b : Bool)
  | array (ns : List Int)
  deriving Repr, DecidableEq

namespace JsValue

def number? : JsValue → Option Int
  | number n => some n
  | _ => none

def boolean? : JsValue → Option Bool
  | boolean b => some b
  | _ => none

def array? : JsValue → Option (List Int)
  | array ns => some ns
  | _ => none

def element (ns : List Int) (index : Int) : JsValue :=
  if index < 0 then undefined
  else match ns[index.toNat]? with
    | some n => number n
    | none => undefined

end JsValue

open JsValue

def applyOperator? : Operator → Option (Int → Int → JsValue)
  | .add => some fun a b => number (a + b)
  | .sub => some fun a b => number (a - b)
  | .mult => some fun a b => number (a * b)
  | .strongEq => some fun a b => boolean (a == b)
  | .strongNotEq => some fun a b => boolean (a != b)
  | .lt => some fun a b => boolean (a < b)
  | .ltE => some fun a b => boolean (a ≤ b)
  | .gt => some fun a b => boolean (a > b)
  | .gtE => some fun a b => boolean (a ≥ b)
  | _ => none

/-- The value of an expression. The second operand of `&&` and `||` is evaluated only if the first
does not decide. -/
@[simp]
def evalJs (σ : Env JsValue) : Js → Option JsValue
  | .num _ digits => (decimal? digits).map fun n : Nat => number n
  | .atom _ .true => some (boolean true)
  | .atom _ .false => some (boolean false)
  | .name _ (.text x) => σ x
  | .unaryOp _ (.op _ .neg) e => do
    let n ← (← evalJs σ e).number?
    return number (-n)
  | .unaryOp _ (.op _ .not) e => do
    let b ← (← evalJs σ e).boolean?
    return boolean (!b)
  | .binOp _ left (.op _ .and) right => do
    let b ← (← evalJs σ left).boolean?
    if b then evalJs σ right else return boolean false
  | .binOp _ left (.op _ .or) right => do
    let b ← (← evalJs σ left).boolean?
    if b then return boolean true else evalJs σ right
  | .binOp _ left (.op _ s) right => do
    let f ← applyOperator? s
    let a ← (← evalJs σ left).number?
    let b ← (← evalJs σ right).number?
    return f a b
  | .ifExp _ test body orelse => do
    let b ← (← evalJs σ test).boolean?
    if b then evalJs σ body else evalJs σ orelse
  | .dot _ obj "length" => do
    let ns ← (← evalJs σ obj).array?
    return number ns.length
  | .subscript _ obj key => do
    let ns ← (← evalJs σ obj).array?
    let index ← (← evalJs σ key).number?
    return element ns index
  | _ => none

def evalNumber (σ : Env JsValue) (e : Js) : Option Int :=
  (evalJs σ e).bind number?

def evalBoolean (σ : Env JsValue) (e : Js) : Option Bool :=
  (evalJs σ e).bind boolean?

def assignJs (σ : Env JsValue) (x : String) (value : Option JsValue) : Outcome (Env JsValue) JsValue :=
  match σ x, value with
  | some _, some v => .done (σ.set x v)
  | _, _ => .failed

def initialise : List String → List Js → Env JsValue → Outcome (Env JsValue) JsValue
  | x :: xs, e :: es, σ =>
    if e.isAbsent then initialise xs es σ
    else (assignJs σ x (evalJs σ e)).andThen (initialise xs es)
  | _, _, σ => .done σ

def inSequence {σ α : Type} : List (σ → Outcome σ α) → σ → Outcome σ α
  | [], s => .done s
  | step :: rest, s => (step s).andThen (inSequence rest)

mutual
@[simp]
def execJs (fuel : Nat) : Js → Env JsValue → Outcome (Env JsValue) JsValue
  | .exprStmt _ e, σ => execJs fuel e σ
  | .assign _ (.name _ (.text x)) e, σ => assignJs σ x (evalJs σ e)
  | .augAssign _ (.name _ (.text x)) (.op _ s) e, σ => assignJs σ x do
    let f ← applyOperator? s
    let a ← (← σ x).number?
    let b ← evalNumber σ e
    return f a b
  | .declare _ .var _ keys values, σ => initialise keys values σ
  | .ifStmt _ test body orelse, σ =>
    .ofTest (evalBoolean σ test) (inSequence (execEach fuel body) σ) (inSequence (execEach fuel orelse) σ)
  | .whileStmt _ test body, σ =>
    .whileTrue (evalBoolean · test) (inSequence (execEach fuel body)) .done fuel σ
  | .forStmt _ left test right body, σ =>
    (execJs fuel left σ).andThen
      (.whileTrue (evalBoolean · test) (inSequence (execEach fuel body)) (execJs fuel right) fuel)
  | .statements _ items, σ => inSequence (arrange (execSlots fuel items)) σ
  | .jump _ .leave, σ => .leave σ
  | .jump _ .next, σ => .next σ
  | .pass _, σ | .comment _ _, σ => .done σ
  | .ret _ e, σ =>
    if e.isAbsent then .returned undefined
    else match evalJs σ e with
      | some v => .returned v
      | none => .failed
  | _, _ => .failed

@[simp]
def execEach (fuel : Nat) : List Js → List (Env JsValue → Outcome (Env JsValue) JsValue)
  | [] => []
  | j :: rest => execJs fuel j :: execEach fuel rest

/-- The steps that run the statements of a block, with the places of these in the block. A block
directly inside another is part of it. -/
@[simp]
def execSlots (fuel : Nat) : List Js → List (Slot × (Env JsValue → Outcome (Env JsValue) JsValue))
  | [] => []
  | .statements _ inner :: rest => execSlotsEach fuel inner ++ execSlots fuel rest
  | j :: rest => (j.slot, execJs fuel j) :: execSlots fuel rest

@[simp]
def execSlotsEach (fuel : Nat) : List Js → List (Slot × (Env JsValue → Outcome (Env JsValue) JsValue))
  | [] => []
  | j :: rest => (j.slot, execJs fuel j) :: execSlotsEach fuel rest
end

mutual
def varNames : Js → List String
  | .declare _ .var _ keys _ => keys
  | .ifStmt _ _ body orelse => varNamesAll body ++ varNamesAll orelse
  | .whileStmt _ _ body => varNamesAll body
  | .forStmt _ left _ _ body => varNames left ++ varNamesAll body
  | .statements _ items => varNamesAll items
  | _ => []

def varNamesAll : List Js → List String
  | [] => []
  | j :: rest => varNames j ++ varNamesAll rest
end

def declareAll (names : List String) (σ : Env JsValue) : Env JsValue :=
  fun x => (σ x).or (if names.contains x then some undefined else none)

def plainParams? : List Js → Option (List String)
  | [] => some []
  | .text x :: rest => (plainParams? rest).map (x :: ·)
  | _ => none

def function? (name : String) : Js → Option (List Js × List Js)
  | .statements _ items => items.reverse.findSome? fun
    | .func _ .plain (some found) params body (.bare .none) [] =>
      if found = name then some (params, body) else none
    | _ => none
  | _ => none

/-- Calls a function of a script. Further arguments are ignored, and missing ones are `undefined`. -/
def callScript (fuel : Nat) (script : Js) (name : String) (args : List JsValue) : Answer JsValue :=
  match function? name script with
  | some (params, body) =>
    match plainParams? params with
    | some names =>
      let start := declareAll (names ++ varNamesAll body) (Env.bind names args .empty)
      (inSequence (execEach fuel body) start).answer
    | none => .failed
  | none => .failed

end Transpiler.Meaning
