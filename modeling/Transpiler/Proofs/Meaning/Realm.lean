import Transpiler.Proofs.Meaning.Basic
import Transpiler.Script.Tree
import Mathlib.Control.Monad.Basic

/-!
# Functions on classes

An evaluator of functions that work on classes and their members. It runs on a `Realm`, of which only that is known
which classes, members and decorators can do; what they do is left open. An array is folded from its first element
on (`evalDatum`), and a loop over the keys of an object takes them in the order in which they are written, since
none of them is an index.
-/

namespace Transpiler.Meaning

open Script (Declarer Js Origin)

/-! ### Realms -/

abbrev Act (σ : Type) : Type → Type :=
  StateT σ Option

def Act.of {σ α : Type} (a : Option α) : Act σ α :=
  StateT.lift a

@[simp]
theorem Act.of_some {σ α : Type} (a : α) : (Act.of (some a) : Act σ α) = pure a := by
  rfl

theorem Act.bind_of_eq_some {σ α β : Type} {x : Act σ α} {f : α → Act σ β} {a : α} {s s' : σ}
    (h : x s = some (a, s')) : (x >>= f) s = f a s' := by
  show (x s >>= fun p => f p.1 p.2) = _
  rw [h]
  rfl

theorem Act.bind_congr {σ α β : Type} {x : Act σ α} {f g : α → Act σ β} {s : σ}
    (h : ∀ a s', x s = some (a, s') → f a s' = g a s') : (x >>= f) s = (x >>= g) s := by
  show (x s >>= fun p => f p.1 p.2) = (x s >>= fun p => g p.1 p.2)
  cases hx : x s with
  | none => rfl
  | some p => exact h p.1 p.2 hx

theorem Act.bind_eq_some {σ α β : Type} {x : Act σ α} {f : α → Act σ β} {b : β} {s s'' : σ} :
    (x >>= f) s = some (b, s'') ↔ ∃ a s', x s = some (a, s') ∧ f a s' = some (b, s'') := by
  show (x s >>= fun p => f p.1 p.2) = _ ↔ _
  rw [Option.bind_eq_bind, Option.bind_eq_some_iff, Prod.exists]

theorem Act.forall₂_of_mapM {σ α β : Type} {f : α → Act σ β} {as : List α} {bs : List β} {s s' : σ}
    (h : as.mapM f s = some (bs, s')) : List.Forall₂ (fun a b => ∃ t t', f a t = some (b, t')) as bs := by
  induction as generalizing s bs with
  | nil =>
    cases h
    exact .nil
  | cons _ _ ih =>
    rw [List.mapM_cons] at h
    obtain ⟨_, t, hb, h⟩ := Act.bind_eq_some.mp h
    obtain ⟨_, _, hothers, h⟩ := Act.bind_eq_some.mp h
    cases h
    exact .cons ⟨s, t, hb⟩ (ih hothers)

theorem Act.forM_congr {σ α : Type} {f g : α → Act σ Unit} {as : List α} (h : ∀ a ∈ as, f a = g a) :
    as.forM f = as.forM g := by
  induction as with
  | nil => rfl
  | cons _ _ ih =>
    rw [List.forall_mem_cons] at h
    rw [List.forM, List.forM, h.1, ih h.2]

def Act.anyOf {σ : Type} (tests : List (Act σ Bool)) : Act σ Bool :=
  tests.foldr orM (pure false)

/-- The values that are told apart: objects, keys, arrays of objects, objects whose fields are such arrays, and the
object with the members of a class. -/
inductive Datum (ν : Type) where
  | object (v : ν)
  | key (k : String)
  | array (vs : List ν)
  | table (rows : List (String × List ν))
  | members (cls : ν)

namespace Datum

variable {ν : Type}

def object? : Datum ν → Option ν
  | object v => some v
  | _ => none

def key? : Datum ν → Option String
  | key k => some k
  | _ => none

def array? : Datum ν → Option (List ν)
  | array vs => some vs
  | _ => none

def table? : Datum ν → Option (List (String × List ν))
  | table rows => some rows
  | _ => none

def members? : Datum ν → Option ν
  | members cls => some cls
  | _ => none

end Datum

structure Realm (σ ν : Type) where
  /-- The value of an expression that is not looked into. -/
  eval : Js → Act σ ν
  call : ν → List (Datum ν) → Act σ ν
  member : ν → String → Act σ ν
  setMember : ν → String → ν → Act σ Unit
  removeMember : ν → String → Act σ Unit
  defineMember : ν → String → ν → Act σ Unit
  isInstance : ν → String → Act σ Bool
  hasField : ν → String → Act σ Bool
  /-- Assigns a value, or exports it if there is nothing to assign to. -/
  deliver : Option Js → ν → Act σ Unit

variable {σ ν : Type}

/-! ### Expressions -/

/-- The variables of a function, and the functions that it declares. Those are called in the scope that declares them,
so they find its variables as they are at the call. -/
structure Scope (σ ν : Type) where
  vars : Env (Datum ν)
  functions : Env (Env (Datum ν) → List (Datum ν) → Act σ (Option ν))

def Scope.set (r : Scope σ ν) (x : String) (d : Datum ν) : Scope σ ν :=
  { r with vars := r.vars.set x d }

@[simp]
theorem Scope.vars_set_self (r : Scope σ ν) (x : String) (d : Datum ν) : (r.set x d).vars x = some d :=
  r.vars.set_self x d

theorem Scope.vars_set_of_ne (r : Scope σ ν) {x y : String} (d : Datum ν) (h : y ≠ x) : (r.set x d).vars y = r.vars y :=
  r.vars.set_of_ne d h

def Scope.define (r : Scope σ ν) (f : String) (meaning : Env (Datum ν) → List (Datum ν) → Act σ (Option ν)) :
    Scope σ ν :=
  { r with functions := r.functions.set f meaning }

namespace Realm

variable (m : Realm σ ν)

def field : Datum ν → Datum ν → Act σ (Datum ν)
  | .members cls, .key k => Datum.object <$> m.member cls k
  | .table rows, .key k => Datum.array <$> Act.of (rows.lookup k)
  | _, _ => failure

mutual
def evalDatum (r : Scope σ ν) : Js → Act σ (Datum ν)
  | .name _ (.text x) => .of (r.vars x)
  | .dot _ obj "prototype" => do return .members (← .of (← evalDatum r obj).object?)
  | .subscript _ obj key => do
    let obj ← evalDatum r obj
    m.field obj (← evalDatum r key)
  | .call _ "" (.dot _ array "reduce") [.name _ (.text f), start] _ => do
    let vs ← .of (← evalDatum r array).array?
    let f ← .of (r.functions f)
    let start ← .of (← evalDatum r start).object?
    Datum.object <$> vs.foldlM (fun v d => do .of (← f r.vars [.object v, .object d])) start
  | .call _ "" (.name _ (.text f)) args _ => do
    let f ← .of ((r.vars f).bind Datum.object?)
    Datum.object <$> m.call f (← evalData r args)
  | _ => failure

def evalData (r : Scope σ ν) : List Js → Act σ (List (Datum ν))
  | [] => pure []
  | e :: es => do
    let d ← evalDatum r e
    return d :: (← evalData r es)
end

def evalRelation (r : Scope σ ν) (op left right : Js) : Act σ Bool :=
  match op, left, right with
  | .op _ .instanceOf, left, .name _ (.text cls) => do
    m.isInstance (← .of (← m.evalDatum r left).object?) cls
  | .op _ .isIn, .json _ (.str field), right => do
    m.hasField (← .of (← m.evalDatum r right).object?) field
  | _, _, _ => failure

def evalTest (r : Scope σ ν) : Js → Act σ Bool
  | .binOp _ left (.op _ .and) right => evalTest r left <&&> evalTest r right
  | .binOp _ left (.op _ .or) right => evalTest r left <||> evalTest r right
  | .unaryOp _ (.op _ .not) e => notM (evalTest r e)
  | .binOp _ left op right => m.evalRelation r op left right
  | .tests _ (.op _ .or) ops lefts rights =>
    .anyOf ((ops.zip (lefts.zip rights)).map fun (op, left, right) => m.evalRelation r op left right)
  | .call _ "" (.dot _ obj "hasOwnProperty") [key] _ => do
    let rows ← .of (← m.evalDatum r obj).table?
    let k ← .of (← m.evalDatum r key).key?
    -- a field of that name hides the method
    if (rows.lookup "hasOwnProperty").isSome then failure
    return (rows.lookup k).isSome
  | _ => failure

end Realm

/-! ### Statements -/

/-- What running a statement comes to: the next statement is run, or a value is returned. -/
inductive Flow (σ ν : Type) where
  | on (r : Scope σ ν)
  | out (d : Datum ν)

def Flow.andThen (f : Flow σ ν) (step : Scope σ ν → Act σ (Flow σ ν)) : Act σ (Flow σ ν) :=
  match f with
  | .on r => step r
  | .out d => pure (.out d)

def Flow.result : Flow σ ν → Act σ (Option ν)
  | .on _ => pure none
  | .out (.object v) => pure (some v)
  | .out _ => failure

def eachKey (x : String) (turn : Scope σ ν → Act σ (Flow σ ν)) : List String → Scope σ ν → Act σ (Flow σ ν)
  | [], r => pure (.on r)
  | k :: ks, r => do (← turn (r.set x (.key k))).andThen (eachKey x turn ks)

def paramNames (params : List Js) : List String :=
  params.filterMap fun
    | .text x => some x
    | _ => none

namespace Realm

variable (m : Realm σ ν)

def declareVars : List String → List Js → Scope σ ν → Act σ (Scope σ ν)
  | x :: xs, e :: es, r =>
    if e.isAbsent then declareVars xs es r
    else do declareVars xs es (r.set x (← m.evalDatum r e))
  | _, _, r => pure r

mutual
def exec : Js → Scope σ ν → Act σ (Flow σ ν)
  | .pass _, r => pure (.on r)
  | .exprStmt _ e, r => exec e r
  | .declare _ _ _ keys values, r => .on <$> m.declareVars keys values r
  | .assign _ (.name _ (.text x)) e, r => do return .on (r.set x (← m.evalDatum r e))
  | .assign _ (.subscript _ obj key) e, r => do
    let cls ← .of (← m.evalDatum r obj).members?
    let k ← .of (← m.evalDatum r key).key?
    m.setMember cls k (← .of (← m.evalDatum r e).object?)
    return .on r
  | .command _ .delete (.subscript _ obj key), r => do
    let cls ← .of (← m.evalDatum r obj).members?
    m.removeMember cls (← .of (← m.evalDatum r key).key?)
    return .on r
  | .call _ "" (.dot _ (.name _ (.text "Object")) "defineProperty") [obj, key, e] _, r => do
    let cls ← .of (← m.evalDatum r obj).members?
    let k ← .of (← m.evalDatum r key).key?
    m.defineMember cls k (← .of (← m.evalDatum r e).object?)
    return .on r
  | .func _ .plain (some f) params body _ _, r =>
    pure (.on (r.define f fun vars args =>
      execAll body ⟨.bind (paramNames params) args vars, r.functions⟩ >>= Flow.result))
  | .ifStmt _ test body orelse, r => do
    if ← m.evalTest r test then execAll body r else execAll orelse r
  | .forEach _ .keys (.text x) source body, r => do
    let rows ← .of (← m.evalDatum r source).table?
    eachKey x (execAll body) (rows.map (·.1)) r
  | .statements _ items, r => execAll items r
  | .ret _ e, r => .out <$> m.evalDatum r e
  | _, _ => failure

def execAll : List Js → Scope σ ν → Act σ (Flow σ ν)
  | [], r => pure (.on r)
  | j :: js, r => do (← exec j r).andThen (execAll js)
end

def callFunction (f : Js) (args : List (Datum ν)) : Act σ (Option ν) :=
  match f with
  | .func _ .plain _ params body _ _ =>
    m.execAll body ⟨.bind (paramNames params) args .empty, .empty⟩ >>= Flow.result
  | _ => failure

end Realm

section

variable (m : Realm σ ν) {j : Js} {js : List Js} {r : Scope σ ν}

theorem Flow.andThen_on (f : Flow σ ν) : (f.andThen fun r => pure (.on r)) = pure f := by
  cases f <;> rfl

theorem execAll_nil : m.execAll [] = fun r => pure (.on r) := by
  funext r
  rw [Realm.execAll]

theorem execAll_cons_of_on {r' : Scope σ ν} (h : m.exec j r = pure (.on r')) :
    m.execAll (j :: js) r = m.execAll js r' := by
  rw [Realm.execAll, h, pure_bind, Flow.andThen]

theorem execAll_singleton : m.execAll [j] r = m.exec j r := by
  rw [Realm.execAll, execAll_nil]
  simp [Flow.andThen_on]

theorem exec_statements (o : Origin) : m.exec (.statements o js) r = m.execAll js r := by
  rw [Realm.exec]

theorem declareVars_absent (vars : List String) : m.declareVars vars (vars.map fun _ => .absent) r = pure r := by
  induction vars with
  | nil => rfl
  | cons _ _ ih => exact ih

theorem exec_declare_absent (o : Origin) (d : Declarer) (movable : Bool) (vars : List String) :
    m.exec (.declare o d movable vars (vars.map fun _ => .absent)) r = pure (.on r) := by
  rw [Realm.exec, declareVars_absent, map_pure]

end

end Transpiler.Meaning
