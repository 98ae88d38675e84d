import Transpiler.Compile.Naming
import Transpiler.Proofs.Meaning.Source
import Transpiler.Script.Word

/-!
# The imperative core

Which functions make up the core whose meaning is kept: the parameters are integers or lists of
integers, the expressions are arithmetic and comparisons, and the statements assign, branch, loop and
return. All conditions can be computed. `lists` are the parameters that are lists. What the ways to
build expressions or statements of the core keep holds of all of them (`ExprClosed.integer`,
`ExprClosed.condition`, `StmtClosed.core`).
-/

namespace Transpiler.Meaning

open Source (CmpOp Expr Params Stmt)

variable {p : Source.At} {e target : Expr}

def isGenerated (x : String) : Bool :=
  "_pj_".toList.isPrefixOf x.toList

def specialNames : List String :=
  ["self", "true", "false", "null", "True", "False", "None"]

def isPlainName (x : String) : Bool :=
  Compile.normalizeName x == x && !Script.reservedWords.contains x && !specialNames.contains x && !isGenerated x

def isIntegerName (lists : List String) (x : String) : Bool :=
  isPlainName x && !lists.contains x

mutual
/-- Whether an expression is an integer expression: a numeral, a name, a negative, a sum, a
difference, a product, or a choice of these. -/
def isInteger (lists : List String) : Expr → Bool
  | .constant _ (.number digits) => (decimal? digits).isSome
  | .name _ x => isIntegerName lists x
  | .unaryOp _ op e => op == .uSub && isInteger lists e
  | .binOp _ left op right =>
    (arithmetic? op).isSome && isInteger lists left && isInteger lists right
  | .ifExp _ test body orelse =>
    isCondition lists test && isInteger lists body && isInteger lists orelse
  | _ => false

/-- Whether an expression is a condition: a truth value, a chain of comparisons of integers, or
conditions joined or negated. -/
def isCondition (lists : List String) : Expr → Bool
  | .constant _ (.bool _) => true
  | .compare _ left ops comparators =>
    ops.all (fun op => (comparison? op).isSome) && ops.length == comparators.length &&
      isInteger lists left && areIntegers lists comparators
  | .boolOp _ _ values => areConditions lists values
  | .unaryOp _ op e => op == .not && isCondition lists e
  | _ => false

def areIntegers (lists : List String) : List Expr → Bool
  | [] => true
  | e :: rest => isInteger lists e && areIntegers lists rest

def areConditions (lists : List String) : List Expr → Bool
  | [] => true
  | e :: rest => isCondition lists e && areConditions lists rest
end

mutual
def isCore (lists : List String) : Stmt → Bool
  | .assign _ [.name _ x] e => isIntegerName lists x && isInteger lists e
  | .augAssign _ (.name _ x) op e =>
    isIntegerName lists x && (arithmetic? op).isSome && isInteger lists e
  | .ifElse _ test body orelse => isCondition lists test && areCore lists body && areCore lists orelse
  | .whileLoop _ test body orelse => isCondition lists test && areCore lists body && orelse.isEmpty
  | .forLoop _ isAsync (.name _ x) (.name _ xs) body orelse =>
    !isAsync && isIntegerName lists x && isPlainName xs && lists.contains xs && areCore lists body && orelse.isEmpty
  | .breakLoop _ | .continueLoop _ | .pass _ => true
  | .ret _ e => isInteger lists e
  | _ => false

def areCore (lists : List String) : List Stmt → Bool
  | [] => true
  | s :: rest => isCore lists s && areCore lists rest
end

mutual
def assignedNames : Stmt → List String
  | .assign _ [.name _ x] _ => [x]
  | .ifElse _ _ body orelse => assignedNamesAll body ++ assignedNamesAll orelse
  | .whileLoop _ _ body _ | .forLoop _ _ _ _ body _ => assignedNamesAll body
  | _ => []

def assignedNamesAll : List Stmt → List String
  | [] => []
  | s :: rest => assignedNames s ++ assignedNamesAll rest
end

/-- Whether parameters are those of a function of the core: plain names, without defaults, and bound
by position only. -/
def arePlainParams (ps : Params) : Bool :=
  (parameters? ps).isSome && ps.defaults.isEmpty && ps.kwDefaults.isEmpty &&
    (ps.posOnly ++ ps.args).all (isPlainName ·.name)

theorem isPlainName_of_isIntegerName {lists : List String} {x : String}
    (h : isIntegerName lists x = true) : isPlainName x = true := by
  rw [isIntegerName, Bool.and_eq_true] at h
  exact h.1

/-! ### Induction over the core -/

structure ExprClosed (P : Expr → Prop) : Prop where
  number : ∀ p digits, P (.constant p (.number digits))
  bool : ∀ p b, P (.constant p (.bool b))
  name : ∀ p x, isPlainName x = true → P (.name p x)
  neg : ∀ p e, P e → P (.unaryOp p .uSub e)
  not : ∀ p e, P e → P (.unaryOp p .not e)
  binOp : ∀ p left op right, (arithmetic? op).isSome = true → P left → P right → P (.binOp p left op right)
  ifExp : ∀ p test body orelse, P test → P body → P orelse → P (.ifExp p test body orelse)
  compare : ∀ p left ops es, ops.all (fun op => (comparison? op).isSome) = true → P left →
    (∀ e ∈ es, P e) → P (.compare p left ops es)
  boolOp : ∀ p op es, (∀ e ∈ es, P e) → P (.boolOp p op es)

namespace ExprClosed

variable {lists : List String} {P : Expr → Prop}

mutual
theorem integer (h : ExprClosed P) (e : Expr) (he : isInteger lists e = true) : P e := by
  cases e with
  | constant p c =>
    cases c with
    | number digits => exact h.number p digits
    | _ => simp [isInteger] at he
  | name p x => exact h.name p x (isPlainName_of_isIntegerName he)
  | unaryOp p _ e =>
    simp only [isInteger, Bool.and_eq_true, beq_iff_eq] at he
    obtain ⟨rfl, he⟩ := he
    exact h.neg p e (h.integer e he)
  | binOp p left op right =>
    simp only [isInteger, Bool.and_eq_true] at he
    exact h.binOp p left op right he.1.1 (h.integer left he.1.2) (h.integer right he.2)
  | ifExp p test body orelse =>
    simp only [isInteger, Bool.and_eq_true] at he
    exact h.ifExp p test body orelse (h.condition test he.1.1) (h.integer body he.1.2) (h.integer orelse he.2)
  | _ => simp [isInteger] at he

theorem condition (h : ExprClosed P) (e : Expr) (he : isCondition lists e = true) : P e := by
  cases e with
  | constant p c =>
    cases c with
    | bool b => exact h.bool p b
    | _ => simp [isCondition] at he
  | unaryOp p _ e =>
    simp only [isCondition, Bool.and_eq_true, beq_iff_eq] at he
    obtain ⟨rfl, he⟩ := he
    exact h.not p e (h.condition e he)
  | compare p left ops es =>
    simp only [isCondition, Bool.and_eq_true] at he
    obtain ⟨⟨⟨hops, -⟩, hleft⟩, hes⟩ := he
    exact h.compare p left ops es hops (h.integer left hleft) (h.integers es hes)
  | boolOp p op es =>
    rw [isCondition] at he
    exact h.boolOp p op es (h.conditions es he)
  | _ => simp [isCondition] at he

theorem integers (h : ExprClosed P) : ∀ es : List Expr, areIntegers lists es = true → ∀ e ∈ es, P e
  | [], _ => by simp
  | e :: rest, hes => by
    rw [areIntegers, Bool.and_eq_true] at hes
    exact List.forall_mem_cons.mpr ⟨h.integer e hes.1, h.integers rest hes.2⟩

theorem conditions (h : ExprClosed P) : ∀ es : List Expr, areConditions lists es = true → ∀ e ∈ es, P e
  | [], _ => by simp
  | e :: rest, hes => by
    rw [areConditions, Bool.and_eq_true] at hes
    exact List.forall_mem_cons.mpr ⟨h.condition e hes.1, h.conditions rest hes.2⟩
end

end ExprClosed

structure StmtClosed (lists : List String) (P : Stmt → Prop) : Prop where
  assign : ∀ p q x e, isPlainName x = true → isInteger lists e = true → P (.assign p [.name q x] e)
  augAssign : ∀ p q x op e, isPlainName x = true → isInteger lists e = true → P (.augAssign p (.name q x) op e)
  ifElse : ∀ p test body orelse, isCondition lists test = true → (∀ s ∈ body, P s) →
    (∀ s ∈ orelse, P s) → P (.ifElse p test body orelse)
  whileLoop : ∀ p test body, isCondition lists test = true → (∀ s ∈ body, P s) → P (.whileLoop p test body [])
  forLoop : ∀ p q x q' xs body, isPlainName x = true → isPlainName xs = true → (∀ s ∈ body, P s) →
    P (.forLoop p false (.name q x) (.name q' xs) body [])
  breakLoop : ∀ p, P (.breakLoop p)
  continueLoop : ∀ p, P (.continueLoop p)
  pass : ∀ p, P (.pass p)
  ret : ∀ p e, isInteger lists e = true → P (.ret p e)

namespace StmtClosed

variable {lists : List String} {P : Stmt → Prop}

theorem exists_of_isCore_assign {targets : List Expr} (h : isCore lists (.assign p targets e) = true) :
    ∃ q x, targets = [.name q x] ∧ isPlainName x = true ∧ isInteger lists e = true := by
  rcases targets with _ | ⟨target, _ | ⟨_, _⟩⟩
  · simp [isCore] at h
  · cases target with
    | name q x =>
      rw [isCore, Bool.and_eq_true] at h
      exact ⟨q, x, rfl, isPlainName_of_isIntegerName h.1, h.2⟩
    | _ => simp [isCore] at h
  · cases target <;> cases h

theorem exists_of_isCore_augAssign {op : Source.BinOp} (h : isCore lists (.augAssign p target op e) = true) :
    ∃ q x, target = .name q x ∧ isPlainName x = true ∧ isInteger lists e = true := by
  cases target with
  | name q x =>
    simp only [isCore, Bool.and_eq_true] at h
    exact ⟨q, x, rfl, isPlainName_of_isIntegerName h.1.1, h.2⟩
  | _ => simp [isCore] at h

theorem exists_of_isCore_forLoop {isAsync : Bool} {iter : Expr} {body orelse : List Stmt}
    (h : isCore lists (.forLoop p isAsync target iter body orelse) = true) :
    ∃ q x q' xs, target = .name q x ∧ iter = .name q' xs ∧ isAsync = false ∧
      isPlainName x = true ∧ isPlainName xs = true ∧ areCore lists body = true ∧ orelse = [] := by
  cases target with
  | name q x =>
    cases iter with
    | name q' xs =>
      simp only [isCore, Bool.and_eq_true, Bool.not_eq_true', List.isEmpty_iff] at h
      obtain ⟨⟨⟨⟨⟨hasync, hx⟩, hxs⟩, -⟩, hbody⟩, horelse⟩ := h
      exact ⟨q, x, q', xs, rfl, rfl, hasync, isPlainName_of_isIntegerName hx, hxs, hbody, horelse⟩
    | _ => simp [isCore] at h
  | _ => simp [isCore] at h

mutual
theorem core (h : StmtClosed lists P) (s : Stmt) (hs : isCore lists s = true) : P s := by
  cases s with
  | assign p _ e =>
    obtain ⟨q, x, rfl, hx, he⟩ := exists_of_isCore_assign hs
    exact h.assign p q x e hx he
  | augAssign p _ op e =>
    obtain ⟨q, x, rfl, hx, he⟩ := exists_of_isCore_augAssign hs
    exact h.augAssign p q x op e hx he
  | ifElse p test body orelse =>
    simp only [isCore, Bool.and_eq_true] at hs
    exact h.ifElse p test body orelse hs.1.1 (h.cores body hs.1.2) (h.cores orelse hs.2)
  | whileLoop p test body =>
    simp only [isCore, Bool.and_eq_true, List.isEmpty_iff] at hs
    obtain ⟨⟨htest, hbody⟩, rfl⟩ := hs
    exact h.whileLoop p test body htest (h.cores body hbody)
  | forLoop p _ _ _ body =>
    obtain ⟨q, x, q', xs, rfl, rfl, rfl, hx, hxs, hbody, rfl⟩ := exists_of_isCore_forLoop hs
    exact h.forLoop p q x q' xs body hx hxs (h.cores body hbody)
  | breakLoop p => exact h.breakLoop p
  | continueLoop p => exact h.continueLoop p
  | pass p => exact h.pass p
  | ret p e =>
    rw [isCore] at hs
    exact h.ret p e hs
  | _ => simp [isCore] at hs

theorem cores (h : StmtClosed lists P) : ∀ body : List Stmt, areCore lists body = true → ∀ s ∈ body, P s
  | [], _ => by simp
  | s :: rest, hbody => by
    rw [areCore, Bool.and_eq_true] at hbody
    exact List.forall_mem_cons.mpr ⟨h.core s hbody.1, h.cores rest hbody.2⟩
end

end StmtClosed

end Transpiler.Meaning
