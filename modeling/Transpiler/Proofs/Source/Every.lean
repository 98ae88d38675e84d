import Transpiler.Proofs.Source.Subterms

/-!
# Conditions on every expression

`Expr.every φ` asks a condition of an expression and of all expressions inside it, and `Stmt.every φ`
asks it of all expressions of a statement, annotations apart. Both can be computed.
-/

namespace Transpiler.Source

mutual
def Expr.every (φ : Expr → Bool) : Expr → Bool
  | .absent => φ .absent
  | .name p id => φ (.name p id)
  | .constant p v => φ (.constant p v)
  | .attr p value field => φ (.attr p value field) && value.every φ
  | .subscript p value slice => φ (.subscript p value slice) && value.every φ && slice.every φ
  | .call p func args keywords =>
    φ (.call p func args keywords) && func.every φ && everyExpr φ args && everyKeyword φ keywords
  | .boolOp p op values => φ (.boolOp p op values) && everyExpr φ values
  | .binOp p left op right => φ (.binOp p left op right) && left.every φ && right.every φ
  | .unaryOp p op operand => φ (.unaryOp p op operand) && operand.every φ
  | .compare p left ops comparators =>
    φ (.compare p left ops comparators) && left.every φ && everyExpr φ comparators
  | .ifExp p test body orelse =>
    φ (.ifExp p test body orelse) && test.every φ && body.every φ && orelse.every φ
  | .lambda p params kwDefaults defaults body =>
    φ (.lambda p params kwDefaults defaults body) && everyExpr φ kwDefaults && everyExpr φ defaults && body.every φ
  | .list p elts => φ (.list p elts) && everyExpr φ elts
  | .tuple p elts => φ (.tuple p elts) && everyExpr φ elts
  | .set p elts => φ (.set p elts) && everyExpr φ elts
  | .dict p keys values => φ (.dict p keys values) && everyExpr φ keys && everyExpr φ values
  | .listComp p elt generators =>
    φ (.listComp p elt generators) && elt.every φ && everyGenerator φ generators
  | .setComp p elt generators =>
    φ (.setComp p elt generators) && elt.every φ && everyGenerator φ generators
  | .generatorExp p elt generators =>
    φ (.generatorExp p elt generators) && elt.every φ && everyGenerator φ generators
  | .dictComp p key value generators =>
    φ (.dictComp p key value generators) && key.every φ && value.every φ && everyGenerator φ generators
  | .await p value => φ (.await p value) && value.every φ
  | .yield p value => φ (.yield p value) && value.every φ
  | .yieldFrom p value => φ (.yieldFrom p value) && value.every φ
  | .starred p value => φ (.starred p value) && value.every φ
  | .namedExpr p target value => φ (.namedExpr p target value) && target.every φ && value.every φ
  | .joinedStr p values => φ (.joinedStr p values) && everyExpr φ values
  | .formattedValue p value conversion spec =>
    φ (.formattedValue p value conversion spec) && value.every φ && spec.every φ
  | .slice p lower upper step =>
    φ (.slice p lower upper step) && lower.every φ && upper.every φ && step.every φ
  | .index value => φ (.index value) && value.every φ
  | .extSlice dims => φ (.extSlice dims) && everyExpr φ dims

def everyExpr (φ : Expr → Bool) : List Expr → Bool
  | [] => true
  | e :: rest => e.every φ && everyExpr φ rest

def everyKeyword (φ : Expr → Bool) : List Keyword → Bool
  | [] => true
  | .mk _ _ value :: rest => value.every φ && everyKeyword φ rest

def everyGenerator (φ : Expr → Bool) : List Generator → Bool
  | [] => true
  | .mk target iter ifs :: rest =>
    target.every φ && iter.every φ && everyExpr φ ifs && everyGenerator φ rest
end

mutual
def Stmt.every (φ : Expr → Bool) : Stmt → Bool
  | .functionDef _ _ _ params body decorators _ =>
    everyExpr φ params.defaults && everyExpr φ params.kwDefaults && everyStmt φ body && everyExpr φ decorators
  | .classDef _ _ bases keywords body decorators =>
    everyExpr φ bases && everyKeyword φ keywords && everyStmt φ body && everyExpr φ decorators
  | .ret _ value | .expr _ value | .bare value => value.every φ
  | .delete _ targets => everyExpr φ targets
  | .assign _ targets value => everyExpr φ targets && value.every φ
  | .augAssign _ target _ value | .annAssign _ target _ value => target.every φ && value.every φ
  | .forLoop _ _ target iter body orelse =>
    target.every φ && iter.every φ && everyStmt φ body && everyStmt φ orelse
  | .whileLoop _ test body orelse | .ifElse _ test body orelse =>
    test.every φ && everyStmt φ body && everyStmt φ orelse
  | .withBlock _ _ items body =>
    items.all (fun i => i.context.every φ && i.target.every φ) && everyStmt φ body
  | .raise _ exc cause => exc.every φ && cause.every φ
  | .tryBlock _ _ body handlers orelse finalbody =>
    everyStmt φ body && everyHandler φ handlers && everyStmt φ orelse && everyStmt φ finalbody
  | .assertion _ test msg => test.every φ && msg.every φ
  | .matchBlock _ subject cases => subject.every φ && everyCase φ cases
  | .importNames .. | .importFrom .. | .global .. | .nonlocal .. | .pass _ | .breakLoop _
  | .continueLoop _ => true

def everyStmt (φ : Expr → Bool) : List Stmt → Bool
  | [] => true
  | s :: rest => s.every φ && everyStmt φ rest

def everyHandler (φ : Expr → Bool) : List Handler → Bool
  | [] => true
  | .mk _ type _ body :: rest => type.every φ && everyStmt φ body && everyHandler φ rest

def everyCase (φ : Expr → Bool) : List MatchCase → Bool
  | [] => true
  | .mk _ value guard body :: rest =>
    value.every φ && guard.every φ && everyStmt φ body && everyCase φ rest
end

variable {φ : Expr → Bool}

theorem everyExpr_iff {es : List Expr} : everyExpr φ es = true ↔ ∀ e ∈ es, e.every φ = true := by
  induction es with
  | nil => simp [everyExpr]
  | cons _ _ ih => simp [everyExpr, ih]

theorem everyKeyword_iff {ks : List Keyword} : everyKeyword φ ks = true ↔ ∀ k ∈ ks, k.value.every φ = true := by
  induction ks with
  | nil => simp [everyKeyword]
  | cons k _ ih =>
    obtain ⟨_, _, _⟩ := k
    simp [everyKeyword, ih, Keyword.value]

theorem everyGenerator_iff {gs : List Generator} :
    everyGenerator φ gs = true ↔ ∀ e ∈ gs.flatMap Generator.exprs, e.every φ = true := by
  induction gs with
  | nil => simp [everyGenerator]
  | cons g _ ih =>
    obtain ⟨_, _, _⟩ := g
    simp [everyGenerator, ih, everyExpr_iff, Generator.exprs, or_imp, forall_and, and_assoc]

theorem Expr.every_iff {e : Expr} :
    e.every φ = true ↔ φ e = true ∧ ∀ part ∈ e.evaluated ++ e.deferred, part.every φ = true := by
  cases e <;>
  simp [Expr.every, Expr.evaluated, Expr.deferred, everyExpr_iff, everyKeyword_iff, everyGenerator_iff, or_imp,
    forall_and, and_assoc]

theorem everyStmt_iff {ss : List Stmt} : everyStmt φ ss = true ↔ ∀ s ∈ ss, s.every φ = true := by
  induction ss with
  | nil => simp [everyStmt]
  | cons _ _ ih => simp [everyStmt, ih]

theorem everyHandler_iff {hs : List Handler} : everyHandler φ hs = true ↔
    ∀ h ∈ hs, h.type.every φ = true ∧ everyStmt φ h.body = true := by
  induction hs with
  | nil => simp [everyHandler]
  | cons h _ ih =>
    obtain ⟨_, _, _, _⟩ := h
    simp [everyHandler, ih, Handler.type, Handler.body, and_assoc]

theorem Stmt.every_operand {s : Stmt} {e : Expr} (he : e ∈ s.operands) (h : s.every φ = true) : e.every φ = true := by
  cases s <;>
  simp only [Stmt.every, Bool.and_eq_true, everyExpr_iff, everyHandler_iff] at h <;>
  grind [Stmt.operands]

theorem Stmt.every_body {s : Stmt} {body : List Stmt} (hbody : body ∈ s.bodies) (h : s.every φ = true) :
    everyStmt φ body = true := by
  cases s <;>
  simp only [Stmt.every, Bool.and_eq_true, everyHandler_iff] at h <;>
  grind [Stmt.bodies]

end Transpiler.Source
