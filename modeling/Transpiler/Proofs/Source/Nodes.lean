import Transpiler.Proofs.Source.Subterms
import Transpiler.Source.Names
import Transpiler.Source.Ref

/-!
# Conditions on source trees

`Tree.allOf φ` asks a condition of every node of some trees, and `Stmt.isProper` asks of statements
what the grammar promises beyond their type. Both can be computed. The main statements take a
condition on a tree apart: what it says of the node itself (`Expr.info_of_allOf`) and that it holds of
the parts.
-/

namespace Transpiler.Source

variable {body ss : List Stmt} {e : Expr} {handlers : List Handler} {s : Stmt}

namespace Tree

mutual
def all (φ : Info → Bool) : Tree → Bool
  | node i ps => φ i && allOf φ ps

def allOf (φ : Info → Bool) : List Tree → Bool
  | [] => true
  | t :: rest => t.all φ && allOf φ rest
end

variable {φ : Info → Bool}

@[simp]
theorem allOf_nil : allOf φ [] = true := by
  rw [allOf]

@[simp]
theorem allOf_cons (t : Tree) (rest : List Tree) : allOf φ (t :: rest) = (t.all φ && allOf φ rest) := by
  rw [allOf]

@[simp]
theorem allOf_append (ts us : List Tree) : allOf φ (ts ++ us) = (allOf φ ts && allOf φ us) := by
  induction ts with
  | nil => simp
  | cons _ _ ih => simp [ih, Bool.and_assoc]

theorem allOf_iff {ts : List Tree} : allOf φ ts = true ↔ ∀ t ∈ ts, t.all φ = true := by
  induction ts with
  | nil => simp
  | cons _ _ ih => simp [ih]

@[simp]
theorem all_node (i : Info) (ps : List Tree) : (node i ps).all φ = (φ i && allOf φ ps) := by
  rw [all]

@[simp]
theorem all_plain (kind : String) (pos : At) (ps : List Tree) :
    (plain kind pos ps).all φ = (φ ⟨kind, pos, []⟩ && allOf φ ps) := by
  rw [plain, all_node]

mutual
theorem all_true : ∀ t : Tree, t.all (fun _ => true) = true
  | node _ ps => by simp [allOf_true ps]

theorem allOf_true : ∀ ts : List Tree, allOf (fun _ => true) ts = true
  | [] => allOf_nil
  | t :: rest => by simp [all_true t, allOf_true rest]
end

end Tree

open Transpiler.Source.Tree (allOf)

variable {φ : Info → Bool}

theorem allOf_exprTrees {es : List Expr} : allOf φ (exprTrees es) = true ↔ ∀ e ∈ es, allOf φ e.trees = true := by
  induction es with
  | nil => simp [exprTrees]
  | cons _ _ ih => simp [exprTrees, ih]

theorem allOf_stmtTrees : allOf φ (stmtTrees ss) = true ↔ ∀ s ∈ ss, allOf φ s.trees = true := by
  induction ss with
  | nil => simp [stmtTrees]
  | cons _ _ ih => simp [stmtTrees, ih]

theorem allOf_keywordTrees {ks : List Keyword} (h : allOf φ (keywordTrees ks) = true) :
    ∀ e ∈ ks.map Keyword.value, allOf φ e.trees = true := by
  induction ks with
  | nil => simp
  | cons k _ ih =>
    obtain ⟨_, _, _⟩ := k
    simp only [keywordTrees, Tree.allOf_cons, Tree.all_plain, Bool.and_eq_true] at h
    rw [List.map_cons, List.forall_mem_cons]
    exact ⟨h.1.2, ih h.2⟩

theorem allOf_generatorTrees {gs : List Generator} (h : allOf φ (generatorTrees gs) = true) :
    ∀ e ∈ gs.flatMap Generator.exprs, allOf φ e.trees = true := by
  induction gs with
  | nil => simp
  | cons g _ ih =>
    obtain ⟨_, _, _⟩ := g
    simp only [generatorTrees, Tree.allOf_cons, Tree.all_plain, Tree.allOf_append, Bool.and_eq_true,
      allOf_exprTrees] at h
    simp only [List.flatMap_cons, Generator.exprs, List.forall_mem_append, List.forall_mem_cons]
    exact ⟨⟨h.1.2.1.1, h.1.2.1.2, h.1.2.2⟩, ih h.2⟩

theorem Expr.allOf_part {part : Expr} (hpart : part ∈ e.evaluated ++ e.deferred)
    (h : allOf φ e.trees = true) : allOf φ part.trees = true := by
  cases e <;>
  simp only [Expr.trees, Tree.allOf_cons, Tree.all_plain, Tree.allOf_append, Bool.and_eq_true, allOf_exprTrees] at h <;>
  grind [Expr.evaluated, Expr.deferred, allOf_keywordTrees, allOf_generatorTrees]

theorem Expr.info_of_allOf (h : allOf φ e.trees = true) (he : e ≠ .absent) : φ ⟨e.kind, e.pos, []⟩ = true := by
  cases e
  case absent => exact absurd rfl he
  all_goals
    simp only [Expr.trees, Tree.allOf_cons, Tree.all_plain, Bool.and_eq_true] at h
    exact h.1.1

def partKinds : List String :=
  ["keyword", "comprehension", "arguments", "arg"]

/-- A condition that holds of the nodes that expressions consist of, which bind nothing. -/
structure OfExprs (φ : Info → Bool) : Prop where
  expr : ∀ e : Expr, φ ⟨e.kind, e.pos, []⟩ = true
  part : ∀ kind ∈ partKinds, ∀ pos, φ ⟨kind, pos, []⟩ = true

theorem OfExprs.allOf_trees (h : OfExprs φ) {ps : List Tree}
    (htrees : e.trees = [.plain e.kind e.pos ps]) (hps : allOf φ ps = true) : allOf φ e.trees = true := by
  rw [htrees]
  simp [h.expr e, hps]

mutual
theorem Expr.allOf_trees (h : OfExprs φ) : ∀ e : Expr, allOf φ e.trees = true
  | .absent => by simp [Expr.trees]
  | .name .. | .constant .. => h.allOf_trees (by rw [Expr.trees]; rfl) Tree.allOf_nil
  | .attr _ v _ | .unaryOp _ _ v | .await _ v | .yield _ v | .yieldFrom _ v | .starred _ v | .index v =>
    h.allOf_trees (by rw [Expr.trees]; rfl) (v.allOf_trees h)
  | .subscript _ l r | .binOp _ l _ r | .namedExpr _ l r | .formattedValue _ l _ r =>
    h.allOf_trees (by rw [Expr.trees]; rfl) (by simp [l.allOf_trees h, r.allOf_trees h])
  | .call _ f args kws =>
    h.allOf_trees (by rw [Expr.trees]; rfl)
      (by simp [f.allOf_trees h, allOf_trees_exprs h args, allOf_trees_keywords h kws])
  | .boolOp _ _ es | .list _ es | .tuple _ es | .set _ es | .joinedStr _ es | .extSlice es =>
    h.allOf_trees (by rw [Expr.trees]; rfl) (allOf_trees_exprs h es)
  | .compare _ l _ cs =>
    h.allOf_trees (by rw [Expr.trees]; rfl) (by simp [l.allOf_trees h, allOf_trees_exprs h cs])
  | .ifExp _ t b o | .slice _ t b o =>
    h.allOf_trees (by rw [Expr.trees]; rfl) (by simp [t.allOf_trees h, b.allOf_trees h, o.allOf_trees h])
  | .lambda _ bs kwDefaults defaults body => by
    have hbinder (b : Binder) : φ ⟨"arg", b.pos, []⟩ = true := h.part "arg" (by simp [partKinds]) _
    have harguments : φ ⟨"arguments", none, []⟩ = true := h.part "arguments" (by simp [partKinds]) _
    have hbinders (names : List Binder) : allOf φ (names.map fun b => Tree.plain "arg" b.pos []) = true := by
      simp [Tree.allOf_iff, hbinder]
    have hoption (name : Option Binder) : allOf φ (name.map fun b => Tree.plain "arg" b.pos []).toList = true := by
      cases name <;> simp [hbinder]
    refine h.allOf_trees (by rw [Expr.trees]; rfl) ?_
    simp [harguments, hbinders, hoption, allOf_trees_exprs h kwDefaults, allOf_trees_exprs h defaults,
      body.allOf_trees h]
  | .dict _ ks vs =>
    h.allOf_trees (by rw [Expr.trees]; rfl) (by simp [allOf_trees_exprs h ks, allOf_trees_exprs h vs])
  | .listComp _ x gs | .setComp _ x gs | .generatorExp _ x gs =>
    h.allOf_trees (by rw [Expr.trees]; rfl) (by simp [x.allOf_trees h, allOf_trees_generators h gs])
  | .dictComp _ k v gs =>
    h.allOf_trees (by rw [Expr.trees]; rfl)
      (by simp [k.allOf_trees h, v.allOf_trees h, allOf_trees_generators h gs])

theorem allOf_trees_exprs (h : OfExprs φ) : ∀ es : List Expr, allOf φ (exprTrees es) = true
  | [] => by simp [exprTrees]
  | e :: rest => by simp [exprTrees, e.allOf_trees h, allOf_trees_exprs h rest]

theorem allOf_trees_keywords (h : OfExprs φ) : ∀ ks : List Keyword, allOf φ (keywordTrees ks) = true
  | [] => by simp [keywordTrees]
  | .mk p _ v :: rest => by
    have hkeyword : φ ⟨"keyword", p, []⟩ = true := h.part "keyword" (by simp [partKinds]) p
    simp [keywordTrees, hkeyword, v.allOf_trees h, allOf_trees_keywords h rest]

theorem allOf_trees_generators (h : OfExprs φ) : ∀ gs : List Generator, allOf φ (generatorTrees gs) = true
  | [] => by simp [generatorTrees]
  | .mk t i ifs :: rest => by
    have hclause : φ ⟨"comprehension", none, []⟩ = true := h.part "comprehension" (by simp [partKinds]) none
    simp [generatorTrees, hclause, t.allOf_trees h, i.allOf_trees h, allOf_trees_exprs h ifs,
      allOf_trees_generators h rest]
end

/-! ### What the grammar promises -/

def Expr.isTarget : Expr → Bool
  | .name _ id => id != ""
  | .attr .. | .subscript .. => true
  | _ => false

mutual
/-- Whether a statement is one of the grammar: no expression takes its place, what is assigned to in
place is a target, and a loop variable has a name. -/
def Stmt.isProper : Stmt → Bool
  | .functionDef _ _ _ _ body _ _ | .classDef _ _ _ _ body _ | .withBlock _ _ _ body =>
    areProper body
  | .augAssign _ target _ _ => target.isTarget
  | .forLoop _ _ target _ body orelse =>
    target.name? != some "" && areProper body && areProper orelse
  | .whileLoop _ _ body orelse | .ifElse _ _ body orelse => areProper body && areProper orelse
  | .tryBlock _ _ body handlers orelse finalbody =>
    areProper body && areProperHandlers handlers && areProper orelse && areProper finalbody
  | .bare _ => false
  | _ => true

def areProper : List Stmt → Bool
  | [] => true
  | s :: rest => s.isProper && areProper rest

def areProperHandlers : List Handler → Bool
  | [] => true
  | .mk _ _ _ body :: rest => areProper body && areProperHandlers rest
end

theorem areProper_iff : areProper ss = true ↔ ∀ s ∈ ss, s.isProper = true := by
  induction ss with
  | nil => simp [areProper]
  | cons _ _ ih => simp [areProper, ih]

theorem areProperHandlers_iff : areProperHandlers handlers = true ↔ ∀ h ∈ handlers, areProper h.body = true := by
  induction handlers with
  | nil => simp [areProperHandlers]
  | cons h _ ih =>
    obtain ⟨_, _, _, _⟩ := h
    simp [areProperHandlers, ih, Handler.body]

theorem allOf_handlerTrees (h : allOf φ (handlerTrees handlers) = true) :
    ∀ c ∈ handlers, allOf φ c.type.trees = true ∧ allOf φ (stmtTrees c.body) = true := by
  induction handlers with
  | nil => simp
  | cons c _ ih =>
    obtain ⟨_, _, _, _⟩ := c
    simp only [handlerTrees, Tree.allOf_cons, Tree.all_plain, Tree.allOf_append, Bool.and_eq_true] at h
    exact List.forall_mem_cons.mpr ⟨h.1.2, ih h.2⟩

theorem Stmt.info_of_allOf (h : allOf φ s.trees = true) (hs : ∀ e, s ≠ .bare e) :
    ∃ names, φ ⟨s.kind, s.pos, names⟩ = true := by
  cases s <;>
  simp only [Stmt.trees, Tree.allOf_cons, Tree.all_plain, Tree.all_node, Bool.and_eq_true] at h
  case bare e => exact (hs e rfl).elim
  all_goals exact ⟨_, h.1.1⟩

theorem Stmt.allOf_operand (he : e ∈ s.operands) (h : allOf φ s.trees = true) : allOf φ e.trees = true := by
  cases s <;>
  simp only [Stmt.trees, Params.tree, Tree.allOf_cons, Tree.all_plain, Tree.all_node, Tree.allOf_append,
    Bool.and_eq_true, allOf_exprTrees] at h <;>
  grind [Stmt.operands, allOf_handlerTrees]

theorem Stmt.allOf_body (hbody : body ∈ s.bodies) (h : allOf φ s.trees = true) : allOf φ (stmtTrees body) = true := by
  cases s <;>
  simp only [Stmt.trees, Tree.allOf_cons, Tree.all_plain, Tree.all_node, Tree.allOf_append, Bool.and_eq_true] at h <;>
  grind [Stmt.bodies, → allOf_handlerTrees]

theorem Stmt.areProper_body (hbody : body ∈ s.bodies) (h : s.isProper = true) : areProper body = true := by
  cases s <;>
  grind [Stmt.isProper, Stmt.bodies, areProperHandlers_iff]

end Transpiler.Source
