import Transpiler.Proofs.Source.Within

/-!
# Expressions of a scope

A function is a generator function if it evaluates a `yield` itself (`IsGeneratorFunction`). This leaves out what
nested functions, lambdas and classes evaluate, but not their defaults, decorators, annotations and bases, which
are evaluated where they are defined.

The search for a `yield` draws the lines of the scope elsewhere (`scopeHas_yield_iff`): it goes into the bodies of
lambdas, and passes over the headers of functions and classes. As in the search for statements, there is one step
of it for expressions (`has_expr`) and one for statements (`has_stmt_exprs`).
-/

namespace Transpiler.Source

/-! ### Expressions of a kind -/

structure IsExprKind (kind : String) : Prop where
  stmt : ∀ s : Stmt, s.kind = kind → ∃ e, s = .bare e
  part : kind ∉ partKinds ++ "NoneType" :: clauseKinds

open Tree (Has)

variable {k : String}

section

variable (hk : IsExprKind k)

include hk

theorem ne_of_isExprKind {kind : String} (h : kind ∈ partKinds ++ "NoneType" :: clauseKinds) : kind ≠ k := by
  rintro rfl
  exact hk.part h

theorem has_keywords {ks : List Keyword} : Has k (keywordTrees ks) ↔ ∃ e ∈ ks.map Keyword.value, Has k e.trees := by
  induction ks with
  | nil => simp [keywordTrees]
  | cons first _ ih =>
    obtain ⟨_, _, _⟩ := first
    have hne : "keyword" ≠ k := ne_of_isExprKind hk (by simp [partKinds])
    refine Tree.finds_cons.trans ?_
    simp [ih, hne, Tree.opensScope, Keyword.value]

theorem has_generators {gs : List Generator} :
    Has k (generatorTrees gs) ↔ ∃ e ∈ gs.flatMap Generator.exprs, Has k e.trees := by
  induction gs with
  | nil => simp [generatorTrees]
  | cons first _ ih =>
    obtain ⟨_, _, _⟩ := first
    have hne : "comprehension" ≠ k := ne_of_isExprKind hk (by simp [partKinds])
    refine Tree.finds_cons.trans ?_
    simp [ih, hne, Tree.opensScope, Generator.exprs, finds_exprs, or_and_right, exists_or, or_assoc]

theorem has_expr (e : Expr) : Has k e.trees ↔ e.kind = k ∨ ∃ part ∈ e.evaluated ++ e.deferred, Has k part.trees := by
  cases e with
  | absent => simp [Expr.trees, Expr.kind, Expr.evaluated, Expr.deferred, ne_of_isExprKind hk]
  | lambda =>
    have hne : "arguments" ≠ k := ne_of_isExprKind hk (by simp [partKinds])
    have hne' : "arg" ≠ k := ne_of_isExprKind hk (by simp [partKinds])
    have hbinders (bs : List Binder) : ¬ Has k (bs.map fun b => Tree.plain "arg" b.pos []) := by
      simp [Tree.finds_map, hne']
    have hbinder (b : Option Binder) : ¬ Has k (b.map fun b => Tree.plain "arg" b.pos []).toList := by
      cases b <;> simp [hne']
    refine (Tree.finds_plain.trans (or_congr_right (and_congr_right fun _ => Tree.finds_cons))).trans ?_
    simp [Expr.kind, Expr.evaluated, Expr.deferred, Tree.opensScope, finds_exprs, hne, hbinders, hbinder,
      or_and_right, exists_or, or_assoc]
  | _ =>
    simp [Expr.trees, Expr.kind, Expr.evaluated, Expr.deferred, Tree.opensScope, finds_exprs, has_keywords hk,
      has_generators hk, or_and_right, exists_or]

theorem has_expr_iff_occurs (e : Expr) : Has k e.trees ↔ ∃ x : Expr, x.Occurs true e ∧ x.kind = k := by
  constructor
  · intro h
    rcases (has_expr hk e).mp h with hkind | ⟨part, hpart, h⟩
    · exact ⟨e, .here, hkind⟩
    · have := sizeOf_evaluated hpart
      obtain ⟨x, hx, hkind⟩ := (has_expr_iff_occurs part).mp h
      rcases List.mem_append.mp hpart with hpart | hpart
      · exact ⟨x, .evaluated hpart hx, hkind⟩
      · exact ⟨x, .deferred rfl hpart hx, hkind⟩
  · rintro ⟨x, hx, hkind⟩
    induction hx with
    | here => exact (has_expr hk x).mpr (.inl hkind)
    | evaluated hpart _ ih => exact (has_expr hk _).mpr (.inr ⟨_, List.mem_append_left _ hpart, ih⟩)
    | deferred _ hpart _ ih => exact (has_expr hk _).mpr (.inr ⟨_, List.mem_append_right _ hpart, ih⟩)
termination_by sizeOf e

end

/-! ### Expressions of statements -/

/-- The expressions in the header of a function or class, which are evaluated where it is defined. -/
def Stmt.header : Stmt → List Expr
  | .functionDef _ _ _ ps _ decorators returns =>
    (ps.posOnly ++ ps.args ++ ps.vararg.toList ++ ps.kwOnly ++ ps.kwarg.toList).map (fun a => a.annotation) ++
      ps.kwDefaults ++ ps.defaults ++ decorators ++ [returns]
  | .classDef _ _ bases keywords _ decorators => bases ++ keywords.map Keyword.value ++ decorators
  | _ => []

theorem has_stmt_exprs (hk : IsExprKind k) (s : Stmt) : Has k s.trees ↔
    (∃ e ∈ s.evaluated, Has k e.trees) ∨ ∃ block ∈ s.blocks, Has k (stmtTrees block) := by
  have hclause : ∀ kind ∈ clauseKinds, ∀ pos : At, ¬ (Info.mk kind pos []).kind = k := fun _ hkind _ =>
    ne_of_isExprKind hk (by simp [hkind])
  refine (finds_stmt hclause s).trans (or_iff_right ?_)
  rintro ⟨hbare, hkind⟩
  obtain ⟨e, he⟩ := hk.stmt s hkind
  exact hbare e he

/-! ### Yields of a function -/

/-- How far a scope reaches: whether the bodies of lambdas belong to it, and whether the headers of functions and
classes that are defined in it do. -/
structure Reach where
  lambdas : Bool
  headers : Bool

def InScope (reach : Reach) (x : Expr) (body : List Stmt) : Prop :=
  ∃ s, Within s body ∧ ∃ e ∈ s.evaluated ++ (if reach.headers then s.header else []), x.Occurs reach.lambdas e

def Expr.isYield : Expr → Bool
  | .yield .. | .yieldFrom .. => true
  | _ => false

def YieldsIn (reach : Reach) (body : List Stmt) : Prop :=
  ∃ x : Expr, x.isYield = true ∧ InScope reach x body

/-- A function is a generator function if it evaluates a `yield` itself: what a lambda evaluates when it is called
does not count, but the header of a nested function or class does. -/
def IsGeneratorFunction (body : List Stmt) : Prop :=
  YieldsIn ⟨false, true⟩ body

theorem Expr.Occurs.mono {lambdas lambdas' : Bool} {x e : Expr} (hle : lambdas = true → lambdas' = true)
    (h : x.Occurs lambdas e) : x.Occurs lambdas' e := by
  induction h with
  | here => exact .here
  | evaluated hpart _ ih => exact .evaluated hpart ih
  | deferred hlambdas hpart _ ih => exact .deferred (hle hlambdas) hpart ih

theorem InScope.mono {reach reach' : Reach} {x : Expr} {body : List Stmt}
    (hlambdas : reach.lambdas = true → reach'.lambdas = true)
    (hheaders : reach.headers = true → reach'.headers = true) (h : InScope reach x body) :
    InScope reach' x body := by
  obtain ⟨s, hs, e, he, hx⟩ := h
  refine ⟨s, hs, e, ?_, hx.mono hlambdas⟩
  rcases List.mem_append.mp he with he | he
  · exact List.mem_append_left _ he
  · split at he
    next htrue => exact List.mem_append_right _ (by rwa [if_pos (hheaders htrue)])
    · cases he

theorem isExprKind_yield {k : String} (h : k = "Yield" ∨ k = "YieldFrom") : IsExprKind k where
  stmt s hs := by
    cases s with
    | bare e => exact ⟨e, rfl⟩
    | _ => rcases h with rfl | rfl <;> simp [Stmt.kind] at hs <;> split at hs <;> simp at hs
  part := by rcases h with rfl | rfl <;> decide

theorem Expr.isYield_iff (e : Expr) : e.isYield = true ↔ e.kind = "Yield" ∨ e.kind = "YieldFrom" := by
  cases e <;> simp [isYield, kind]

theorem has_iff_inScope {k : String} (hk : IsExprKind k) (body : List Stmt) :
    Has k (stmtTrees body) ↔ ∃ x : Expr, x.kind = k ∧ InScope ⟨true, false⟩ x body := by
  refine (iff_within_of_step finds_stmts (has_stmt_exprs hk) body).trans ?_
  simp only [has_expr_iff_occurs hk, InScope, Bool.false_eq_true, if_false, List.append_nil]
  grind

theorem scopeHas_yield_iff (body : List Stmt) :
    Tree.scopeHas (fun k => k == "Yield" || k == "YieldFrom") (stmtTrees body) = true ↔
      YieldsIn ⟨true, false⟩ body := by
  have hor : Tree.scopeHas (fun k => k == "Yield" || k == "YieldFrom") (stmtTrees body) = true ↔
      Has "Yield" (stmtTrees body) ∨ Has "YieldFrom" (stmtTrees body) := by
    rw [← Tree.scopeHas_iff, ← Tree.scopeHas_iff]
    simp only [Tree.scopeHas, List.any_eq_true, Bool.or_eq_true]
    grind
  rw [hor, has_iff_inScope (isExprKind_yield (.inl rfl)), has_iff_inScope (isExprKind_yield (.inr rfl))]
  simp only [YieldsIn, Expr.isYield_iff, or_and_right, exists_or]

theorem yieldsIn_iff_isGeneratorFunction {body : List Stmt}
    (h : ∀ x : Expr, x.isYield = true → InScope ⟨true, true⟩ x body → InScope ⟨false, false⟩ x body) :
    YieldsIn ⟨true, false⟩ body ↔ IsGeneratorFunction body := by
  constructor
  · rintro ⟨x, hyield, hx⟩
    exact ⟨x, hyield, (h x hyield (hx.mono (by simp) (by simp))).mono (by simp) (by simp)⟩
  · rintro ⟨x, hyield, hx⟩
    exact ⟨x, hyield, (h x hyield (hx.mono (by simp) (by simp))).mono (by simp) (by simp)⟩

end Transpiler.Source
