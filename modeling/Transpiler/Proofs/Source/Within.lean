import Transpiler.Proofs.Source.Walk

/-!
# The statements of a scope

A search for a kind of statement looks into blocks within blocks, but not into functions and classes
(`scopeHas_iff_within`). One step of it is `has_stmt`: a statement has a node of the kind if it is of the kind
itself, or if one of its blocks has such a node.

An assignment may bind names at any depth of its targets (`Expr.boundNames`). The variables of a scope are only those
of them that stand for a target, or directly in a tuple that does (`mem_localNames_iff_bindsDirectly`).
-/

namespace Transpiler.Source

open Tree (allOf scopeNames)

inductive Within (s : Stmt) : List Stmt → Prop
  | among {body : List Stmt} (h : s ∈ body) : Within s body
  | inside {body block : List Stmt} {outer : Stmt} (houter : outer ∈ body) (hblock : block ∈ outer.blocks)
      (h : Within s block) : Within s body

def clauseKinds : List String :=
  ["ExceptHandler", "match_case", "MatchValue", "withitem", "alias"]

structure IsStmtKind (kind : String) : Prop where
  expr : ∀ e : Expr, e.kind ≠ kind
  part : kind ∉ partKinds ++ clauseKinds

/-! ### One step of a search -/

def MatchCase.exprs : MatchCase → List Expr
  | .mk _ value guard _ => [value, guard]

def Stmt.evaluated : Stmt → List Expr
  | .ret _ value | .expr _ value | .bare value => [value]
  | .delete _ targets => targets
  | .assign _ targets value => targets ++ [value]
  | .augAssign _ a _ b | .raise _ a b | .assertion _ a b | .forLoop _ _ a b _ _ => [a, b]
  | .annAssign _ target annotation value => [target, annotation, value]
  | .whileLoop _ test _ _ | .ifElse _ test _ _ => [test]
  | .withBlock _ _ items _ => items.flatMap fun w => [w.context, w.target]
  | .tryBlock _ _ _ handlers _ _ => handlers.map Handler.type
  | .matchBlock _ subject cases => subject :: cases.flatMap MatchCase.exprs
  | .functionDef .. | .classDef .. | .importNames .. | .importFrom .. | .global .. | .nonlocal .. | .pass _
  | .breakLoop _ | .continueLoop _ => []

def Stmt.targets : Stmt → List Expr
  | .assign _ targets _ => targets
  | .annAssign _ target _ _ => [target]
  | _ => []

open Tree (Finds)

theorem finds_stmts {φ : Info → Prop} (body : List Stmt) : Finds φ (stmtTrees body) ↔ ∃ s ∈ body, Finds φ s.trees := by
  induction body with
  | nil => simp [stmtTrees]
  | cons _ _ ih => simp [stmtTrees, ih]

theorem finds_exprs {φ : Info → Prop} {es : List Expr} : Finds φ (exprTrees es) ↔ ∃ e ∈ es, Finds φ e.trees := by
  induction es with
  | nil => simp [exprTrees]
  | cons _ _ ih => simp [exprTrees, ih]

section

variable {φ : Info → Prop} (hφ : ∀ kind ∈ clauseKinds, ∀ pos, ¬ φ ⟨kind, pos, []⟩)

include hφ

theorem finds_handlers (handlers : List Handler) : Finds φ (handlerTrees handlers) ↔
    (∃ e ∈ handlers.map Handler.type, Finds φ e.trees) ∨
      ∃ block ∈ handlers.map Handler.body, Finds φ (stmtTrees block) := by
  induction handlers with
  | nil => simp [handlerTrees]
  | cons first _ ih =>
    obtain ⟨p, _, _, _⟩ := first
    have hnot := hφ "ExceptHandler" (by simp [clauseKinds]) p
    rw [handlerTrees, Tree.finds_cons, ih]
    simp only [Tree.finds_plain, hnot, Tree.opensScope, Tree.finds_append, Handler.type, Handler.body,
      List.map_cons, List.mem_cons, or_and_right, exists_or, exists_eq_left]
    grind

theorem finds_cases (cases : List MatchCase) : Finds φ (caseTrees cases) ↔
    (∃ e ∈ cases.flatMap MatchCase.exprs, Finds φ e.trees) ∨
      ∃ block ∈ cases.map MatchCase.body, Finds φ (stmtTrees block) := by
  induction cases with
  | nil => simp [caseTrees]
  | cons first _ ih =>
    obtain ⟨p, _, _, _⟩ := first
    have hcase := hφ "match_case" (by simp [clauseKinds]) none
    have hvalue := hφ "MatchValue" (by simp [clauseKinds]) p
    rw [caseTrees, Tree.finds_cons, ih, Tree.finds_plain, Tree.finds_cons]
    simp only [Tree.finds_plain, hcase, hvalue, Tree.opensScope, Tree.finds_append, MatchCase.exprs,
      MatchCase.body, List.map_cons, List.flatMap_cons, List.cons_append, List.nil_append, List.mem_cons,
      or_and_right, exists_or, exists_eq_left]
    grind

/-- A condition holds of a node in the scope of a statement if it holds of the statement itself, or of a node
in one of its expressions or blocks. -/
theorem finds_stmt (s : Stmt) : Finds φ s.trees ↔
    ((∀ e, s ≠ .bare e) ∧ φ ⟨s.kind, s.pos, s.targets.flatMap targetNames⟩) ∨
      (∃ e ∈ s.evaluated, Finds φ e.trees) ∨ ∃ block ∈ s.blocks, Finds φ (stmtTrees block) := by
  cases s with
  | functionDef p isAsync | forLoop p isAsync =>
    cases isAsync <;>
    simp [Stmt.trees, Stmt.kind, Stmt.pos, Stmt.targets, Stmt.blocks, Stmt.evaluated, Tree.opensScope, or_assoc]
  | withBlock _ isAsync items =>
    have hnot := hφ "withitem" (by simp [clauseKinds]) none
    have hitems : Finds φ (items.map WithItem.tree) ↔
        ∃ e ∈ items.flatMap fun w => [w.context, w.target], Finds φ e.trees := by
      simp [Tree.finds_map, WithItem.tree, hnot, Tree.opensScope]
      grind
    cases isAsync <;>
    simp [Stmt.trees, Stmt.kind, Stmt.pos, Stmt.targets, Stmt.blocks, Stmt.evaluated, Tree.opensScope, hitems]
  | tryBlock _ star _ handlers =>
    have hhandlers := finds_handlers hφ handlers
    cases star <;>
    · simp [Stmt.trees, Stmt.kind, Stmt.pos, Stmt.targets, Stmt.blocks, Stmt.evaluated, Tree.opensScope, hhandlers,
        or_and_right, exists_or]
      grind
  | importNames p names | importFrom p _ names =>
    have hnot (pos : At) := hφ "alias" (by simp [clauseKinds]) pos
    simp [Stmt.trees, Stmt.kind, Stmt.pos, Stmt.targets, Stmt.blocks, Stmt.evaluated, Tree.finds_map, Alias.tree, hnot]
  | _ =>
    simp [Stmt.trees, Stmt.kind, Stmt.pos, Stmt.targets, Stmt.blocks, Stmt.evaluated, Tree.opensScope, finds_exprs,
      finds_cases hφ, or_and_right, exists_or, or_assoc]

end

/-! ### Statements within -/

theorem iff_within_of_step {P : List Stmt → Prop} {Q R : Stmt → Prop} (hmem : ∀ body, P body ↔ ∃ s ∈ body, Q s)
    (hstep : ∀ s : Stmt, Q s ↔ R s ∨ ∃ block ∈ s.blocks, P block) (body : List Stmt) :
    P body ↔ ∃ s, Within s body ∧ R s := by
  constructor
  · intro h
    obtain ⟨s, hs, h⟩ := (hmem body).mp h
    rcases (hstep s).mp h with hR | ⟨block, hblock, h⟩
    · exact ⟨s, .among hs, hR⟩
    · have := List.sizeOf_lt_of_mem hs
      have := sizeOf_block hblock
      obtain ⟨t, ht, hR⟩ := (iff_within_of_step hmem hstep block).mp h
      exact ⟨t, .inside hs hblock ht, hR⟩
  · rintro ⟨s, hs, hR⟩
    induction hs with
    | among hs => exact (hmem _).mpr ⟨s, hs, (hstep s).mpr (.inl hR)⟩
    | inside houter hblock _ ih =>
      exact (hmem _).mpr ⟨_, houter, (hstep _).mpr (.inr ⟨_, hblock, ih⟩)⟩
termination_by sizeOf body

abbrev Tree.Has (kind : String) : List Tree → Prop :=
  Finds (·.kind = kind)

open Tree (Has)

variable {k : String}

theorem Tree.scopeHas_iff {ts : List Tree} : scopeHas (· == k) ts = true ↔ Has k ts := by
  simp only [scopeHas, walkScope, walk_eq_metAll, List.any_eq_true, beq_iff_eq, Has, Finds]
  constructor
  · rintro ⟨t, ht, u, hu, hk⟩
    refine ⟨u, ?_, hk⟩
    rw [metAll_eq_flatMap, List.mem_flatMap]
    exact ⟨t, List.mem_reverse.mpr ht, by simpa [metAll] using hu⟩
  · rintro ⟨u, hu, hk⟩
    rw [metAll_eq_flatMap, List.mem_flatMap] at hu
    obtain ⟨t, ht, hu⟩ := hu
    exact ⟨t, List.mem_reverse.mp ht, u, by simpa [metAll] using hu, hk⟩

section

variable (hk : IsStmtKind k)

include hk

theorem not_has_expr (e : Expr) : ¬ Has k e.trees := by
  refine Tree.not_finds (e.allOf_trees (φ := fun i => i.kind != k) ⟨fun e => by simp [hk.expr e], ?_⟩) (by simp)
  exact fun _ hkind _ => bne_iff_ne.mpr fun heq => hk.part (List.mem_append_left _ (heq ▸ hkind))

theorem ne_of_isStmtKind : ∀ kind ∈ clauseKinds, ∀ pos : At, ¬ (Info.mk kind pos []).kind = k :=
  fun _ hkind _ heq => hk.part (List.mem_append_right _ (heq ▸ hkind))

theorem has_stmt (s : Stmt) : Has k s.trees ↔ s.kind = k ∨ ∃ block ∈ s.blocks, Has k (stmtTrees block) := by
  refine (finds_stmt (ne_of_isStmtKind hk) s).trans ?_
  have hbare (h : s.kind = k) (e : Expr) : s ≠ .bare e := by
    rintro rfl
    exact hk.expr e h
  simp only [not_has_expr hk, and_false, exists_false, false_or]
  grind

theorem has_iff_within (body : List Stmt) : Has k (stmtTrees body) ↔ ∃ s, Within s body ∧ s.kind = k :=
  iff_within_of_step finds_stmts (has_stmt hk) body

theorem scopeHas_iff_within (body : List Stmt) :
    Tree.scopeHas (· == k) (stmtTrees body) = true ↔ ∃ s, Within s body ∧ s.kind = k := by
  rw [Tree.scopeHas_iff, has_iff_within hk]

theorem scopeHas_handlers_iff (handlers : List Handler) : Tree.scopeHas (· == k) (handlerTrees handlers) = true ↔
    ∃ h ∈ handlers, ∃ s, Within s h.body ∧ s.kind = k := by
  rw [Tree.scopeHas_iff]
  refine (finds_handlers (ne_of_isStmtKind hk) handlers).trans ?_
  simp only [not_has_expr hk, and_false, exists_false, false_or, has_iff_within hk, List.mem_map]
  grind

end

variable {t : Expr}

/-! ### Targets of a scope -/

mutual
def Stmt.scopeTargets : Stmt → List Expr
  | .assign _ targets _ => targets
  | .annAssign _ target _ _ => [target]
  | .forLoop _ _ _ _ body orelse | .whileLoop _ _ body orelse | .ifElse _ _ body orelse =>
    scopeTargets body ++ scopeTargets orelse
  | .withBlock _ _ _ body => scopeTargets body
  | .tryBlock _ _ body handlers orelse finalbody =>
    scopeTargets body ++ handlerTargets handlers ++ scopeTargets orelse ++ scopeTargets finalbody
  | .matchBlock _ _ cases => caseTargets cases
  | .functionDef .. | .classDef .. | .ret .. | .delete .. | .augAssign .. | .raise .. | .assertion ..
  | .importNames .. | .importFrom .. | .global .. | .nonlocal .. | .expr .. | .pass _ | .breakLoop _
  | .continueLoop _ | .bare _ => []

def scopeTargets : List Stmt → List Expr
  | [] => []
  | s :: rest => s.scopeTargets ++ scopeTargets rest

def handlerTargets : List Handler → List Expr
  | [] => []
  | .mk _ _ _ body :: rest => scopeTargets body ++ handlerTargets rest

def caseTargets : List MatchCase → List Expr
  | [] => []
  | .mk _ _ _ body :: rest => scopeTargets body ++ caseTargets rest
end

mutual
def Expr.boundNames : Expr → List String
  | .name _ id => [id]
  | .tuple _ elts | .list _ elts => boundNamesAll elts
  | .starred _ target => target.boundNames
  | _ => []

def boundNamesAll : List Expr → List String
  | [] => []
  | target :: rest => target.boundNames ++ boundNamesAll rest
end

def Expr.BindsDirectly (x : String) : Expr → Prop
  | .name _ id => id = x
  | .tuple _ elts => ∃ p, .name p x ∈ elts
  | _ => False

/-! ### Names of a scope -/

variable {x : String}

theorem mem_handlerTargets {handlers : List Handler} :
    t ∈ handlerTargets handlers ↔ ∃ block ∈ handlers.map Handler.body, t ∈ scopeTargets block := by
  induction handlers with
  | nil => simp [handlerTargets]
  | cons h _ ih =>
    obtain ⟨_, _, _, _⟩ := h
    simp [handlerTargets, Handler.body, ih]

theorem mem_caseTargets {cases : List MatchCase} :
    t ∈ caseTargets cases ↔ ∃ block ∈ cases.map MatchCase.body, t ∈ scopeTargets block := by
  induction cases with
  | nil => simp [caseTargets]
  | cons c _ ih =>
    obtain ⟨_, _, _, _⟩ := c
    simp [caseTargets, MatchCase.body, ih]

theorem mem_scopeTargets_stmt (s : Stmt) :
    t ∈ s.scopeTargets ↔ t ∈ s.targets ∨ ∃ block ∈ s.blocks, t ∈ scopeTargets block := by
  cases s <;> simp [Stmt.scopeTargets, Stmt.targets, Stmt.blocks, mem_handlerTargets, mem_caseTargets] <;> grind

theorem mem_scopeTargets (body : List Stmt) : t ∈ scopeTargets body ↔ ∃ s, Within s body ∧ t ∈ s.targets := by
  refine iff_within_of_step (Q := fun s => t ∈ s.scopeTargets) (fun body => ?_) mem_scopeTargets_stmt body
  induction body with
  | nil => simp [scopeTargets]
  | cons _ _ ih => simp [scopeTargets, ih]

theorem mem_scopeNames_block (body : List Stmt) :
    x ∈ scopeNames (stmtTrees body) ↔ ∃ t ∈ scopeTargets body, x ∈ targetNames t := by
  have hexpr (e : Expr) : ¬ Tree.Finds (x ∈ ·.assigned) e.trees :=
    Tree.not_finds (e.allOf_trees (φ := (·.assigned.isEmpty)) ⟨fun _ => rfl, fun _ _ _ => rfl⟩) (by simp_all)
  have hstep (s : Stmt) : Tree.Finds (x ∈ ·.assigned) s.trees ↔
      x ∈ s.targets.flatMap targetNames ∨ ∃ block ∈ s.blocks, Tree.Finds (x ∈ ·.assigned) (stmtTrees block) := by
    refine (finds_stmt (by simp) s).trans ?_
    have hbare (e : Expr) (h : s = .bare e) : s.targets = [] := by rw [h]; rfl
    simp only [hexpr, and_false, exists_false, false_or]
    grind
  rw [Tree.mem_scopeNames, iff_within_of_step finds_stmts hstep]
  simp only [mem_scopeTargets, List.mem_flatMap]
  grind

theorem mem_targetNames : x ∈ targetNames t ↔ isDirective x = false ∧ t.BindsDirectly x := by
  cases t with
  | name =>
    rw [targetNames, Expr.BindsDirectly]
    split
    next h =>
      simp only [List.not_mem_nil, false_iff, not_and]
      rintro hx rfl
      simp [h] at hx
    · simp only [List.mem_singleton]
      grind
  | tuple =>
    simp only [targetNames, Expr.BindsDirectly, List.mem_filterMap]
    constructor
    · rintro ⟨_, he, hx⟩
      split at hx
      next q id =>
        split at hx
        · cases hx
        next hid =>
          cases hx
          exact ⟨by simpa using hid, q, he⟩
      · cases hx
    · rintro ⟨hx, _, hq⟩
      exact ⟨_, hq, by simp [hx]⟩
  | _ => simp [targetNames, Expr.BindsDirectly]

theorem mem_localNames_iff_bindsDirectly {body : List Stmt} : x ∈ localNames body ↔
    isDirective x = false ∧ ∃ t ∈ scopeTargets body, t.BindsDirectly x := by
  rw [mem_localNames, mem_scopeNames_block]
  simp only [mem_targetNames]
  grind

end Transpiler.Source
