import Transpiler.Proofs.Compile.Parameters
import Transpiler.Proofs.Source.Yields

/-!
# Kinds of functions

A definition keeps its kind if what is written for it is a generator exactly if it is a generator function, and is
asynchronous exactly if it is (`KeepsKind`). A function or method is written as a generator if the search for a
`yield` finds one, asynchronous or not. So its kind is kept exactly if the search is right about it and it is not
both (`keepsKind_iff_kindFound`).
-/

namespace Transpiler.Compile

open Script (Func Js Origin)
open Source (Expr InScope IsGeneratorFunction Stmt YieldsIn)

structure FunctionKind where
  generator : Bool
  async : Bool

/-- The kind of the function that a tree holds: on its own, as the member of a class, with the variable that it is
assigned to, or with the statement that binds it. -/
def functionKind? : Js → Option FunctionKind
  | .func _ f .. | .statements _ [.declare .., .func _ f ..] | .statements _ [.func _ f .., .exprStmt ..] =>
    some ⟨f = .generator, f = .async⟩
  | .member _ m .. => some ⟨m = .generator, m = .async⟩
  | _ => none

def FuncForm.kind : FuncForm → FunctionKind
  | .func f | .bound f => ⟨f = .generator, f = .async⟩
  | .arrow => ⟨false, false⟩
  | .member m .. => ⟨m = .generator, m = .async⟩

/-- What is written for a definition is a generator if the definition is a generator function, and asynchronous if
it is. -/
def KeepsKind (isAsync : Bool) (body : List Stmt) (j : Js) : Prop :=
  ∃ kind, functionKind? j = some kind ∧ (kind.generator = true ↔ IsGeneratorFunction body) ∧ kind.async = isAsync

/-- The search for a `yield` finds one exactly in a generator function, and not in an asynchronous one. -/
def KindFound (isAsync : Bool) (body : List Stmt) : Prop :=
  (YieldsIn ⟨true, false⟩ body ↔ IsGeneratorFunction body) ∧ ¬ (isAsync = true ∧ YieldsIn ⟨true, false⟩ body)

variable {templates : Templates} {cfg : Config} {here : Place} {s s' : Session} {j : Js} {body : List Stmt}

/-! ### Forms and kinds -/

theorem kind_methodForm (static : Bool) (name : String) : (methodForm static name).kind = ⟨false, false⟩ := by
  unfold methodForm
  split <;> rfl

theorem yields_kind_formOf {h : Header} (hinit : here.owner = none ∨ normalizeName h.name ≠ "__init__")
    (generator : Bool) (count : Nat) : Yields (formOf here h generator count) fun form =>
      form.kind = ⟨generator, h.isAsync && !generator⟩ := by
  refine Stays.yields fun c => ?_
  unfold formOf
  dsimp only
  split
  · generalize (!"fn_".toList.isPrefixOf h.name.toList && here.underClass) = inMethod
    cases inMethod <;> cases generator <;> cases h.isAsync <;> exact .pure rfl
  next howned =>
    have hname : normalizeName h.name ≠ "__init__" := hinit.resolve_left fun hfree => howned (by simp [hfree])
    refine stays_afterAccessor fun _ _ => ?_
    rw [if_neg (by simpa using hname)]
    cases generator with
    | true => exact .pure (by simp [FuncForm.kind])
    | false =>
      cases h.isAsync with
      | true => exact .pure rfl
      | false =>
        split
        next heq => cases heq
        next heq => cases heq
        · exact .pure rfl
        · exact (Stays.refuseIf _ _ _).bind fun _ _ => .pure rfl
        · exact .pure (kind_methodForm _ _)

theorem yields_kind_functionNode (h : Header) (form : FuncForm) (args : List (Run Js))
    (block named : Run (List Js)) : Yields (functionNode cfg h form args block named) fun j =>
      functionKind? j = some form.kind := by
  have hfunc (o : Origin) (f : Func) (name : String) (rest : Js) : Yields (do
      let args ← inOrder args
      let js ← block
      return Js.func o f (some name) args js rest (← named)) fun j =>
        ∃ args js named, j = .func o f (some name) args js rest named :=
    .andThen _ fun _ => .andThen _ fun _ => .andThen _ fun _ => .pure ⟨_, _, _, rfl⟩
  cases form with
  | func f =>
    refine (hfunc _ f _ _).imp ?_
    rintro _ ⟨_, _, _, rfl⟩
    rfl
  | arrow =>
    refine (hfunc _ .arrow _ _).bind ?_
    rintro _ ⟨_, _, _, rfl⟩
    exact .pure rfl
  | bound f =>
    refine (hfunc _ f _ _).bind ?_
    rintro _ ⟨_, _, _, rfl⟩
    exact .pure rfl
  | member _ _ _ _ takesNamed =>
    refine .andThen _ fun _ => .andThen _ fun _ => ?_
    cases takesNamed with
    | true => exact .andThen _ fun _ => .pure rfl
    | false => exact .pure rfl

theorem yields_kind_compileFunction {h : Header} (hinit : here.owner = none ∨ normalizeName h.name ≠ "__init__")
    (body : List Stmt) (compileBody : Place → Run (List Js)) :
    Yields (compileFunction cfg here h body compileBody) fun j =>
      functionKind? j = some ⟨isGenerator body, h.isAsync && !isGenerator body⟩ := by
  refine .andThen _ fun _ => .andThen _ fun _ => (yields_kind_formOf hinit _ _).bind fun _ hform => ?_
  rw [← hform]
  exact yields_kind_functionNode _ _ _ _ _

theorem isGenerator_iff (body : List Stmt) : isGenerator body = true ↔ YieldsIn ⟨true, false⟩ body :=
  Source.scopeHas_yield_iff body

theorem keepsKind_iff {isAsync : Bool}
    (hkind : functionKind? j = some ⟨isGenerator body, isAsync && !isGenerator body⟩) :
    KeepsKind isAsync body j ↔ KindFound isAsync body := by
  rw [KeepsKind, KindFound, ← isGenerator_iff]
  simp only [hkind, Option.some.injEq, exists_eq_left']
  cases isGenerator body <;> cases isAsync <;> simp

/-- The function definitions among some statements: whether each is asynchronous, its name and its body. -/
def functionDefs (stmts : List Stmt) : List (Bool × String × List Stmt) :=
  stmts.filterMap fun
    | .functionDef _ isAsync name _ body _ _ => some (isAsync, name, body)
    | _ => none

theorem forall₂_compileMethods {members : List Stmt} {js : List Js}
    (h : compileMethods templates cfg here members s = .ok js s') :
    List.Forall₂ (fun d j => normalizeName d.2.1 ≠ "__init__" → (KeepsKind d.1 d.2.2 j ↔ KindFound d.1 d.2.2))
      (functionDefs members) js := by
  induction members generalizing s js with
  | nil =>
    rw [compileMethods] at h
    obtain ⟨rfl, -⟩ := pure_eq_ok_iff.mp h
    exact .nil
  | cons first _ ih =>
    cases first with
    | functionDef p isAsync name params =>
      rw [compileMethods] at h
      simp only [bind_eq_ok_iff, pure_eq_ok_iff] at h
      obtain ⟨_, _, hj, _, _, hjs, rfl, rfl⟩ := h
      obtain ⟨_, hj, -⟩ := inFrame_eq_ok_iff.mp hj
      refine .cons (fun hname => ?_) (ih hjs)
      exact keepsKind_iff (yields_kind_compileFunction (h := ⟨p, isAsync, name, params, _⟩) (.inr hname) _ _ _ _ _ hj)
    | _ =>
      rw [compileMethods] at h
      · exact ih h
      · simp

/-- A function keeps its kind exactly if the search for a `yield` finds it, and so does a method that is no
constructor. It does so where no `yield` stands in a lambda or in the header of a nested function or class, unless
an asynchronous function is a generator function. -/
theorem keepsKind_iff_kindFound (templates : Templates) (cfg : Config) :
    (∀ here p isAsync name params body ds returns s j s', here.owner = none ∨ normalizeName name ≠ "__init__" →
      compileStmt templates cfg here (.functionDef p isAsync name params body ds returns) s = .ok j s' →
        (KeepsKind isAsync body j ↔ KindFound isAsync body)) ∧
    (∀ here members s js s', compileMethods templates cfg here members s = .ok js s' →
      List.Forall₂ (fun d j => normalizeName d.2.1 ≠ "__init__" → (KeepsKind d.1 d.2.2 j ↔ KindFound d.1 d.2.2))
        (functionDefs members) js) ∧
    ∀ isAsync body, (∀ x : Expr, x.isYield = true → InScope ⟨true, true⟩ x body → InScope ⟨false, false⟩ x body) →
      ¬ (isAsync = true ∧ IsGeneratorFunction body) → KindFound isAsync body := by
  refine ⟨?_, ?_, ?_⟩
  · intro here p isAsync name params body ds returns s j s' hinit h
    obtain ⟨_, h, -⟩ := inFrame_eq_ok_iff.mp h
    exact keepsKind_iff (yields_kind_compileFunction (h := ⟨p, isAsync, name, params, ds⟩) hinit _ _ _ _ _ h)
  · intro here members s js s' h
    exact forall₂_compileMethods h
  · intro isAsync body hown hasync
    have hiff := Source.yieldsIn_iff_isGeneratorFunction hown
    exact ⟨hiff, by rwa [hiff]⟩

def bareFunction (isAsync : Bool) (body : List Stmt) : Stmt :=
  .functionDef none isAsync "f" ⟨[], [], none, [], [], none, []⟩ body [] .absent

def yieldLoop : List Stmt :=
  [.whileLoop none (.name none "x") [.expr none (.yield none (.name none "x"))] []]

theorem keepsKind_yieldLoop : ∃ j s',
    compileStmt compileTemplate (.standard true false) .top (bareFunction false yieldLoop) .start = .ok j s' ∧
      KeepsKind false yieldLoop j := by
  obtain ⟨j, s', h⟩ : ∃ j s', compileStmt compileTemplate (.standard true false) .top
      (bareFunction false yieldLoop) .start = .ok j s' := ⟨_, _, rfl⟩
  refine ⟨j, s', h, ((keepsKind_iff_kindFound _ _).1 _ _ _ _ _ _ _ _ _ _ _ (.inl rfl) h).mpr ⟨?_, by simp⟩⟩
  have hyields (reach : Source.Reach) : YieldsIn reach yieldLoop :=
    ⟨.yield none (.name none "x"), rfl, _, .inside (.head _) (.head _) (.among (.head _)), _, .head _, .here⟩
  exact iff_of_true (hyields _) (hyields _)

def lambdaYield : List Stmt :=
  [.assign none [.name none "g"] (.lambda none ⟨[], [], none, [], none⟩ [] [] (.yield none (.name none "x")))]

def defaultYield : List Stmt :=
  [.functionDef none false "g" ⟨[], [⟨none, "a", .absent⟩], none, [], [], none, [.yield none (.name none "x")]⟩
    [.pass none] [] .absent]

theorem not_isGeneratorFunction_lambdaYield : ¬ IsGeneratorFunction lambdaYield := by
  rintro ⟨_, hyield, _, hs, e, he, hx⟩
  cases hs with
  | inside houter hblock =>
    obtain rfl := List.mem_singleton.mp houter
    cases hblock
  | among hs =>
    obtain rfl := List.mem_singleton.mp hs
    have hparts : e.evaluated = [] ∧ e.isYield = false := by
      simp only [Stmt.evaluated, Stmt.header, List.mem_append, List.mem_cons, List.not_mem_nil, or_false, if_true] at he
      rcases he with rfl | rfl <;> exact ⟨rfl, rfl⟩
    cases hx with
    | here => simp [hparts.2] at hyield
    | evaluated hpart => simp [hparts.1] at hpart
    | deferred hlambdas => cases hlambdas

/-- A function becomes a generator because of a `yield` in a lambda. An asynchronous generator function is no
longer asynchronous. A generator function is no longer one if its `yield` is the default of a nested function. -/
theorem functionKind_of_nested_yields :
    (∃ j s', compileStmt compileTemplate (.standard true false) .top (bareFunction false lambdaYield) .start =
        .ok j s' ∧ functionKind? j = some ⟨true, false⟩ ∧ ¬ IsGeneratorFunction lambdaYield) ∧
    (∃ j s', compileStmt compileTemplate (.standard true true) .top (bareFunction true yieldLoop) .start =
        .ok j s' ∧ functionKind? j = some ⟨true, false⟩) ∧
    ∃ j s', compileStmt compileTemplate (.standard true false) .top (bareFunction false defaultYield) .start =
        .ok j s' ∧ functionKind? j = some ⟨false, false⟩ ∧ IsGeneratorFunction defaultYield := by
  refine ⟨⟨_, _, rfl, rfl, not_isGeneratorFunction_lambdaYield⟩, ⟨_, _, rfl, rfl⟩, _, _, rfl, rfl, ?_⟩
  exact ⟨.yield none (.name none "x"), rfl, _, .among (.head _), _, .tail _ (.head _), .here⟩

end Transpiler.Compile
