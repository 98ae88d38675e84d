import Transpiler.Proofs.Meaning.Stmt
import Transpiler.Proofs.Source.Walk

/-!
# The meaning of compiled functions

The variables that the statements of the core assign are met by a walk of their scope
(`mem_localNames_of_areCore`), so they are declared at the start of the function. A module that consists of one function of the core is compiled to a script that declares the function
(`keeps_compileDefinition`), and a call of it comes to the same as in the source
(`callScript_compileScript`). This is so but for two kinds of function: positional-only parameters are
lost, and an assignment to the name of the default export is no assignment.
-/

namespace Transpiler.Meaning

open Compile
open Script (Js Origin Slot)
open Source (At Expr Param Params Stmt Tree allOf_stmtTrees localNames stmtTrees)
open Source.Tree (allOf scopeNames)

variable {lists : List String} {args : List Param} {name x : String} {body : List Stmt}

/-! ### Assigned variables -/

theorem mem_scopeNames_of_forall
    (h : ∀ s ∈ body, x ∈ assignedNames s → x ∈ scopeNames s.trees) (hx : x ∈ assignedNamesAll body) :
    x ∈ scopeNames (stmtTrees body) := by
  induction body with
  | nil => simp [assignedNamesAll] at hx
  | cons _ _ ih =>
    rw [List.forall_mem_cons] at h
    rw [assignedNamesAll, List.mem_append] at hx
    rw [stmtTrees, Tree.mem_scopeNames_append]
    exact hx.imp h.1 (ih h.2)

theorem stmtClosed_scopeNames (hx : Source.isDirective x = false) :
    StmtClosed lists fun s => x ∈ assignedNames s → x ∈ scopeNames s.trees where
  assign p q y e _ _ hmem := by
    obtain rfl : x = y := by simpa [assignedNames] using hmem
    rw [Stmt.trees, Tree.mem_scopeNames_node]
    exact .inl (by simp [Source.targetNames, hx])
  augAssign p q y op e _ _ hmem := by simp [assignedNames] at hmem
  ifElse p test body orelse _ hbody horelse hmem := by
    rw [assignedNames, List.mem_append] at hmem
    rw [Stmt.trees, Tree.mem_scopeNames_plain rfl, Tree.mem_scopeNames_append, Tree.mem_scopeNames_append]
    rcases hmem with hmem | hmem
    · exact .inl (.inr (mem_scopeNames_of_forall hbody hmem))
    · exact .inr (mem_scopeNames_of_forall horelse hmem)
  whileLoop p test body _ hbody hmem := by
    rw [Stmt.trees, Tree.mem_scopeNames_plain rfl, Tree.mem_scopeNames_append, Tree.mem_scopeNames_append]
    exact .inl (.inr (mem_scopeNames_of_forall hbody hmem))
  forLoop p q y q' ys body _ _ hbody hmem := by
    rw [Stmt.trees, Tree.mem_scopeNames_plain rfl, Tree.mem_scopeNames_append, Tree.mem_scopeNames_append]
    exact .inl (.inr (mem_scopeNames_of_forall hbody hmem))
  breakLoop p hmem := by simp [assignedNames] at hmem
  continueLoop p hmem := by simp [assignedNames] at hmem
  pass p hmem := by simp [assignedNames] at hmem
  ret p e _ hmem := by simp [assignedNames] at hmem

theorem mem_localNames_of_areCore (hx : Source.isDirective x = false)
    (h : areCore lists body = true) (hmem : x ∈ assignedNamesAll body) : x ∈ Source.localNames body :=
  Source.mem_localNames.mpr (mem_scopeNames_of_forall ((stmtClosed_scopeNames hx).cores body h) hmem)

/-! ### Generators -/

def noYield (i : Source.Info) : Bool :=
  !(i.kind == "Yield" || i.kind == "YieldFrom")

theorem exprClosed_noYield : ExprClosed fun e => allOf noYield e.trees = true where
  number p digits := rfl
  bool p b := rfl
  name p x _ := rfl
  neg p e he := by simp [Expr.trees, noYield, he]
  not p e he := by simp [Expr.trees, noYield, he]
  binOp p left op right _ hleft hright := by simp [Expr.trees, noYield, hleft, hright]
  ifExp p test body orelse htest hbody horelse := by
    simp [Expr.trees, noYield, htest, hbody, horelse]
  compare p left ops es _ hleft hes := by
    simp [Expr.trees, noYield, hleft, Source.allOf_exprTrees.mpr hes]
  boolOp p op es hes := by simp [Expr.trees, noYield, Source.allOf_exprTrees.mpr hes]

theorem stmtClosed_noYield : StmtClosed lists fun s => allOf noYield s.trees = true where
  assign p q x e _ he := by
    simp [Stmt.trees, Source.exprTrees, Expr.trees, noYield, exprClosed_noYield.integer e he]
  augAssign p q x op e _ he := by
    simp [Stmt.trees, Expr.trees, noYield, exprClosed_noYield.integer e he]
  ifElse p test body orelse htest hbody horelse := by
    simp [Stmt.trees, noYield, exprClosed_noYield.condition test htest,
      allOf_stmtTrees.mpr hbody, allOf_stmtTrees.mpr horelse]
  whileLoop p test body htest hbody := by
    simp [Stmt.trees, stmtTrees, noYield, exprClosed_noYield.condition test htest,
      allOf_stmtTrees.mpr hbody]
  forLoop p q x q' xs body _ _ hbody := by
    simp [Stmt.trees, stmtTrees, Expr.trees, noYield, allOf_stmtTrees.mpr hbody]
  breakLoop p := rfl
  continueLoop p := rfl
  pass p := rfl
  ret p e he := by simp [Stmt.trees, noYield, exprClosed_noYield.integer e he]

theorem isGenerator_of_areCore (h : areCore lists body = true) : Compile.isGenerator body = false :=
  Tree.scopeHas_eq_false (allOf_stmtTrees.mpr (stmtClosed_noYield.cores body h))

/-! ### Definitions -/

variable {templates : Templates} {cfg : Config} {s : Session} {ps : Params}

def byPosition (args : List Param) : Params :=
  ⟨[], args, none, [], [], none, []⟩

theorem exists_of_arePlainParams (h : arePlainParams ps = true) (hpos : ps.posOnly = []) :
    ∃ args, ps = byPosition args ∧ ∀ a ∈ args, isPlainName a.name = true := by
  obtain ⟨posOnly, args, _, _, _, _, _⟩ := ps
  obtain rfl : posOnly = [] := hpos
  simp only [arePlainParams, parameters?, Bool.and_eq_true, List.isEmpty_iff, List.nil_append, List.all_eq_true] at h
  obtain ⟨⟨⟨hsome, rfl⟩, rfl⟩, hplain⟩ := h
  split at hsome
  next hnone =>
    obtain ⟨⟨hvararg, rfl⟩, hkwarg⟩ := hnone
    rw [Option.isNone_iff_eq_none] at hvararg hkwarg
    subst hvararg hkwarg
    exact ⟨args, rfl, hplain⟩
  · cases hsome

theorem positional_byPosition (h : ∀ a ∈ args, isPlainName a.name = true) :
    positional false (byPosition args) = args.map (·.name) := by
  cases args with
  | nil => rfl
  | cons a =>
    have hself : a.name ≠ "self" := by
      intro hself
      have := h a (by simp)
      rw [hself] at this
      revert this
      decide
    simp [positional, byPosition, hself]

theorem taken_byPosition (names : List String) (args : List Param) :
    parameterNames names (byPosition args) ++ (byPosition args).kwOnly.map (·.name) = names := by
  simp [parameterNames, byPosition]

theorem inOrder_compileParam (here : Place) (names : List String) :
    inOrder ((names.zip (List.replicate names.length .none)).map (compileParam cfg here)) =
      pure (names.map Js.text) := by
  induction names with
  | nil => rfl
  | cons _ _ ih =>
    rw [inOrder] at ih ⊢
    simp only [List.length_cons, List.replicate_succ, List.zip_cons_cons, List.map_cons,
      List.mapM_cons, ih, compileParam, id, pure_bind]

theorem keeps_checkFunction (here : Place) (p : At) (name : String) (args : List Param) :
    Keeps (checkFunction cfg here ⟨p, false, name, byPosition args, []⟩) s fun _ => True := by
  unfold checkFunction
  refine (Keeps.refuseIf _ _ _).bind fun _ _ => (Keeps.refuseIf _ _ _).bind fun _ _ => ?_
  refine (Keeps.refuseIf _ _ _).bind fun _ _ => ?_
  exact (Keeps.refuseIf _ _ _).imp fun _ _ => trivial

theorem ends_openScope (taken : List String) (body : List Stmt) : Ends (openScope taken body) s fun vars t =>
    (∀ x ∈ localNames body, x ∈ taken ∨ x ∈ s.context.vars ∨ x ∈ vars) ∧
      t = s.withEntry Context.varsKey (.names (s.context.vars ++ vars)) := by
  refine Ends.get.bind ?_
  rintro _ s ⟨rfl, rfl⟩
  refine (ends_setEntry _ _ _).bind ?_
  rintro _ _ rfl
  refine .pure ⟨fun x hx => ?_, rfl⟩
  by_cases htaken : x ∈ taken
  · exact .inl htaken
  · by_cases hupper : x ∈ s.context.vars
    · exact .inr (.inl hupper)
    · exact .inr (.inr (by simp [hx, htaken, hupper]))

/-- What a function of the core is compiled to: a function with the same name and parameters, whose
body declares the variables of the source and does what the source does. -/
structure IsDefinition (cfg : Config) (N : Int) (name : String) (params : List String)
    (body : List Stmt) (j : Js) : Prop where
  exists_func : ∃ o vars js, j = .func o .plain (some name) (params.map Js.text)
      (declaring (cfg.origin none) vars js) .absent [] ∧
    (∀ x ∈ localNames body, x ∈ params ∨ x ∈ vars) ∧ RefinesAll N body js

theorem formOf_top (p : At) (name : String) (ps : Params) (count : Nat) :
    formOf .top ⟨p, false, name, ps, []⟩ false count = pure (.func .plain) := by
  simp [formOf, Place.top]

section

variable {p : At} (hname : isPlainName name = true) (hargs : ∀ a ∈ args, isPlainName a.name = true)
  (hbody : areCore lists body = true)

include hname hargs hbody

theorem keeps_compileFunction (hvars : s.context.vars = []) {compileBody : Place → Run (List Js)}
    (hcompile : ∀ here t, t.lastNumber = s.lastNumber → Keeps (compileBody here) t (RefinesAll s.lastNumber body)) :
    Keeps (inFrame (compileFunction cfg .top ⟨p, false, name, byPosition args, []⟩ body compileBody)) s
      (IsDefinition cfg s.lastNumber name (args.map (·.name)) body) := by
  refine .inFrame ?_
  unfold compileFunction
  refine (keeps_checkFunction _ p name args).endsBind fun _ _ => ?_
  refine (ends_openScope _ body).bind ?_
  rintro vars _ ⟨hcover, rfl⟩
  rw [isGenerator_of_areCore hbody, formOf_top, pure_bind]
  have hparams : withDefaults (positional false (byPosition args)) (byPosition args) =
      (args.map (·.name)).zip (List.replicate (args.map (·.name)).length .none) := by
    rw [positional_byPosition hargs]
    simp [withDefaults, byPosition]
  have howner : Place.top.owner.isSome = false := rfl
  have hnormal : normalizeName name = name := by
    simp only [isPlainName, Bool.and_eq_true, beq_iff_eq] at hname
    exact hname.1.1.1
  dsimp only [functionNode]
  rw [howner, hparams, inOrder_compileParam, pure_bind, hnormal]
  refine Keeps.endsBind (P := fun b => ∃ js, b = declaring (cfg.origin none) vars js ∧
    RefinesAll s.lastNumber body js) ?_ ?_
  · exact (hcompile _ _ (by simp)).map fun js hjs => ⟨js, rfl, hjs⟩
  · rintro _ ⟨js, rfl, hjs⟩
    have hnamed : compileKeywordParams cfg (Place.top.inside name false) (byPosition args) = pure [] :=
      rfl
    rw [hnamed, pure_bind]
    refine .pure ⟨by simp, ⟨_, vars, js, rfl, fun x hx => ?_, hjs⟩⟩
    have hupper : s.entered.context.vars = [] := by
      rw [← hvars]
      rfl
    rcases hcover x hx with h | h | h
    · rw [howner, positional_byPosition hargs, taken_byPosition] at h
      exact .inl h
    · rw [hupper] at h
      cases h
    · exact .inr h

theorem keeps_compileDefinition {returns : Expr}
    (hdefault : cfg.es6 = true → "__default__" ∉ assignedNamesAll body) (hstart : -1 ≤ s.lastNumber)
    (hvars : s.context.vars = []) : Keeps (compileStmt templates cfg .top
        (.functionDef p false name (byPosition args) body [] returns)) s
      (IsDefinition cfg s.lastNumber name (args.map (·.name)) body) := by
  rw [compileStmt]
  refine keeps_compileFunction hname hargs hbody hvars fun _ t ht => ?_
  rw [← ht] at hstart ⊢
  exact keeps_compileBlock hstart hbody hdefault

end

/-! ### Modules -/

theorem localNames_functionDef (p : At) (name : String) (ps : Params) (body : List Stmt)
    (returns : Expr) : localNames [.functionDef p false name ps body [] returns] = [] := by
  refine List.eq_nil_iff_forall_not_mem.mpr fun x hx => ?_
  rw [Source.mem_localNames, Source.stmtTrees, Source.stmtTrees, Stmt.trees, List.append_nil, Tree.plain,
    Tree.mem_scopeNames_node] at hx
  simp [Tree.opensScope] at hx

theorem ends_compileBody {f : Stmt} {P : Js → Prop} (hnames : localNames [f] = [])
    (h : Keeps (compileStmt templates cfg .top f) (s.withEntry Context.varsKey (.names [])) P) :
    Ends (compileBody templates cfg .top [f]) s fun j t =>
      (∃ k, j = .statements (cfg.origin none) [k] ∧ P k) ∧ t = s.withEntry Context.varsKey (.names []) := by
  unfold compileBody
  rw [hnames]
  refine (ends_setEntry _ _ _).bind ?_
  rintro _ _ rfl
  rw [compileBlock, compileBlock, bind_assoc]
  refine h.endsBind fun k hk => ?_
  rw [pure_bind, pure_bind]
  refine Ends.get.bind ?_
  rintro _ _ ⟨rfl, rfl⟩
  exact .pure ⟨⟨k, rfl, hk⟩, rfl⟩

theorem exists_of_compileScript {r : Request} (hr : r.bodyOnly = false) {f : Stmt} {script : Js}
    {P : Js → Prop} (hnames : localNames [f] = [])
    (h : Keeps (compileStmt compileTemplate (Config.standard r.es6 r.stage3) .top f)
      (Session.start.withEntry Context.varsKey (.names [])) P)
    (hscript : compileScript r [f] = .ok script) :
    ∃ o k, script = .statements o [k] ∧ P k := by
  simp only [compileScript, hr, selectBody, ok_bind, bind_eq_ok] at hscript
  obtain ⟨_, hcompiled, hscript⟩ := hscript
  unfold compileModule at hcompiled
  split at hcompiled
  next hrun =>
    cases hcompiled
    obtain ⟨⟨k, rfl, hk⟩, rfl⟩ := ends_compileBody hnames h _ _ hrun
    cases hscript
    exact ⟨_, k, rfl, hk⟩
  · cases hcompiled

/-! ### Calls -/

variable {n : Origin} {vars params : List String} {js : List Js}

theorem initialise_absent (σ : Env JsValue) : initialise vars (vars.map fun _ => .absent) σ = .done σ := by
  induction vars with
  | nil => rfl
  | cons _ _ ih => simpa [initialise, Js.isAbsent, Js.absent] using ih

theorem slot_of_staysInPlace {j : Js} (h : staysInPlace j = true) : j.slot = .other := by
  unfold staysInPlace at h
  split at h
  · cases h
  · simpa using h

theorem execSlots_eq_map (h : ∀ j ∈ js, staysInPlace j = true) (fuel : Nat) :
    execSlots fuel js = (execEach fuel js).map fun step => (.other, step) := by
  induction js with
  | nil => rfl
  | cons _ _ ih =>
    rw [List.forall_mem_cons] at h
    rw [execSlots, slot_of_staysInPlace h.1, ih h.2]
    · rfl
    · rintro _ _ rfl
      cases h.1

theorem arrange_variable_cons {α : Type} (first : α) (rest : List α) :
    Script.arrange ((Slot.variable, first) :: rest.map fun a => (.other, a)) = first :: rest := by
  have himport : (Slot.other == Slot.importing) = false := rfl
  have hvariable : (Slot.other == Slot.variable) = false := rfl
  cases rest with
  | nil => rfl
  | cons =>
    simp [Script.arrange, List.filter_map, Function.comp_def, himport, hvariable, bne]

theorem inSequence_declaring (h : ∀ j ∈ js, staysInPlace j = true) (fuel : Nat) (σ : Env JsValue) :
    inSequence (execEach fuel (declaring n vars js)) σ = inSequence (execEach fuel js) σ := by
  unfold declaring
  split
  · rfl
  · have hstep : execSlots fuel (.declare n .var true vars (vars.map fun _ => .absent) :: js) =
        (.variable, execJs fuel (.declare n .var true vars (vars.map fun _ => .absent))) ::
          (execEach fuel js).map fun step => (.other, step) := by
      rw [execSlots, execSlots_eq_map h]
      · rfl
      · rintro _ _ ⟨⟩
    rw [execEach, execEach, inSequence, execJs, hstep, arrange_variable_cons, inSequence, execJs, initialise_absent]
    exact Outcome.andThen_done _

theorem plainParams?_map_text (params : List String) : plainParams? (params.map Js.text) = some params := by
  induction params with
  | nil => rfl
  | cons _ _ ih => simp [plainParams?, ih]

theorem related_start (hparams : ∀ x ∈ params, isPlainName x = true) (declared : List String) (args : List Value) :
    Related declared (Env.bind params args .empty)
      (declareAll declared (Env.bind params (args.map Value.toJs) .empty)) := by
  have hagrees : Agrees (Env.bind params args .empty) (Env.bind params (args.map Value.toJs) .empty) :=
    Agrees.bind fun x v hv => by cases hv
  refine ⟨fun x v hv => ?_, fun x v hv => ?_, fun x hx => ?_⟩
  · rw [declareAll, hagrees x v hv]
    rfl
  · rcases Env.mem_of_bind_eq_some hv with hx | hx
    · exact isGenerated_of_isPlainName (hparams x hx)
    · cases hx
  · rw [declareAll]
    cases Env.bind params (args.map Value.toJs) .empty x with
    | some v => exact ⟨v, rfl⟩
    | none => exact ⟨.undefined, by simp [hx]⟩

theorem varNamesAll_declaring : varNamesAll (declaring n vars js) = vars ++ varNamesAll js := by
  unfold declaring
  split
  next h => rw [List.isEmpty_iff.mp h, List.nil_append]
  · simp [varNamesAll, varNames]

theorem IsDefinition.callScript_eq {N : Int} {f : Js} (h : IsDefinition cfg N name params body f)
    (hparams : ∀ x ∈ params, isPlainName x = true) (hbody : areCore lists body = true) (o : Origin)
    (fuel : Nat) (args : List Value)
    (hrun : (execBlock fuel body (Env.bind params args .empty)).answer ≠ .failed) :
    callScript fuel (.statements o [f]) name (args.map Value.toJs) =
      (execBlock fuel body (Env.bind params args .empty)).answer.map JsValue.number := by
  obtain ⟨o', vars, js, rfl, hcover, hjs⟩ := h.exists_func
  have hfunction : function? name (.statements o [.func o' .plain (some name) (params.map Js.text)
      (declaring (cfg.origin none) vars js) .absent []]) =
        some (params.map Js.text, declaring (cfg.origin none) vars js) := by
    simp [function?, Js.absent]
  simp only [callScript, hfunction, plainParams?_map_text]
  rw [inSequence_declaring hjs.inPlace, varNamesAll_declaring]
  refine (hjs.simulated _ ?_ ?_ fuel _ _ (related_start hparams _ args)).answer_eq hrun
  · exact List.subset_append_of_subset_right _ (List.subset_append_right _ _)
  · intro x hx
    rcases hcover x (mem_localNames_of_areCore (hjs.targets x hx) hbody hx) with hx | hx
    · exact List.mem_append_left _ hx
    · exact List.mem_append_right _ (List.mem_append_left _ hx)

/-- A call of a compiled function comes to the same as a call of the function of the source: it
returns the same number, or ends without one, or takes more turns than the bound. This holds of
every function of the core without positional-only parameters that, where exports are available, does
not assign to the name of the default export. -/
theorem callScript_compileScript {r : Request} (hr : r.bodyOnly = false) {p : At}
    {name : String} {ps : Params} {body : List Stmt} {returns : Expr} {lists : List String}
    (hname : isPlainName name = true) (hps : arePlainParams ps = true) (hpos : ps.posOnly = [])
    (hbody : areCore lists body = true)
    (hdefault : r.es6 = true → "__default__" ∉ assignedNamesAll body) {script : Js}
    (hscript : compileScript r [.functionDef p false name ps body [] returns] = .ok script)
    (fuel : Nat) (args : List Value) (hrun : callFunction fuel ps body args ≠ .failed) :
    callScript fuel script name (args.map Value.toJs) = (callFunction fuel ps body args).map JsValue.number := by
  obtain ⟨params, rfl, hplain⟩ := exists_of_arePlainParams hps hpos
  obtain ⟨o, f, rfl, hf⟩ := exists_of_compileScript hr (localNames_functionDef ..)
    (keeps_compileDefinition hname hplain hbody hdefault (by decide) (Session.vars_withVars _ _)) hscript
  have hparameters : parameters? (byPosition params) = some (params.map (·.name)) := rfl
  simp only [callFunction, hparameters] at hrun ⊢
  split at hrun
  next hlength =>
    rw [if_pos hlength]
    refine hf.callScript_eq (fun x hx => ?_) hbody o fuel args hrun
    obtain ⟨a, ha, rfl⟩ := List.mem_map.mp hx
    exact hplain a ha
  next => exact absurd rfl hrun

/-- The body of a function that counts the pairs of ascending elements of a list, up to the first pair
beyond a bound; negative elements are skipped. -/
def countPairs : List Stmt :=
  let name (x : String) : Expr := .name none x
  let number (digits : String) : Expr := .constant none (.number digits)
  let inner : List Stmt :=
    [.ifElse none (.compare none (name "x") [.lt, .ltE] [name "y", name "bound"])
      [.augAssign none (name "n") .add (number "1")]
      [.ifElse none (.compare none (name "y") [.gt] [name "bound"]) [.breakLoop none] []]]
  [.assign none [name "n"] (number "0"),
    .forLoop none false (name "x") (name "xs")
      [.ifElse none (.compare none (name "x") [.lt] [number "0"]) [.continueLoop none] [],
        .forLoop none false (name "y") (name "xs") inner []] [],
    .ret none (name "n")]

theorem callScript_countPairs : ∃ script, compileScript (.standard true false) [.functionDef none false "count"
          (byPosition [⟨none, "xs", .absent⟩, ⟨none, "bound", .absent⟩]) countPairs [] .absent] =
          .ok script ∧
      callScript 5 script "count" [.array [1, -1, 2, 3, 9], .number 3] = .returned (.number 3) ∧
      callScript 2 script "count" [.array [1, 2, 3], .number 3] = .exhausted := by
  have hname : isPlainName "count" = true := by decide +kernel
  have hparams : arePlainParams
      (byPosition [⟨none, "xs", .absent⟩, ⟨none, "bound", .absent⟩]) = true := by decide +kernel
  have hcore : areCore ["xs"] countPairs = true := by decide +kernel
  have hdefault : "__default__" ∉ assignedNamesAll countPairs := by decide +kernel
  obtain ⟨script, hscript⟩ := exists_of_isOk (x := compileScript (.standard true false) [.functionDef none false "count"
      (byPosition [⟨none, "xs", .absent⟩, ⟨none, "bound", .absent⟩]) countPairs [] .absent])
    (by decide +kernel)
  refine ⟨script, hscript, ?_, ?_⟩
  · exact (callScript_compileScript rfl hname hparams rfl hcore (fun _ => hdefault) hscript 5
      [.list [1, -1, 2, 3, 9], .int 3] (by decide +kernel)).trans (by decide +kernel)
  · exact (callScript_compileScript rfl hname hparams rfl hcore (fun _ => hdefault) hscript 2
      [.list [1, 2, 3], .int 3] (by decide +kernel)).trans (by decide +kernel)

/-- Positional-only parameters are lost: the compiled function cannot read its argument. -/
theorem callScript_positionalOnly :
    let ps : Params := { byPosition [] with posOnly := [⟨none, "a", .absent⟩] }
    let body : List Stmt := [.ret none (.name none "a")]
    arePlainParams ps = true ∧ areCore [] body = true ∧ callFunction 0 ps body [.int 1] = .returned 1 ∧
      ∃ script, compileScript (.standard false false) [.functionDef none false "f" ps body [] .absent] =
          .ok script ∧
        callScript 0 script "f" [.number 1] = .failed :=
  ⟨by decide +kernel, by decide +kernel, by decide +kernel, _, rfl, by decide +kernel⟩

-- An assignment to the name of the default export is an export, and the name is not declared.
example :
    let body : List Stmt := [.assign none [.name none "__default__"] (.constant none (.number "1")),
      .ret none (.name none "__default__")]
    callFunction 0 (byPosition []) body [] = .returned 1 ∧ ∃ script, compileScript (.standard true false)
          [.functionDef none false "f" (byPosition []) body [] .absent] = .ok script ∧
        callScript 0 script "f" [] = .failed :=
  ⟨by decide +kernel, _, rfl, by decide +kernel⟩

end Transpiler.Meaning
