import Transpiler.Proofs.Compile.Subtasks
import Transpiler.Proofs.Compile.WrittenExpr

/-!
# What is written for statements

The tree of a statement matches the marks of the statement (`emits_compileStmt`), and so do the trees
of the statements of a module (`emits_compileBody`).
-/

namespace Transpiler.Compile

open Script (Func Js Member Origin Trait featureIf traitsAll traitsAll_map_eq_nil)
open Source (Alias Expr Handler Params Ref Stmt localNames)

variable {c : Option String} {cfg : Config} {here : Place} {spot : Spot} {es6 : Bool} {bm : List Mark}
  {pm : List (List Mark)} {args js kwargs : List Js} {body : List Stmt} {names vars : List String} {α : Type}
  {P : α → Prop} {rest : Js} {ms nm : List Mark} {ps : Params} {generator : Bool} {p : String × Default}

/-! ### Functions -/

theorem supplied_parameterTraits (hargs : args.any Js.isAssign = true → es6 = true)
    (hkwargs : kwargs ≠ [] → es6 = true) : ∀ t ∈ Script.parameterTraits args kwargs, Supplied es6 t := by
  intro _ ht
  unfold Script.parameterTraits featureIf at ht
  rcases List.mem_append.mp ht with ht | ht
  · split at ht
    next hany =>
      cases List.mem_singleton.mp ht
      exact hargs hany
    · cases ht
  · split at ht
    next hany =>
      cases List.mem_singleton.mp ht
      exact hkwargs (by simpa using hany)
    · cases ht

theorem matches_declarations (h : vars ⊆ localNames body) :
    Matches es6 (declarationMarks body) (vars.map (Trait.name none)) := by
  constructor
  · intro _ ht
    obtain ⟨_, hv, rfl⟩ := List.mem_map.mp ht
    exact .inl ⟨_, List.mem_map_of_mem (h hv), rfl⟩
  · intro _ hm hsure
    obtain ⟨_, -, rfl⟩ := List.mem_map.mp hm
    cases hsure

theorem matches_declaring {n : Origin} (hvars : vars ⊆ localNames body) (h : Matches es6 bm (traitsAll js)) :
    Matches es6 (declarationMarks body ++ bm) (traitsAll (declaring n vars js)) := by
  have hdeclared := (matches_declarations hvars).append h
  unfold declaring
  split
  next hnil =>
    rw [List.isEmpty_iff.mp hnil] at hdeclared
    exact hdeclared
  · rw [traitsAll, Js.traits, traitsAll, traitsAll, Js.traits, traitsAll_map_eq_nil fun _ => rfl]
    simpa using hdeclared

theorem stays_openScope (taken : List String) (body : List Stmt) :
    Stays c (openScope taken body) fun vars => vars ⊆ localNames body := by
  refine .getBind fun s _ => (Stays.setEntry (by decide) _).bind fun _ _ => .pure ?_
  exact fun v hv => (List.mem_filter.mp hv).1

theorem stays_stepIf {Q : Prop} {x : Run Unit} {cond : Bool}
    (hx : Stays c x fun _ => Q) {k : Unit → Run α} (hk : (cond = true → Q) → Stays c (k ()) P) :
    Stays c (if cond = true then x >>= k else k ()) P := by
  split
  · exact hx.bind fun _ hQ => hk fun _ => hQ
  next hcond => exact hk fun h => absurd h hcond

theorem stays_checkFunction (h : Header) :
    Stays c (checkFunction cfg here h) fun _ => isElaborate h.params = true → cfg.es6 = true := by
  unfold checkFunction
  refine stays_stepIf (.guardFeature _ _ _) fun _ => ?_
  refine (Stays.refuseIf _ _ _).bind fun _ _ => (Stays.refuseIf _ _ _).bind fun _ _ => ?_
  refine stays_stepIf (.guardFeature _ _ _) fun hes6 => ?_
  exact (Stays.refuseIf _ _ _).bind fun _ _ => (Stays.refuseIf _ _ _).imp fun _ _ => hes6

def FuncForm.Fits (spot : Spot) (h : Header) (generator : Bool) : FuncForm → Prop
  | .func f => spot.owner.isNone = true ∧ inMethod spot h = false ∧ f ≠ .arrow ∧
      (f == .generator) = generator
  | .arrow => spot.owner.isNone = true ∧ inMethod spot h = true ∧ generator = false ∧
      h.isAsync = false
  | .bound f => spot.owner.isNone = true ∧ inMethod spot h = true ∧
      (generator || h.isAsync) = true ∧ f ≠ .arrow ∧ (f == .generator) = generator
  | .member m _ _ arity named => spot.owner.isNone = false ∧
      memberArity h generator = (arity, named) ∧
      (m == .generator) = (generator && normalizeName h.name != "__init__")

theorem stays_afterAccessor {k : Option Member × Bool → Run α} {decorator : Option Expr} {fault : Fault}
    (hk : ∀ found : Option Member × Bool, (decorator.bind accessor?).bind (·.1) = found.1 → Stays c (k found) P) :
    Stays c (match decorator with
      | none => pure (none, false) >>= k
      | some d => match accessor? d with
        | some found => pure found >>= k
        | none => throw fault >>= k) P := by
  split
  · exact hk _ rfl
  · split
    next found hfound => exact hk found (by simp [hfound])
    · exact .throwBind _

theorem exists_methodForm (static : Bool) (name : String) : ∃ m static' name', methodForm static name =
    .member m static' name' (accessArity name none).1 (accessArity name none).2 ∧ m ≠ .generator := by
  unfold accessArity methodForm
  dsimp only
  split <;> exact ⟨_, _, _, rfl, by simp⟩

theorem stays_formOf (hh : here.Fits cfg.es6 spot) (h : Header) (generator : Bool) (count : Nat) :
    Stays c (formOf here h generator count) (FuncForm.Fits spot h generator) := by
  unfold formOf
  rw [hh.isNone_owner, hh.underClass, ← inMethod]
  dsimp only
  split
  next hnone =>
    cases hin : inMethod spot h <;> cases hgen : generator <;> cases hasync : h.isAsync <;>
      exact .pure (by simp [FuncForm.Fits, hnone, hin, hasync])
  next hsome =>
    have howner : spot.owner.isNone = false := Bool.eq_false_iff.mpr hsome
    refine stays_afterAccessor fun found hfound => ?_
    split
    next hinit =>
      have hname : normalizeName h.name = "__init__" := by simpa using hinit
      exact .pure ⟨howner, by simp [memberArity, hname], by simp [hname]⟩
    next hinit =>
      have hname : normalizeName h.name ≠ "__init__" := by simpa using hinit
      cases hgen : generator with
      | true => exact .pure ⟨howner, by simp [memberArity], by simp [hname]⟩
      | false =>
        cases hasync : h.isAsync with
        | true => exact .pure ⟨howner, by simp [memberArity, hasync], by simp⟩
        | false =>
          have harity : memberArity h false = accessArity (normalizeName h.name) found.1 := by
            simp [memberArity, hname, hasync, hfound]
          split
          next heq => cases heq
          next heq => cases heq
          next hget => exact .pure ⟨howner, by rw [harity, hget]; rfl, by simp⟩
          next member hnot _ hset =>
            refine (Stays.refuseIf _ _ _).bind fun _ _ => .pure ⟨howner, ?_, by simp⟩
            rw [harity, hset]
            cases member <;> first | rfl | exact absurd rfl hnot
          next hmethod =>
            obtain ⟨_, _, _, hform, hm⟩ := exists_methodForm found.2 (normalizeName h.name)
            rw [hform]
            exact .pure ⟨howner, by rw [harity, hmethod], by simp [hm]⟩

/-- The form of a definition that is a member of a class leaves out the parameters that members of its
name do. -/
def FuncForm.Takes (isMember : Bool) (h : Header) (generator : Bool) : FuncForm → Prop
  | .member _ _ _ arity named => isMember = true ∧ memberArity h generator = (arity, named)
  | .func _ | .arrow | .bound _ => isMember = false

theorem yields_formOf (h : Header) (generator : Bool) (count : Nat) :
    Yields (formOf here h generator count) (FuncForm.Takes here.owner.isSome h generator) := by
  -- the form only depends on whether there is a class, so a place without superclasses will do
  have hplace : formOf here h generator count =
      formOf ⟨none, here.owner.map fun _ => ⟨none⟩, here.underClass⟩ h generator count := by
    simp [formOf]
  have hfits (cfg : Config) : Place.Fits cfg.es6 ⟨none, here.owner.map fun _ => ⟨none⟩, here.underClass⟩
      ⟨none, here.owner.map fun _ => none, here.underClass, none⟩ := by
    refine ⟨.none, ?_, rfl⟩
    cases here.owner with
    | none => exact .none
    | some => exact .some .none
  rw [hplace]
  refine (Stays.yields fun _ => stays_formOf (hfits default) h generator count).imp fun form hform => ?_
  cases form with
  | func f | arrow | bound f => simpa [FuncForm.Takes] using hform.1
  | member =>
    exact ⟨by simpa [Option.isSome_iff_ne_none] using hform.1, hform.2.1⟩

theorem Arity.map_select {α β : Type} (f : α → β) (params : List α) (arity : Arity) :
    (arity.select params).map f = arity.select (params.map f) := by
  cases arity <;> simp [Arity.select]

def kindMarks (f : Func) : List Mark :=
  (if f == .arrow then [.feature .arrow] else []) ++ (if f == .generator then [.feature .generator] else [])

theorem matches_kind (f : Func) : Matches es6 (kindMarks f)
    (featureIf (f == .arrow) .arrow ++ featureIf (f == .generator) .generator) := by
  cases f with
  | plain | async => exact .nil
  | generator | arrow => exact .mark rfl

section

variable {pm : List Mark} (hargs : Matches es6 pm (traitsAll args)) (hjs : Matches es6 bm (traitsAll js))
  (hnamed : Matches es6 nm (rest.traits ++ traitsAll kwargs))
  (hparams : ∀ t ∈ Script.parameterTraits args kwargs, Supplied es6 t)

include hargs hjs hnamed hparams

theorem matches_func (o : Origin) (f : Func) (name : String) :
    Matches es6 (kindMarks f ++ .occurrence ⟨o.source, name, .function⟩ :: (pm ++ bm ++ nm))
      (Js.func o f (some (normalizeName name)) args js rest kwargs).traits := by
  have hname : Matches es6 [.occurrence ⟨o.source, name, .function⟩] [.name o.source (normalizeName name)] := .mark rfl
  refine ((matches_kind f).append ((hname.append ((hargs.append hjs).append hnamed)).supply _ hparams)).congr
    (by simp) (by simp [Js.traits])

theorem matches_member (o : Origin) (m : Member) (static : Bool) (name : String) : Matches es6 (.feature .member ::
      ((if m == .generator then [.feature .generator] else []) ++ pm ++ bm ++ nm))
    (Js.member o m static name args js rest kwargs).traits := by
  have hkind : Matches es6 (if m == .generator then [.feature .generator] else [])
      (featureIf (m == .generator) .generator) := by
    unfold featureIf
    split
    · exact .mark rfl
    · exact .nil
  refine .cons rfl ((hkind.append (((hargs.append hjs).append hnamed).supply _ hparams)).congr (by simp) (by simp))

end

structure ParamFits (es6 : Bool) (c : Option String) (x : Run Js) (ms : List Mark) : Prop where
  emits : Emits es6 c x ms
  default : Yields x fun j => j.isAssign = true → es6 = true

theorem stays_params {args : List (Run Js)} (h : List.Forall₂ (ParamFits es6 c) args pm) :
    Stays c (inOrder args) fun js => Matches es6 pm.flatten (traitsAll js) ∧
      (js.any Js.isAssign = true → es6 = true) := by
  induction h with
  | nil => exact .pure ⟨.nil, by simp⟩
  | cons hparam _ ih =>
    unfold inOrder at ih ⊢
    rw [List.mapM_cons]
    refine (hparam.emits.and hparam.default).bind fun j hj => ih.bind fun _ hjs => .pure ⟨?_, ?_⟩
    · exact hj.1.append hjs.1
    · intro hany
      rw [List.any_cons, Bool.or_eq_true] at hany
      exact hany.elim hj.2 hjs.2

theorem matches_restParam (n : Origin) (hes6 : ps.vararg.isSome = true → es6 = true) :
    Matches es6 (ps.vararg.map (parameterMark ·.name)).toList (restParam n ps).traits := by
  unfold restParam
  split
  next ha =>
    rw [ha]
    exact (Matches.mark rfl).feature _ (hes6 (by simp [ha]))
  next ha =>
    rw [ha]
    exact .nil

theorem mem_definitionMarks {h : Header}
    (howner : spot.owner.isNone = true) (m : Mark) : m ∈ definitionMarks cfg spot h generator pm bm nm ↔
      m ∈ functionNameMarks cfg spot h generator ∨
        m ∈ (if generator then [Mark.feature .generator] else []) ∨ m ∈ pm.flatten ++ bm ++ nm := by
  simp only [definitionMarks, howner, if_true, List.mem_append, or_assoc]

theorem Arity.forall₂_select {β : Type} {R : α → β → Prop} {as : List α} {bs : List β}
    (h : List.Forall₂ R as bs) (arity : Arity) :
    List.Forall₂ R (arity.select as) (arity.select bs) := by
  cases arity with
  | none => exact .nil
  | one => exact List.forall₂_take 1 h
  | all => exact h

theorem emits_functionNode (h : Header) {form : FuncForm} (hform : form.Fits spot h generator) {args : List (Run Js)}
    (hargs : List.Forall₂ (ParamFits cfg.es6 c) args pm) {block named : Run (List Js)} {km : List Mark}
    (hblock : EmitsAll cfg.es6 c block bm) (hrest : h.params.vararg.isSome = true → cfg.es6 = true)
    (hnamed : Stays c named fun ks => Matches cfg.es6 km (traitsAll ks) ∧ (ks ≠ [] → cfg.es6 = true)) :
    Emits cfg.es6 c (functionNode cfg h form args block named) (definitionMarks cfg spot h generator pm bm
        ((h.params.vararg.map (parameterMark ·.name)).toList ++ km)) := by
  have hvararg := matches_restParam (cfg.origin none) hrest
  have hfunc (f : Func) : Emits cfg.es6 c (do
      let args ← inOrder args
      let js ← block
      return Js.func (cfg.origin (some h.ref)) f (some (normalizeName h.name)) args js
        (restParam (cfg.origin none) h.params) (← named)) (kindMarks f ++
          .occurrence ⟨cfg.nodeOf (some h.ref), h.name, .function⟩ ::
            (pm.flatten ++ bm ++ ((h.params.vararg.map (parameterMark ·.name)).toList ++ km))) := by
    refine (stays_params hargs).bind fun _ has => hblock.bind fun _ hjs => hnamed.bind fun _ hks =>
      .pure ?_
    exact matches_func has.1 hjs (hvararg.append hks.1) (supplied_parameterTraits has.2 hks.2) _ f h.name
  cases form with
  | func f =>
    obtain ⟨howner, hin, hf, rfl⟩ := hform
    refine (hfunc f).imp fun j hj => hj.congr (fun m => ?_) fun _ => .rfl
    rw [mem_definitionMarks howner]
    simp only [functionNameMarks, hin, kindMarks, beq_eq_false_iff_ne.mpr hf, List.mem_append, List.mem_cons]
    grind
  | arrow =>
    obtain ⟨howner, hin, rfl, hasync⟩ := hform
    refine (hfunc .arrow).bind fun j hj => .pure ?_
    have hname : Matches cfg.es6 [.occurrence ⟨none, h.name, .function⟩]
        [.name none (normalizeName h.name)] := .mark rfl
    refine (hname.append hj).congr (fun m => ?_) (by simp [Js.traits, Js.absent])
    rw [mem_definitionMarks howner]
    simp only [functionNameMarks, hin, hasync, kindMarks, List.mem_append, List.mem_cons]
    grind
  | bound f =>
    obtain ⟨howner, hin, hwrapped, hf, rfl⟩ := hform
    refine (hfunc f).bind fun j hj => .pure ?_
    have hnames : Matches cfg.es6 [.occurrence ⟨cfg.nodeOf none, h.name, .function⟩,
        .occurrence ⟨none, h.name, .function⟩]
        [.name (cfg.origin none).source (normalizeName h.name), .name none (normalizeName h.name)] :=
      .cons rfl (.mark rfl)
    refine (hj.append hnames).congr (fun m => ?_) (by simp [Js.traits, Js.isList, featureIf])
    rw [mem_definitionMarks howner]
    simp only [functionNameMarks, hin, hwrapped, kindMarks, beq_eq_false_iff_ne.mpr hf, List.mem_append, List.mem_cons]
    grind
  | member m static name arity takesNamed =>
    obtain ⟨howner, harity, hgen⟩ := hform
    rw [definitionMarks, howner, harity, ← hgen]
    refine (stays_params (arity.forall₂_select hargs)).bind fun _ has => hblock.bind fun _ hjs => ?_
    cases takesNamed with
    | true =>
      refine hnamed.bind fun _ hks => .pure ?_
      exact matches_member has.1 hjs (hvararg.append hks.1) (supplied_parameterTraits has.2 hks.2) _ m static name
    | false =>
      exact .pure (matches_member has.1 hjs .nil (supplied_parameterTraits has.2 (by simp)) _ m static name)

theorem default_eq_none (h : isElaborate ps = false) (hp : p ∈ withDefaults names ps) : p.2 = .none := by
  simp only [isElaborate, Bool.or_eq_false_iff, Bool.not_eq_false', List.isEmpty_iff,
    Option.isSome_eq_false_iff, Option.isNone_iff_eq_none] at h
  obtain ⟨⟨⟨-, hdefaults⟩, -⟩, hkwarg⟩ := h
  simp only [withDefaults, hdefaults, hkwarg, List.map_nil, List.append_nil] at hp
  exact List.eq_of_mem_replicate (List.of_mem_zip hp).2

theorem exprMarks_of_isAbsent {e : Expr} (h : e.isAbsent = true) : exprMarks cfg spot e = [] := by
  cases e with
  | absent => rfl
  | _ => cases h

section

variable (hh : here.Fits cfg.es6 spot)

include hh

theorem fits_compileParam (hes6 : isElaborate ps = true → cfg.es6 = true) (hp : p ∈ withDefaults names ps) :
    ParamFits cfg.es6 c (compileParam cfg here p) (defaultMarks cfg spot p) := by
  constructor
  · obtain ⟨_, default⟩ := p
    cases default with
    | none => exact .pure (.mark rfl)
    | value e => exact (emits_compileExpr hh e).bind fun j hj => .pure (.cons rfl hj)
    | emptyDict => exact .pure (.mark rfl)
  · cases hcase : isElaborate ps with
    | true => exact (Yields.any _).imp fun _ _ _ => hes6 hcase
    | false =>
      obtain ⟨_, default⟩ := p
      obtain rfl : default = .none := default_eq_none hcase hp
      exact .pure (by simp [Js.isAssign])

theorem stays_compileKeywordParams (hes6 : isElaborate ps = true → cfg.es6 = true) :
    Stays c (compileKeywordParams cfg here ps) fun ks => Matches cfg.es6
      ((ps.kwOnly.zip ps.kwDefaults).flatMap fun (k, v) => parameterMark k.name :: exprMarks cfg spot v)
      (traitsAll ks) ∧ (ks ≠ [] → cfg.es6 = true) := by
  cases hkw : ps.kwOnly with
  | nil =>
    rw [compileKeywordParams, hkw]
    exact .pure ⟨.nil, by simp⟩
  | cons =>
    have hon : cfg.es6 = true := hes6 (by simp [isElaborate, hkw])
    rw [← hkw]
    refine Stays.imp (emits_mapM fun p _ => ?_) fun _ hks => ⟨hks, fun _ => hon⟩
    dsimp only
    split
    next habsent =>
      rw [exprMarks_of_isAbsent habsent]
      exact .pure (.mark rfl)
    · exact (emits_compileExpr hh p.2).bind fun j hj => .pure (.cons rfl hj)

theorem emits_compileFunction (h : Header) (body : List Stmt) {step : Place → Run (List Js)} {inner : Spot → List Mark}
    (hstep : ∀ (p : Place) (q : Spot), p.Fits cfg.es6 q → EmitsAll cfg.es6 q.caught (step p) (inner q)) :
    Emits cfg.es6 spot.caught (compileFunction cfg here h body step) (functionMarks cfg spot h body inner) := by
  have hi := hh.inside h.name h.isAsync
  unfold compileFunction
  rw [hh.isSome_owner]
  refine stays_checkFunction h |>.bind fun _ hes6 => (stays_openScope _ body).bind fun _ hvars =>
    (stays_formOf hh h _ _).bind fun _ hform => ?_
  refine emits_functionNode h hform ?_ ?_ ?_ (stays_compileKeywordParams hi hes6)
  · rw [List.forall₂_map_left_iff, List.forall₂_map_right_iff, List.forall₂_same]
    exact fun p hp => fits_compileParam hi hes6 hp
  · exact (hstep _ _ hi).map fun _ hjs => matches_declaring hvars hjs
  · intro hvararg
    exact hes6 (by simp [isElaborate, hvararg])

/-! ### Assignments -/

theorem emits_compileExprs (es : List Expr) :
    EmitsAll cfg.es6 c (compileExprs cfg here es) (exprsMarks cfg spot es).flatten :=
  emits_inOrder (emits_compileRuns hh es)

theorem emits_target (e : Expr) : Stays c (compileExpr cfg here e) fun j =>
    Matches cfg.es6 (targetMarks cfg spot e) (featureIf j.isList .pattern ++ j.traits) := by
  refine ((emits_compileExpr hh e).and (yields_shape_compileExpr cfg here e)).imp fun j hj => ?_
  rw [hj.2.2, targetMarks, featureIf]
  refine .append ?_ hj.1
  split
  · exact .mark rfl
  · exact .nil

theorem stays_targets (es : List Expr) : Stays c (compileExprs cfg here es) fun js =>
    ∀ n value vm, Matches cfg.es6 vm (Js.traits value) →
      Matches cfg.es6 (es.flatMap (targetMarks cfg spot) ++ vm) (assignChain n value js).traits := by
  induction es with
  | nil => exact .pure fun n value vm hvalue => hvalue
  | cons e _ ih =>
    unfold compileExprs inOrder at ih ⊢
    rw [compileRuns, List.mapM_cons]
    refine (emits_target hh e).bind fun j hj => ih.bind fun _ hjs => .pure fun n value vm hvalue => ?_
    simpa [assignChain, Js.traits] using hj.append (hjs n value vm hvalue)

omit hh in
theorem emits_compileExports (node : Ref) (value : Expr) :
    Emits cfg.es6 c (compileExports cfg node value) (exportMarks value) := by
  have hnames (elts : List Expr) : EmitsAll cfg.es6 c (elts.mapM fun el => do
        refuseIf el.str?.isNone el.ref .allNotString
        return Js.text (el.str?.getD ""))
      (elts.flatMap fun el => [.occurrence ⟨none, el.str?.getD "", .exported⟩]) :=
    emits_mapM fun _ _ => (Stays.refuseIf _ _ _).bind fun _ _ => .pure (.mark rfl)
  refine (Stays.guardFeature _ _ _).bind fun _ hes6 => ?_
  split
  · exact (hnames _).bind fun _ hjs => .pure (hjs.feature _ hes6)
  · exact (hnames _).bind fun _ hjs => .pure (hjs.feature _ hes6)
  · exact .throwBind _

theorem emits_compileDefaultExport (node : Ref) (value : Expr) :
    Emits cfg.es6 c (compileDefaultExport cfg here node value) (defaultExportMarks cfg spot value) := by
  refine (Stays.guardFeature _ _ _).bind fun _ hes6 => (Stays.refuseIf _ _ _).bind fun _ _ => ?_
  cases hstr : value.str? with
  | some =>
    rw [defaultExportMarks, hstr]
    exact .pure ((Matches.mark rfl).feature _ hes6)
  | none =>
    rw [defaultExportMarks, hstr]
    exact (emits_compileExpr hh value).bind fun j hj => .pure (hj.feature _ hes6)

theorem emits_compileAssign (node : Ref) (targets : List Expr) (value : Expr) :
    Emits cfg.es6 c (compileAssign cfg here node targets value) (assignMarks cfg spot targets value) := by
  unfold compileAssign assignMarks
  split
  · exact .throw _
  · exact (emits_compileExports node value).imp fun j hj => hj.skip rfl
  · exact (emits_compileDefaultExport hh node value).imp fun j hj => hj.skip rfl
  next hall hdefault =>
    split
    · exact (hall _ rfl).elim
    · exact (hdefault _ rfl).elim
    · refine (stays_targets hh _).bind fun _ hts => (emits_compileExpr hh value).bind fun v hv =>
        .pure ?_
      exact hts _ v _ hv

end

/-! ### Imports -/

theorem bound_modulePath {a : Alias} (h : (modulePath a.name != a.name && a.asName.getD "" == "") = false) :
    Alias.bound { a with name := modulePath a.name } = Alias.bound a := by
  unfold Alias.bound
  rcases hname : a.asName with _ | s
  · simpa [hname] using h
  · by_cases hs : s = ""
    · simpa [hname, hs] using h
    · simp [hs]

theorem matches_imports (hes6 : es6 = true) (o : Alias → Origin) (path : Alias → String) (names : List Alias) :
    Matches es6 (aliasMarks names)
      (traitsAll (names.map fun a => .importOf (o a) (.star (path a) (Alias.bound a)))) := by
  induction names with
  | nil => exact .nil
  | cons _ _ ih =>
    exact .append ((Matches.mark rfl).feature _ hes6) ih

theorem matches_locals (path : String) (names : List Alias) : Matches es6 (aliasMarks names)
    ((Script.Import.named path (names.map fun a => (a.name, a.asName))).locals.map (.name none)) := by
  induction names with
  | nil => exact .nil
  | cons _ _ ih => exact .append (.mark rfl) ih

theorem emits_compileImport (node : Ref) (names : List Alias) :
    Emits cfg.es6 c (compileImport cfg node names) (aliasMarks names) := by
  refine (Stays.guardFeature _ _ _).bind fun _ hes6 => (Stays.addGlobals _).bind fun _ _ => ?_
  refine Stays.bind (emits_mapM fun a _ => ?_) fun _ hjs => .pure hjs
  refine (Stays.refuseIf _ _ _).bind fun _ hname => .pure ?_
  rw [bound_modulePath hname]
  exact (Matches.mark rfl).feature _ hes6

theorem emits_compileImportFrom (node : Ref) (module : Option String) (names : List Alias) (level : Option Int) :
    Emits cfg.es6 c (compileImportFrom cfg node module names level) (importFromMarks module names) := by
  unfold compileImportFrom
  dsimp only
  split
  next hglobals =>
    unfold importFromMarks
    rw [if_pos hglobals]
    exact (Stays.demand _).bind fun _ _ => (Stays.addGlobals _).bind fun _ _ => .pure .nil
  next hglobals =>
    refine (Stays.guardFeature _ _ _).bind fun _ hes6 => (Stays.addGlobals _).bind fun _ _ => ?_
    split
    · exact .throw _
    · split
      next hempty =>
        unfold importFromMarks
        rw [if_neg hglobals, if_pos (by simpa using hempty)]
        exact (Stays.demand _).bind fun _ _ => .pure (matches_imports hes6 _ _ names)
      next hempty =>
        split
        · unfold importFromMarks
          rw [if_neg hglobals, if_neg (by simpa using hempty)]
          exact (Stays.refuseIf _ _ _).bind fun _ _ => .pure ((Matches.mark rfl).feature _ hes6)
        next hdefault =>
          unfold importFromMarks
          rw [if_neg hglobals, if_neg (by simpa using hempty)]
          split
          · exact (hdefault _ _ rfl).elim
          · exact .pure ((matches_locals _ names).feature _ hes6)

/-! ### Loops -/

theorem stays_loopForm (node : Ref) (target iter : Expr) (hasElse : Bool) :
    Stays c (loopForm cfg node target iter hasElse) fun form =>
      loopForm? target iter hasElse = some form ∧ ∀ object, form = .elements object → cfg.es6 = true := by
  have harray : Stays c (arrayForm node target) fun form =>
      target.name?.map LoopForm.array = some form ∧ ∀ object, form = .elements object → cfg.es6 = true := by
    unfold arrayForm
    split
    next hname => exact .pure (by simp [hname])
    · exact .throw _
  unfold loopForm
  split
  · split
    next hname => exact .pure (by simp [loopForm?, hname])
    next hname => exact .pure (by simp [loopForm?, hname])
    next hname => exact .pure (by simp [loopForm?, hname])
    · split
      next hlen => simpa [loopForm?, hlen] using harray
      next hlen =>
        split
        · exact .throw _
        · exact .throw _
        next hname => exact .pure (by simpa [loopForm?, hname] using hlen)
    · exact (Stays.guardFeature _ _ _).bind fun _ hes6 => .pure ⟨rfl, fun _ _ => hes6⟩
    next hdict hiterable hone htwo hthree =>
      unfold loopForm?
      dsimp only
      split
      next hname => exact (hone _ _ rfl hname rfl).elim
      next hname => exact (htwo _ _ _ rfl hname rfl).elim
      next hname => exact (hthree _ _ _ _ rfl hname rfl).elim
      · exact (hdict rfl).elim
      · exact (hiterable _ rfl rfl).elim
      · exact harray
  next hcall =>
    unfold loopForm?
    dsimp only
    split
    · exact (hcall _ _ _ _ _ rfl rfl).elim
    · exact harray

theorem skips_choiceMarks (cfg : Config) (iter : Expr) : ∀ m ∈ choiceMarks cfg iter, m.trait? = none := by
  unfold choiceMarks
  split
  · intro _ hm
    cases List.mem_singleton.mp hm
    rfl
  · simp

theorem matches_boundMarks (cfg : Config) (var : String) : Matches es6 (boundMarks cfg .loopVar var)
    [.name none var, .name (cfg.origin none).source var] :=
  .cons rfl (.mark rfl)

theorem emits_compileLoop (hh : here.Fits cfg.es6 spot) (node : Ref) (target iter : Expr) (hasElse : Bool)
    {body : Run (List Js)} (hbody : EmitsAll cfg.es6 c body bm) :
    Emits cfg.es6 c (compileLoop cfg here node target iter hasElse body)
      (((loopForm? target iter hasElse).map (loopMarks cfg spot target iter)).getD [] ++ bm) := by
  have hexpr (e : Expr) : Emits cfg.es6 c (compileExpr cfg here e) (exprMarks cfg spot e) :=
    emits_compileExpr hh e
  refine (stays_loopForm node target iter hasElse).bind fun form hform => ?_
  rw [hform.1, Option.map_some, Option.getD_some]
  cases form with
  | range var start bound step =>
    have hpart (e : Option Expr) (other : String) : Emits cfg.es6 c
        (compileRangePart cfg here other e) ((e.map (exprMarks cfg spot)).getD []) := by
      cases e with
      | none => exact .pure .nil
      | some e => exact hexpr e
    refine Stays.newName.bind fun _ hlimit => (hpart start "0").bind fun s hs =>
      (hpart bound "0").bind fun b hb => (hpart step "1").bind fun t ht =>
        hbody.bind fun js hjs => .pure ?_
    have hparts := ((((matches_boundMarks cfg var).append hs).append hb).append ht).append hjs
    have hnames := hparts.generated (cfg.origin none).source hlimit
    refine (hnames.skips _ (skips_choiceMarks cfg iter)).congr (by simp [loopMarks]) fun t => ?_
    simp only [Js.traits, traitsAll, List.map_cons, List.map_nil,
      List.mem_append, List.mem_cons, List.not_mem_nil, or_false]
    grind
  | keys var object own =>
    refine Stays.newName.bind fun _ hdict => (hexpr object).bind fun d hd =>
      hbody.bind fun _ hjs => .pure ?_
    cases own with
    | true =>
      have hparts := ((matches_boundMarks cfg var).append hd).append hjs
      have hnames := hparts.generated (cfg.origin none).source hdict
      refine (hnames.skips _ (skips_choiceMarks cfg iter)).congr (by simp [loopMarks]) fun t => ?_
      simp [Js.traits, featureIf]
      grind
    | false =>
      have hvar : Matches cfg.es6 [.occurrence ⟨none, var, .loopVar⟩] [.name none var] := .mark rfl
      have hparts := (hvar.append hd).append hjs
      have hnames := hparts.generated (cfg.origin none).source hdict
      refine (hnames.skips _ (skips_choiceMarks cfg iter)).congr (by simp [loopMarks]) fun t => ?_
      simp [Js.traits, featureIf]
      grind
  | elements object =>
    refine (hexpr target).bind fun t ht => (hexpr object).bind fun d hd => hbody.bind fun _ hjs =>
      .pure ?_
    have hparts := ((ht.append hd).append hjs).feature .forOf (hform.2 object rfl)
    refine (hparts.skips _ (skips_choiceMarks cfg iter)).congr
      (by simp [loopMarks]) ?_
    simp [Js.traits, featureIf]
  | array var =>
    refine Stays.newName.bind fun _ harray => Stays.newName.bind fun _ hlength =>
      Stays.newName.bind fun _ hindex => (hexpr iter).bind fun i hi => hbody.bind fun _ hjs =>
        .pure ?_
    have hparts := ((matches_boundMarks cfg var).append hi).append hjs
    have hnames := ((hparts.generated (cfg.origin none).source harray).generated (cfg.origin none).source
      hlength).generated (cfg.origin none).source hindex
    refine hnames.congr (by simp [loopMarks]) fun t => ?_
    simp only [Js.traits, Js.absent, Js.isList, featureIf, traitsAll,
      List.map_cons, List.map_nil, List.mem_append, List.mem_cons,
      List.not_mem_nil, or_false]
    grind

/-! ### Exceptions -/

section

variable (hh : here.Fits cfg.es6 spot)

include hh

theorem emits_compileRaise (node : Ref) (exc : Expr) :
    Emits cfg.es6 spot.caught (compileRaise cfg here node exc) (raiseMarks cfg spot exc) := by
  unfold compileRaise
  dsimp only
  split
  · refine .getBind fun s hs => ?_
    rw [hs]
    split
    next hcaught =>
      rw [raiseMarks, hcaught]
      exact .pure (.mark rfl)
    · exact .throw _
  next arg _ =>
    refine (emits_compileExpr hh arg).bind fun j hj => .pure (.skip rfl ?_)
    simpa [Js.traits, Js.absent] using hj.word (cfg.origin none).source (show "Error" ∈ suppliedNames by decide)
  next habsent hexception =>
    unfold raiseMarks
    split
    · exact (habsent rfl).elim
    · exact (hexception _ _ _ _ rfl).elim
    · exact (emits_compileExpr hh exc).bind fun j hj => .pure hj

theorem emits_compileCatchTest (caught : String) (type : Expr) :
    Emits cfg.es6 c (compileCatchTest cfg here caught type) (catchMarks cfg spot caught type) :=
  emits_instanceNode _ (.pure (.mark rfl)) type (emits_compileExpr hh type) (fits_compileParts hh type).args

omit hh

theorem matches_renameCaught (n : Origin) (caught : String) (name : Option String) :
    Matches es6 (renameMarks caught name) (traitsAll (renameCaught n caught name)) := by
  cases name with
  | some =>
    unfold renameMarks renameCaught
    dsimp only
    split
    · exact .nil
    · exact .cons rfl (.mark rfl)
  | none => exact .nil

theorem caughtName_ne_empty (handlers : List Handler) : caughtName handlers ≠ "" := by
  unfold caughtName
  split
  · split
    · split
      · simp
      next hne => simpa using hne
    · simp
  · simp

theorem moves_setCaught {name : String} (hname : name ≠ "") :
    Moves c (some name) (setEntry Context.exceptionKey (.name name)) fun _ => True := by
  intro s _ _ _ h
  rw [ends_setEntry s _ _ _ _ h]
  exact ⟨rfl, by simp [Session.withEntry, Context.exception?, hname], trivial⟩

theorem moves_beginTry (spot : Spot) (node : Ref) (handlers : List Handler) (orelse finalbody : List Stmt) :
    Moves spot.caught (spot.catching handlers).caught (beginTry node handlers orelse finalbody)
      fun caught => caught = caughtName handlers := by
  unfold beginTry
  refine (Stays.refuseIf _ _ _).moves.bind fun _ _ =>
    Moves.bind (P := fun _ => ∀ h ∈ handlers, True) (Stays.moves (.forM fun h _ => ?_)) fun _ _ => ?_
  · split
    · exact .pure trivial
    · exact .warn _ _
  dsimp only
  split
  · exact fun s _ => .throwBind _
  · unfold Spot.catching
    cases hhandlers : handlers.isEmpty with
    | true => exact Stays.moves (.pure rfl)
    | false =>
      exact (moves_setCaught (caughtName_ne_empty handlers)).bind fun _ _ => Stays.moves (.pure rfl)

end

/-! ### Classes -/

theorem stays_checkClass (h : ClassHeader) (body : List Stmt) :
    Stays c (checkClass cfg h body) fun _ => cfg.es6 = true := by
  refine (Stays.guardFeature _ _ _).bind fun _ hes6 => (Stays.refuseIf _ _ _).bind fun _ _ =>
    Stays.bind (P := fun _ => ∀ s ∈ body, True) (.forM fun s _ => ?_) fun _ _ => ?_
  · exact (Stays.refuseIf _ _ _).bind fun _ _ => (Stays.refuseIf _ _ _).imp fun _ _ => trivial
  · split
    · exact .throw _
    · exact .pure hes6

theorem stays_checkMembers (body : List Stmt) : Stays c (checkMembers body) fun _ => True := by
  refine Stays.bind (P := fun _ => ∀ s ∈ body, True) (.forM fun s _ => ?_) fun _ _ => ?_
  · split
    · exact (Stays.refuseIf _ _ _).imp fun _ _ => trivial
    · exact .pure trivial
  · dsimp only
    split
    · exact .throw _
    · exact .pure trivial

theorem stays_useClassSnippets (h : ClassHeader) (body : List Stmt) :
    Stays c (useClassSnippets h body) fun _ => True := by
  unfold useClassSnippets
  refine stays_stepIf (.useSnippet _) fun _ => stays_stepIf (.useSnippet _) fun _ => ?_
  split
  · exact .useSnippet _
  · exact .pure trivial

theorem emits_optionally (cond : Bool) {x : Run Js} (h : Emits es6 c x ms) :
    EmitsAll es6 c (optionally cond x) (if cond then ms else []) := by
  cases cond with
  | false => exact .pure .nil
  | true => exact h.map fun j hj => by simpa [List.singleton] using hj

theorem matches_classCall (f : Snippet) (cls : String) {keys values : List Js}
    (h : Matches cfg.es6 ms (traitsAll keys ++ traitsAll values)) :
    Matches cfg.es6 (.occurrence ⟨cfg.nodeOf none, cls, .classDef⟩ :: ms)
      (classCall (cfg.origin none) f cls keys values).traits := by
  have hname : Matches cfg.es6 (.occurrence ⟨cfg.nodeOf none, cls, .classDef⟩ :: ms)
      (.name (cfg.origin none).source cls :: (traitsAll keys ++ traitsAll values)) := .cons rfl h
  simpa [classCall, Js.traits] using hname.word (cfg.origin none).source (show "_pj" ∈ suppliedNames by decide)

section

variable (hh : here.Fits cfg.es6 spot)

include hh

theorem emits_compileClassAssigns (hes6 : cfg.es6 = true) (h : ClassHeader) (assigns : List (String × Expr × Expr)) :
    Emits cfg.es6 c (compileClassAssigns cfg here h assigns)
      (.occurrence ⟨cfg.nodeOf none, h.name, .classDef⟩ :: assigns.flatMap fun (_, target, value) =>
        (if target.name?.isSome then [] else exprMarks cfg spot target) ++ exprMarks cfg spot value) := by
  refine Stays.bind (P := fun js => Matches cfg.es6 (assigns.flatMap fun a =>
      if a.2.1.name?.isSome then [] else exprMarks cfg spot a.2.1) (traitsAll js))
    (emits_mapM fun a _ => ?_) fun _ hks =>
      Stays.bind (emits_mapM fun a _ => emits_compileExpr hh a.2.2) fun _ hvs => .pure ?_
  · dsimp only
    unfold compileClassKey
    split
    next hname =>
      rw [hname]
      exact .pure .nil
    next hname =>
      rw [hname]
      exact (emits_compileExpr hh a.2.1).bind fun j hj => .pure (hj.feature _ hes6)
  · refine matches_classCall _ _ ((hks.append hvs).congr (fun m => ?_) fun _ => .rfl)
    simp only [List.mem_flatMap, List.mem_append, and_or_left, exists_or]

theorem emits_compileMethodDecorators (h : ClassHeader) (methods : List (String × Header)) :
    Emits cfg.es6 c (compileMethodDecorators cfg here h methods)
      (.occurrence ⟨cfg.nodeOf none, h.name, .classDef⟩ :: methods.flatMap fun (_, m) =>
        (exprsMarks cfg (spot.inside m.name m.isAsync) m.decorators).flatten) := by
  refine Stays.bind (emits_mapM fun m _ =>
    (emits_compileExprs (hh.inside m.2.name m.2.isAsync) m.2.decorators).bind fun _ hjs => .pure hjs)
    fun _ hvs => .pure (matches_classCall _ _ ?_)
  rw [traitsAll_map_eq_nil fun _ => rfl]
  exact hvs

theorem emits_compileClassDecorators (hes6 : cfg.es6 = true) (h : ClassHeader) :
    Emits cfg.es6 c (compileClassDecorators cfg here h)
      (useMarks (cfg.nodeOf none) h.name ++ (exprsMarks cfg spot h.decorators).flatten) := by
  have hname : Matches cfg.es6 (useMarks (cfg.nodeOf none) h.name)
      (nameNode (cfg.origin none) h.name).traits := matches_nameNode _ _
  have hcall : Emits cfg.es6 c (do
      let decorators ← compileExprs cfg here h.decorators
      return plainCall (cfg.origin none) (fieldOf (cfg.origin none) "_pj" Snippet.setClassDecorators.name)
        [nameNode (cfg.origin none) h.name, .list (cfg.origin none) decorators])
      (useMarks (cfg.nodeOf none) h.name ++ (exprsMarks cfg spot h.decorators).flatten) := by
    refine (emits_compileExprs hh h.decorators).bind fun _ hjs => .pure ?_
    simpa [Js.traits] using (hname.append hjs).word (cfg.origin none).source (show "_pj" ∈ suppliedNames by decide)
  refine .inFrame ?_
  dsimp only
  split
  · exact .throw _
  · exact hcall.bind fun j hj => .pure (hj.feature _ hes6)
  · refine hcall.bind fun j hj => .pure ((hname.append hj).congr (by simp) ?_)
    simp [Js.traits, featureIf, (shape_nameNode (cfg.origin none) h.name).2]

theorem emits_compileClass (hes6 : cfg.es6 = true) (h : ClassHeader) (body : List Stmt)
    {members : Place → Run (List Js)} {mm : Spot → List Mark}
    (hmembers : ∀ (p : Place) (q : Spot), p.Fits cfg.es6 q → EmitsAll cfg.es6 q.caught (members p) (mm q)) :
    Emits cfg.es6 spot.caught (compileClass cfg here h body members) (classMarks cfg spot h body mm) := by
  have hsuper : Option.Rel (SuperFits cfg.es6) (h.bases.head?.map (compileExpr cfg here))
      (h.bases.head?.map (exprMarks cfg spot)) := by
    cases h.bases.head? with
    | none => exact .none
    | some base =>
      exact .some ⟨fun _ => emits_compileExpr hh base, (yields_shape_compileExpr cfg here base).imp fun _ hj => hj.1⟩
  have hbase : Emits cfg.es6 spot.caught ((h.bases.head?.map (compileExpr cfg here)).getD (pure .absent))
      ((h.bases.head?.map (exprMarks cfg spot)).getD []) := by
    generalize h.bases.head?.map (compileExpr cfg here) = x at hsuper
    generalize h.bases.head?.map (exprMarks cfg spot) = y at hsuper
    cases hsuper with
    | none => exact .pure .nil
    | some hxy => exact hxy.emits _
  have hinside := hh.member hsuper
  have hassigns := emits_optionally (c := spot.caught) (!(sortAssigns (classAssigns body)).isEmpty)
    (emits_compileClassAssigns hh hes6 h (sortAssigns (classAssigns body)))
  have hmethods := emits_optionally (c := spot.caught) (!(decoratedMethods body).isEmpty)
    (emits_compileMethodDecorators hinside h (decoratedMethods body))
  have hdecorators := emits_optionally (c := spot.caught) (!h.decorators.isEmpty)
    (emits_compileClassDecorators hh hes6 h)
  refine (stays_checkMembers body).bind fun _ _ => (stays_useClassSnippets h body).bind fun _ _ =>
    hbase.bind fun _ hb => (hmembers _ _ hinside).bind fun _ hjs => hassigns.bind fun _ hps =>
    hmethods.bind fun _ hms => hdecorators.bind fun _ hds => .pure ?_
  have hname : Matches cfg.es6 [.occurrence ⟨cfg.nodeOf none, h.name, .classDef⟩]
      [.name (cfg.origin none).source h.name] := .mark rfl
  have hcls := (hname.append (hb.append hjs)).feature .classNode hes6
  exact (((hcls.append hps).append hms).append hds).congr (fun _ => .rfl) (by simp [Js.traits])

end

def TemplatesMatch (templates : Templates) (tm : Config → List Stmt → List Mark) : Prop :=
  ∀ (cfg : Config) (body : List Stmt) (j : Js), templates cfg body = .ok j → Matches cfg.es6 (tm cfg body) j.traits

theorem emits_compileExceptionClass {templates : Templates} {tm : Config → List Stmt → List Mark}
    (ht : TemplatesMatch templates tm) (h : ClassHeader) :
    Emits cfg.es6 c (compileExceptionClass templates cfg h)
      (tm { cfg with remap := some h.ref, snippets := false, mapped := true } (exceptionSource h.name)) := by
  refine Stays.bind (.ofExcept fun j hj => ht _ _ j hj) fun j hj => ?_
  split
  · exact .pure hj
  · exact .pure hj

theorem traits_classDoc (cfg : Config) (body : List Stmt) : traitsAll (classDoc cfg body) = [] := by
  unfold classDoc
  split
  · split
    · rfl
    · rfl
  · rfl

/-! ### Statements -/

section

variable {templates : Templates} {tm : Config → List Stmt → List Mark} (ht : TemplatesMatch templates tm)

include ht

set_option linter.unusedSectionVars false in
mutual
theorem emits_compileStmt {here : Place} {spot : Spot} (hh : here.Fits cfg.es6 spot) (s : Stmt) :
    Emits cfg.es6 spot.caught (compileStmt templates cfg here s) (stmtMarks tm cfg spot s) := by
  cases s
  all_goals rw [compileStmt, stmtMarks]
  case bare e => exact emits_compileExpr hh e
  case tryBlock p star body handlers orelse finalbody =>
    have hinside := hh.inner.catching handlers
    cases star with
    | true => exact .inFrame (.throwBind _)
    | false =>
      refine Stays.ofFrame (d := (spot.inner.catching handlers).caught) ?_
      refine (moves_beginTry spot.inner _ handlers orelse finalbody).bind ?_
      rintro _ rfl
      refine Stays.moves ((emits_compileBlock hinside body).bind fun js hjs =>
        (emits_compileHandlers hinside (caughtName handlers) handlers).bind fun _ hks =>
        (emits_compileBlock hinside finalbody).bind fun _ hls => ?_)
      split
      next hempty =>
        obtain rfl := List.isEmpty_iff.mp hempty
        exact .pure (by simpa [Js.traits, Js.absent, handlersMarks] using hjs.append hls)
      · exact .pure (((hjs.append (.mark rfl)).append hks).append hls)
  all_goals refine .inFrame ?_
  case functionDef p isAsync name params body ds returns =>
    exact emits_compileFunction hh _ body fun p q hp => emits_compileBlock hp body
  case classDef p name bases keywords body ds =>
    refine (stays_checkClass _ body).bind fun _ hes6 => ?_
    split
    · exact emits_compileExceptionClass ht _
    · refine emits_compileClass hh hes6 _ body fun p q hp => ?_
      refine (emits_compileMethods hp body).bind fun js hjs => .pure ?_
      rwa [Script.traitsAll_append, traits_classDoc, List.nil_append]
  case ret p value => exact (emits_compileExpr hh value).bind fun j hj => .pure hj
  case delete p targets =>
    exact Stays.bind (emits_mapM fun t _ => (emits_compileExpr hh t).bind fun j hj => .pure hj) fun _ hjs => .pure hjs
  case assign p targets value => exact emits_compileAssign hh _ targets value
  case augAssign p target op value =>
    exact (emits_compileExpr hh target).bind fun t ht => (stays_operatorNode _ _).bind fun s hs =>
      (emits_compileExpr hh value).bind fun v hv => .pure (by simpa [Js.traits, hs] using ht.append hv)
  case annAssign p target annotation value =>
    exact (emits_target hh target).bind fun t ht => (emits_compileExpr hh value).bind fun v hv =>
      .pure (ht.append hv)
  case forLoop p isAsync target iter body orelse =>
    cases isAsync with
    | true => exact .throwBind _
    | false => exact emits_compileLoop hh _ target iter _ (emits_compileBlock hh.inner body)
  case whileLoop p test body orelse =>
    exact (Stays.demand _).bind fun _ _ => (emits_compileExpr hh test).bind fun t ht =>
      (emits_compileBlock hh.inner body).bind fun _ hjs => .pure (ht.append hjs)
  case ifElse p test body orelse =>
    exact (emits_compileExpr hh test).bind fun t ht => (emits_compileBlock hh.inner body).bind fun _ hjs =>
      (emits_compileBlock hh.inner orelse).bind fun _ hks => .pure ((ht.append hjs).append hks)
  case raise p exc cause => exact emits_compileRaise hh _ exc
  case assertion p test msg =>
    dsimp only
    split
    · exact .throwBind _
    · refine (Stays.useSnippet _).bind fun _ _ => (emits_compileExpr hh test).bind fun t ht =>
        (emits_compileExpr hh msg).bind fun m hm => .pure ?_
      have hreason : Matches cfg.es6 (exprMarks cfg spot msg)
          (if msg.isAbsent then Js.atom (cfg.origin none) .null else m).traits := by
        split
        next habsent =>
          rw [exprMarks_of_isAbsent habsent]
          exact .nil
        · exact hm
      simpa [Js.traits] using (ht.append hreason).word none (show "_pj" ∈ suppliedNames by decide)
  case importNames p names => exact emits_compileImport _ names
  case importFrom p module names level => exact emits_compileImportFrom _ module names level
  case expr p value =>
    split
    next hstr =>
      rw [hstr]
      exact .pure .nil
    next hstr =>
      rw [hstr]
      exact (emits_compileExpr hh value).bind fun j hj => .pure hj
  case pass | breakLoop | continueLoop => exact .pure .nil
  case withBlock | global | nonlocal | matchBlock => exact .throw _

theorem emits_compileBlock {here : Place} {spot : Spot} (hh : here.Fits cfg.es6 spot) : ∀ ss : List Stmt,
    EmitsAll cfg.es6 spot.caught (compileBlock templates cfg here ss) (blockMarks tm cfg spot ss)
  | [] => by
    rw [compileBlock, blockMarks]
    exact .pure .nil
  | s :: rest => by
    rw [compileBlock, blockMarks]
    exact (emits_compileStmt hh s).bind fun j hj =>
      (emits_compileBlock hh rest).bind fun js hjs => .pure (hj.append hjs)

theorem emits_compileHandlers {here : Place} {spot : Spot} (hh : here.Fits cfg.es6 spot) (caught : String) :
    ∀ hs : List Handler, EmitsAll cfg.es6 spot.caught
      (compileHandlers templates cfg here caught hs) (handlersMarks tm cfg spot caught hs)
  | [] => by
    rw [compileHandlers, handlersMarks]
    exact .pure .nil
  | .mk p type name body :: rest => by
    have hrename : Matches cfg.es6 (renameMarks caught name)
        (traitsAll (renameCaught (cfg.origin none) caught name)) := matches_renameCaught _ _ _
    have hbody := emits_compileBlock hh body
    rw [compileHandlers, handlersMarks]
    dsimp only
    split
    · refine hbody.bind fun js hjs => .pure ?_
      simpa [Js.traits] using hrename.append hjs
    · refine (emits_compileCatchTest hh caught type).bind fun t ht => hbody.bind fun js hjs => ?_
      have hif {others : List Js} {om : List Mark} (ho : Matches cfg.es6 om (traitsAll others)) :
          Matches cfg.es6 (renameMarks caught name ++ blockMarks tm cfg spot body ++
            (catchMarks cfg spot caught type ++ om)) (traitsAll [.ifStmt (cfg.origin none) t
              (renameCaught (cfg.origin none) caught name ++ js) others]) := by
        refine ((hrename.append hjs).append (ht.append ho)).congr (fun _ => .rfl) fun t => ?_
        simp only [Js.traits, traitsAll, Script.traitsAll_append,
          List.mem_append, List.not_mem_nil, or_false]
        tauto
      split
      · exact .pure (hif (.mark rfl))
      · exact (emits_compileHandlers hh caught rest).bind fun _ hks => .pure (hif hks)

theorem emits_compileMethods {here : Place} {spot : Spot} (hh : here.Fits cfg.es6 spot) : ∀ ss : List Stmt,
    EmitsAll cfg.es6 spot.caught (compileMethods templates cfg here ss) (methodsMarks tm cfg spot ss)
  | [] => by
    rw [compileMethods, methodsMarks]
    exact .pure .nil
  | s :: rest => by
    have hrest := emits_compileMethods hh rest
    cases s with
    | functionDef p _ _ _ body =>
      rw [compileMethods, methodsMarks]
      exact (Stays.inFrame (emits_compileFunction hh _ body fun p q hp => emits_compileBlock hp body)).bind
        fun j hj => hrest.bind fun _ hjs => .pure (hj.append hjs)
    | _ =>
      simp only [compileMethods, methodsMarks]
      exact hrest
end

theorem emits_compileBody (hh : here.Fits cfg.es6 spot) (body : List Stmt) :
    Emits cfg.es6 spot.caught (compileBody templates cfg here body) (bodyMarks tm cfg spot body) := by
  refine (Stays.setEntry (by decide) _).bind fun _ _ =>
    (emits_compileBlock ht hh body).bind fun _ hjs => .getBind fun s _ => .pure ?_
  have hvars : (localNames body).filter (!s.globals.contains ·) ⊆ localNames body :=
    List.filter_subset_self _
  have hdeclared := matches_declaring (n := cfg.origin none) hvars hjs
  generalize (localNames body).filter (!s.globals.contains ·) = vars at hdeclared ⊢
  unfold declaring at hdeclared
  split
  next hempty =>
    rw [if_pos hempty] at hdeclared
    exact hdeclared
  next hempty =>
    rw [if_neg hempty] at hdeclared
    simpa [bodyMarks, Js.traits] using hdeclared

end

end Transpiler.Compile
