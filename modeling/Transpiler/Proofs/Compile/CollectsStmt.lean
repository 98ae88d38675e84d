import Transpiler.Proofs.Compile.CollectsExpr

/-!
# What the tree of a statement is made of

The tree of a statement wraps the trees of its parts (`exists_collects_compileStmt`). The definition of
an exception is a template without references.
-/

namespace Transpiler.Compile

open Lowerable (lower)
open Script (AllSettled Import Js Member Neutral Origin ValuesFirst bracketFree neutral_of_bracketFree refsAll_eq_nil
  valuesFirst_cons valuesFirst_of_isStill)
open Source (Alias Expr Handler Params Ref Stmt Tree isWord unbracketedHandlers)
open Source.Tree (allOf)

variable {templates : Templates} {cfg : Config} {site : Site} {here : Place} {D : Demands templates cfg}

attribute [local simp] Js.isNode Js.lower Script.lowerAll_eq_map

variable {h : Header} {p : String × Default} {n o : Origin} {ms : List Material} {bs ts : List Task} {cfg' : Config}
  {js : List Js} {node : Ref} {caught id : String} {cond : Bool} {body : List Stmt}

theorem Collects.stmts (site : Site) (body : List Stmt) :
    CollectsIn D [] (fun cfg => compileBlock templates cfg (site.place cfg) body) (stmtTasks site body)
      fun js => js.map .stmt := by
  induction body with
  | nil =>
    simp only [compileBlock]
    exact .pure (.refl fun _ => rfl)
  | cons s _ ih =>
    simp only [compileBlock]
    exact (Collects.stmt site s).bind fun j _ => ih.andPure fun _ _ => .refl (by simp +contextual)

theorem collects_compileExprs (site : Site) (es : List Expr) :
    CollectsIn D [] (fun cfg => compileExprs cfg (site.place cfg) es) (exprTasks site es) fun js => js.map .tree := by
  simp only [compileExprs, compileRuns_eq_map]
  exact Collects.exprs es

/-! ### Functions -/

theorem bracketFree_param (hparams : h.params.unbracketed = true)
    (hp : p ∈ site.params h) : bracketFree p.1 = true := by
  simp only [Params.unbracketed, Bool.and_eq_true, List.all_append, List.all_eq_true] at hparams
  obtain ⟨⟨⟨⟨hargs, -⟩, -⟩, hkwarg⟩, -⟩ := hparams
  have hpositional (name : String) (hname : name ∈ positional site.owner?.isSome h.params) :
      bracketFree name = true := by
    have hmem : name ∈ h.params.args.map (·.name) := by
      unfold positional at hname
      dsimp only at hname
      split at hname
      · exact List.mem_of_mem_drop hname
      · exact hname
    obtain ⟨a, ha, rfl⟩ := List.mem_map.mp hmem
    exact hargs a ha
  unfold Site.params withDefaults at hp
  dsimp only at hp
  split at hp
  next k hk =>
    rcases List.mem_append.mp (List.of_mem_zip hp).1 with hname | hname
    · exact hpositional _ hname
    · have hname : p.1 = k.name := by simpa using hname
      rw [hname]
      exact hkwarg k (by simp [hk])
  · exact hpositional _ (List.of_mem_zip hp).1

theorem collects_compileParam (hp : D.words → bracketFree p.1 = true) :
    CollectsIn D [] (fun cfg => compileParam cfg (site.place cfg) p) (exprTasks site p.2.exprs)
      fun j => [.operand j] := by
  obtain ⟨k, d⟩ := p
  have hk (hD : D.words) : Neutral k := neutral_of_bracketFree (hp hD)
  cases d with
  | none => exact .pure (by constructor <;> simp +contextual [hk])
  | value e =>
    refine (Collects.expr site e).andPure fun j _ => ?_
    constructor <;> simp +contextual [hk]
  | emptyDict => exact .pure (by constructor <;> simp +contextual [hk])

theorem collects_params {params : List (String × Default)} (h : D.words → ∀ p ∈ params, bracketFree p.1 = true) :
    CollectsIn D [] (fun cfg => inOrder (params.map (compileParam cfg (site.place cfg))))
      (exprTasks site (params.map (·.2.exprs)).flatten) fun js => js.map .operand := by
  rw [← List.flatMap_def, exprTasks_flatMap]
  simp only [inOrder, List.mapM_map]
  simp only [List.map_eq_flatMap]
  exact Collects.mapM fun p hp => collects_compileParam fun hD => h hD p hp

theorem collects_compileKeywordParams {ps : Params} (hps : D.words → ps.unbracketed = true) :
    CollectsIn D [] (fun cfg => compileKeywordParams cfg (site.place cfg) ps)
      (exprTasks site (namedDefaults ps)) fun js => js.map .operand := by
  rw [namedDefaults, exprTasks_flatMap]
  simp only [compileKeywordParams, List.map_eq_flatMap]
  refine Collects.mapM fun p hp => ?_
  have hname (hD : D.words) : Neutral p.1.name := by
    have hps := hps hD
    simp only [Params.unbracketed, Bool.and_eq_true, List.all_append, List.all_eq_true] at hps
    exact neutral_of_bracketFree (hps.1.1.1.2 _ (List.of_mem_zip hp).1)
  split
  · exact .pure (by constructor <;> simp +contextual [hname])
  · refine (Collects.expr site p.2).andPure fun j _ => ?_
    constructor <;> simp +contextual [hname]

theorem exists_neutral_methodForm (static : Bool) {name : String} (h : Neutral name) : ∃ m static' name' arity named,
    methodForm static name = .member m static' name' arity named ∧ Neutral name' := by
  unfold methodForm
  split
  case h_6 => exact ⟨_, _, _, _, _, rfl, h⟩
  all_goals exact ⟨_, _, _, _, _, rfl, by decide⟩

theorem yields_neutral_formOf (h : Header) (generator : Bool) (count : Nat) :
    Yields (formOf here h generator count) fun form => bracketFree h.name = true →
      ∀ m static name arity named, form = .member m static name arity named → Neutral name := by
  have hname (hword : bracketFree h.name = true) : Neutral (normalizeName h.name) :=
    neutral_of_bracketFree (bracketFree_normalizeName hword)
  refine Stays.yields fun c => ?_
  have hown {m : Member} {static named : Bool} {arity : Arity} :
      Stays c (pure (FuncForm.member m static (normalizeName h.name) arity named)) fun form => bracketFree h.name = true →
        ∀ m static name arity named, form = .member m static name arity named → Neutral name :=
    .pure (by rintro hword _ _ _ _ _ ⟨⟩; exact hname hword)
  unfold formOf
  dsimp only
  split
  · split <;> exact .pure (by simp)
  · refine stays_afterAccessor fun found _ => ?_
    split
    · exact hown
    · split
      · exact hown
      · exact hown
      · exact hown
      · exact (Stays.refuseIf _ _ _).bind fun _ _ => hown
      · refine .pure fun hword m _ _ _ _ hform => ?_
        obtain ⟨_, _, _, _, _, hmethod, hneutral⟩ := exists_neutral_methodForm found.2 (hname hword)
        cases hform.symm.trans hmethod
        exact hneutral

theorem wraps_declaring (hn : D.placed → D.origin n) (vars : List String) (js : List Js) :
    Wraps D (vars.map .noted ++ js.map .stmt) ((declaring n vars js).map .stmt) := by
  unfold declaring
  split
  next hvars =>
    obtain rfl : vars = [] := by simpa using hvars
    exact .refl _
  · constructor <;> simp +contextual [refsAll_eq_nil, neutral_of_bracketFree, hn]

theorem declaring_lower (D : Demands templates cfg) (vars : List String) (js : List Js) :
    (declaring (D.other.origin none) vars js).map (Js.lower D.lowering) =
      declaring (cfg.origin none) vars (js.map (Js.lower D.lowering)) := by
  unfold declaring
  split
  · rfl
  · simp [-List.map_const', Function.comp_def]

@[simp]
theorem restParam_lower (D : Demands templates cfg) (ps : Params) :
    (restParam (D.other.origin none) ps).lower D.lowering = restParam (cfg.origin none) ps := by
  unfold restParam
  split <;> simp

theorem collects_functionNode (ho : D.Covers (some h.ref))
    (generator : Bool) {form : FuncForm} (hform : form.Takes site.owner?.isSome h generator)
    (hword : D.words → isWord h.name = true) (hmember : bracketFree h.name = true →
      ∀ m static name arity named, form = .member m static name arity named → Neutral name)
    (hparams : D.words → h.params.unbracketed = true) (inside : Site) {block block' : Run (List Js)}
    (hblock : Collects D True ms block block' bs fun js => js.map .stmt) :
    Collects D True ms (functionNode cfg h form ((site.params h).map (compileParam cfg (inside.place cfg))) block
      (compileKeywordParams cfg (inside.place cfg) h.params)) (functionNode D.other h form
      ((site.params h).map (compileParam D.other (inside.place D.other))) block'
      (compileKeywordParams D.other (inside.place D.other) h.params))
      (exprTasks inside (defaultExprs site h generator).1 ++ bs ++
        exprTasks inside (defaultExprs site h generator).2) fun j => [.stmt j] := by
  have hfree (hD : D.words) : bracketFree h.name = true := by
    simpa [isWord] using (Bool.and_eq_true_iff.mp (hword hD)).2
  have hname (hD : D.words) : Neutral (normalizeName h.name) ∧ normalizeName h.name ≠ "" :=
    ⟨neutral_of_bracketFree (bracketFree_normalizeName (hfree hD)),
      normalizeName_ne_empty (by simpa [isWord] using (Bool.and_eq_true_iff.mp (hword hD)).1)⟩
  have hrest (hD : D.words) : ∀ a ∈ h.params.vararg, Neutral a.name := by
    have hparams := hparams hD
    simp only [Params.unbracketed, Bool.and_eq_true, List.all_append, List.all_eq_true] at hparams
    exact fun a ha => neutral_of_bracketFree (hparams.1.1.2 a (by simpa using ha))
  -- the parameters that are taken, the body and, perhaps, the parameters that come by name
  have hsteps {params : List (String × Default)} (hsub : ∀ p ∈ params, p ∈ site.params h)
      (g : Config → List Js → List Js → List Js → Js) (hg : ∀ args args' js js' named named',
        Makes D (((True ∧ lower D.lowering args' = args) ∧ lower D.lowering js' = js) ∧
          lower D.lowering named' = named) (args.map .operand ++ js.map .stmt ++ named.map .operand)
          (g cfg args js named) (g D.other args' js' named') [.stmt (g cfg args js named)]) :
      Collects D True ms (do
        let args ← inOrder (params.map (compileParam cfg (inside.place cfg)))
        let js ← block
        return g cfg args js (← compileKeywordParams cfg (inside.place cfg) h.params)) (do
        let args ← inOrder (params.map (compileParam D.other (inside.place D.other)))
        let js ← block'
        return g D.other args js (← compileKeywordParams D.other (inside.place D.other) h.params))
      (exprTasks inside (params.map (·.2.exprs)).flatten ++
        (bs ++ exprTasks inside (namedDefaults h.params))) fun j => [.stmt j] := by
    refine (collects_params fun hD p hp => bracketFree_param (hparams hD) (hsub p hp)).bind fun args args' => ?_
    refine (hblock.bindWith fun js js' => ?_).pre (.swap _ _)
    exact (collects_compileKeywordParams hparams).andPure fun named named' => hg args args' js js' named named'
  have hfunc (f : Script.Func) := hsteps (fun p hp => hp)
    (fun cfg args js named => .func (cfg.origin (some h.ref)) f (some (normalizeName h.name)) args js
      (restParam (cfg.origin none) h.params) named) fun args _ js _ named _ => by
      refine Wraps.makes ?_ (by simp +contextual)
      unfold restParam
      cases hvararg : h.params.vararg
      all_goals constructor <;> simp +contextual [or_imp, ho, hname, hvararg, hrest]
  have hnone (howner : site.owner?.isSome = false) : site.owner?.isNone = true := by simpa using howner
  rw [List.append_assoc]
  unfold defaultExprs
  cases form with
  | func f =>
    rw [if_pos (hnone hform)]
    exact hfunc f
  | arrow =>
    rw [if_pos (hnone hform)]
    refine (hfunc .arrow).wrapped fun j _ => ?_
    constructor <;> simp +contextual [ho, hname]
  | bound f =>
    rw [if_pos (hnone hform)]
    refine (hfunc f).wrapped fun j _ => ?_
    constructor <;> simp +contextual +decide [plainCall, ho, hname]
  | member m static name arity named =>
    have hneutral (hD : D.words) : Neutral name := hmember (hfree hD) m static name arity named rfl
    obtain ⟨howner, harity⟩ : site.owner?.isSome = true ∧ memberArity h generator = (arity, named) :=
      hform
    have hselect (p : String × Default) (hp : p ∈ arity.select (site.params h)) : p ∈ site.params h :=
      Arity.mem_of_mem_select hp
    rw [if_neg (by simpa using Option.isSome_iff_ne_none.mp howner), harity]
    dsimp only
    rw [← Arity.map_select]
    unfold functionNode
    dsimp only
    rw [← Arity.map_select, ← Arity.map_select]
    cases named with
    | true =>
      refine hsteps hselect (fun cfg args js named => .member (cfg.origin (some h.ref)) m static name args js
        (restParam (cfg.origin none) h.params) named) fun _ _ _ _ _ _ => ?_
      refine Wraps.makes ?_ (by simp +contextual)
      unfold restParam
      cases hvararg : h.params.vararg
      all_goals constructor <;> simp +contextual [or_imp, ho, hneutral, hvararg, hrest]
    | false =>
      refine (collects_params fun hD p hp => bracketFree_param (hparams hD) (hselect p hp)).bind fun _ _ => ?_
      refine (hblock.bindWith fun _ _ => .pure ?_).pre (.swap _ _)
      constructor <;> simp +contextual [ho, hneutral]

theorem formOf_place (site : Site) (cfg cfg' : Config) (h : Header) (generator : Bool) (count : Nat) :
    formOf (site.place cfg') h generator count = formOf (site.place cfg) h generator count := by
  unfold formOf
  rw [← Option.not_isSome, ← Option.not_isSome, Site.isSome_owner_place, Site.isSome_owner_place,
    Site.underClass_place site cfg]

theorem repeats_checkFunction {c : Script.Lowering} (hcfg : cfg.Lowers c cfg') (site : Site) (h : Header) :
    Repeats (checkFunction cfg (site.place cfg) h) (checkFunction cfg' (site.place cfg') h) := by
  unfold checkFunction
  rw [← Option.not_isSome, ← Option.not_isSome, Site.isSome_owner_place, Site.isSome_owner_place]
  exact .ite (.guard hcfg.stage3 (.refuse (.refuse (.ite (.guard hcfg.es6 (.refl _)) (.refl _)))))
    (.refuse (.refuse (.ite (.guard hcfg.es6 (.refl _)) (.refl _))))

theorem collects_compileFunction (ho : D.Covers (some h.ref))
    (body : List Stmt) (hword : D.words → isWord h.name = true)
    (hparams : D.words → h.params.unbracketed = true) :
    CollectsIn D [] (fun cfg => compileFunction cfg (site.place cfg) h body
      (fun inside => compileBlock templates cfg inside body)) (functionTasks site h body)
      fun j => [.stmt j] := by
  unfold functionTasks
  simp only [compileFunction, Site.isSome_owner_place, formOf_place site cfg]
  rw [← List.singleton_append]
  refine .checkIn (repeats_checkFunction D.lowers site h) (does_checkFunction h) (.any _) fun _ _ =>
    (Collects.openScope _ _).bindNames lower_texts fun vars =>
    .checkOf (does_formOf h _ _) ((yields_formOf h _ _).and (yields_neutral_formOf h _ _)) fun _ hform => ?_
  rw [Site.isSome_owner_place] at hform
  refine collects_functionNode ho _ hform.1 hword hform.2 hparams (site.inside h.name h.isAsync) ?_
  exact .map (((Collects.stmts (site.inside h.name h.isAsync) body).frame _).imp
    fun js => wraps_declaring D.origin_none vars js) (declaring_lower D vars)

/-! ### Assignments and imports -/

theorem exists_texts (h : ∀ j ∈ js, ∃ s, Js.text s = j) : ∃ ss : List String, js = ss.map .text := by
  induction js with
  | nil => exact ⟨[], rfl⟩
  | cons j _ ih =>
    obtain ⟨s, rfl⟩ := h j (by simp)
    obtain ⟨ss, rfl⟩ := ih fun k hk => h k (by simp [hk])
    exact ⟨s :: ss, rfl⟩

theorem collects_compileExports (ho : D.Covers (some node)) (value : Expr) :
    CollectsIn D [] (fun cfg => compileExports cfg node value) [] fun j => [.stmt j] := by
  have helts (elts : List Expr) : CollectsIn D [] (fun cfg => do
      let names ← elts.mapM fun el => do
        refuseIf el.str?.isNone el.ref .allNotString
        return Js.text (el.str?.getD "")
      return Js.exportNames (cfg.origin (some node)) names) [] fun j => [.stmt j] := by
    refine .checkOf (R := fun js => ∃ ss : List String, js = ss.map .text) ?_ ?_ ?_
    · exact Does.eachCheck fun _ _ => (Does.refuseIf _ _ _).andPure _
    · exact (Yields.mapM fun _ _ => .andThen _ fun _ => .pure ⟨_, rfl⟩).imp fun _ => exists_texts
    · rintro _ ⟨_, rfl⟩
      exact .pure (by constructor <;> simp +contextual [ho, refsAll_eq_nil, Script.maskedName])
  refine .guard D.lowers.es6 fun _ => ?_
  split
  · exact helts _
  · exact helts _
  · exact .throwBind _ _ _

theorem clean_masked_exportDefault {j : Js} (h : j.masked.Clean) : (Js.exportDefault o j).masked.Clean := by
  cases j with
  | text => simp
  | _ => exact h

theorem collects_compileDefaultExport (ho : D.Covers (some node)) (value : Expr) :
    CollectsIn D [] (fun cfg => compileDefaultExport cfg (site.place cfg) node value)
      (exprTasks site (if value.str?.isSome then [] else [value])) fun j => [.stmt j] := by
  refine .guard D.lowers.es6 fun _ => .check (Does.refuseIf _ _ _) fun _ => ?_
  cases value.str? with
  | some => exact .pure (by constructor <;> simp +contextual [ho])
  | none =>
    refine (Collects.expr site value).andPure fun j _ => ?_
    constructor <;> simp +contextual [ho, clean_masked_exportDefault]

theorem wraps_assignChain (hn : D.placed → D.origin n) (value : Js) (targets : List Js) :
    Wraps D (targets.map .tree ++ [Material.tree value]) [.operand (assignChain n value targets)] := by
  induction targets with
  | nil => exact .operand value
  | cons target _ ih =>
    refine ((Wraps.refl [.tree target]).append ih).trans ?_
    constructor <;> simp +contextual [assignChain, hn]

theorem assignChain_lower (D : Demands templates cfg) (value : Js) (targets : List Js) :
    (assignChain (D.other.origin none) value targets).lower D.lowering =
      assignChain (cfg.origin none) (value.lower D.lowering) (targets.map (Js.lower D.lowering)) := by
  induction targets with
  | nil => rfl
  | cons _ _ ih => simp [assignChain, ih]

section

variable (ho : D.Covers (some node))

include ho

theorem collects_compileAssign (targets : List Expr) (value : Expr) :
    CollectsIn D [] (fun cfg => compileAssign cfg (site.place cfg) node targets value)
      (exprTasks site (assignExprs targets value)) fun j => [.stmt j] := by
  unfold compileAssign
  split
  · exact .throw _ _ _
  · exact collects_compileExports ho value
  · exact collects_compileDefaultExport ho value
  next hall hdefault =>
    unfold assignExprs
    split
    · exact (hall _ rfl).elim
    · exact (hdefault _ rfl).elim
    · rw [exprTasks_append]
      refine (collects_compileExprs _ _).bind fun ts _ => (Collects.expr site value).andPure fun v _ => ?_
      refine ((wraps_assignChain D.origin_none v ts).trans ?_).makes (by simp +contextual [assignChain_lower])
      constructor <;> simp +contextual [ho]

theorem collects_compileImport (names : List Alias) : CollectsIn D [] (fun cfg => compileImport cfg node names)
    [.act (.imports (names.map Alias.bound))] fun j => [.stmt j] := by
  have hnil : (names.flatMap fun _ => ([] : List Task)) = [] := by simp
  refine .guard D.lowers.es6 fun _ => (Collects.addGlobals _).bind fun _ _ => ?_
  rw [← hnil]
  have heach : CollectsIn D [] (fun cfg => names.mapM fun a => do
      let name := modulePath a.name
      refuseIf (name != a.name && a.asName.getD "" == "") node (.moduleName name)
      return Js.importOf (cfg.origin none) (.star (slashed name) (Alias.bound { a with name := name })))
      (names.flatMap fun _ => []) fun js => js.flatMap fun j => [.stmt j] := by
    refine Collects.mapM (m := fun j => [.stmt j]) fun a _ => .check (Does.refuseIf _ _ _) fun _ => .pure ?_
    constructor <;> simp +contextual [Import.masked, Import.Clean]
  refine Collects.under (heach.wrapped fun _ _ => ?_)
  rw [← List.map_eq_flatMap]
  constructor <;> simp +contextual [ho]

theorem collects_compileImportFrom
    (module : Option String) {names : List Alias} (hnames : D.words → ∀ a ∈ names, a.unbracketed = true)
    (haliases : D.placed → ∀ a ∈ names, D.origin (cfg.origin (some a.ref))) (level : Option Int) :
    CollectsIn D [] (fun cfg => compileImportFrom cfg node module names level)
      [.act (.imports (names.map Alias.bound))] fun j => [.stmt j] := by
  unfold compileImportFrom
  dsimp only
  split
  · refine .check (Does.demand _) fun _ => (Collects.addGlobals _).andPure fun _ _ => ?_
    constructor <;> simp +contextual [ho]
  · refine .guard D.lowers.es6 fun _ => (Collects.addGlobals _).bind fun _ _ => ?_
    split
    · exact .throw _ _ _
    · split
      · refine .check (Does.demand _) fun _ => .pure ?_
        have horigin (h : D.placed) : ∀ a ∈ names,
            D.origin (cfg.origin (some (if names.length = 1 then node else a.ref))) := by
          intro a ha
          split_ifs
          exacts [ho h, haliases h a ha]
        constructor <;>
        simp +contextual [ho, horigin, refsAll_eq_nil, Import.masked, Import.Clean]
      · split
        · refine .check (Does.refuseIf _ _ _) fun _ => .pure ?_
          constructor <;> simp +contextual [ho, Import.masked, Import.Clean]
        · refine .pure ?_
          simp only [Alias.unbracketed, Bool.and_eq_true, List.all_eq_true, Option.mem_toList] at hnames
          constructor <;> simp +contextual [ho, Import.masked, Import.Clean]
          exact hnames

end

/-! ### Loops -/

theorem bracketFree_of_name? {e : Expr} (h : e.unbracketed = true)
    (hid : e.name? = some id) : bracketFree id = true := by
  cases e with
  | name _ name =>
    obtain rfl : name = id := by simpa [Expr.name?] using hid
    simpa [Expr.unbracketed, Expr.every, Expr.hasWords] using h
  | _ => simp [Expr.name?] at hid

theorem collects_compileRangePart {other : String} (hother : Neutral other) (e : Option Expr) :
    CollectsIn D [] (fun cfg => compileRangePart cfg (site.place cfg) other e)
      (exprTasks site e.toList) fun j => [.tree j] := by
  cases e with
  | none => exact .pure (by constructor <;> simp +contextual [hother])
  | some e => exact Collects.expr site e

theorem repeats_loopForm (h : cfg.es6 = true → cfg'.es6 = true) (node : Ref) (target iter : Expr) (hasElse : Bool) :
    Repeats (loopForm cfg node target iter hasElse) (loopForm cfg' node target iter hasElse) := by
  unfold loopForm
  split
  · split
    case h_5 => exact .guard h (.refl _)
    all_goals exact .refl _
  · exact .refl _

theorem collects_compileLoop (ho : D.Covers (some node)) {target : Expr}
    (htarget : D.words → target.unbracketed = true) (hnamed : D.placed → target.name? ≠ some "") (iter : Expr)
    (hasElse : Bool) {body : Config → Run (List Js)}
    (hbody : CollectsIn D [] body bs fun js => js.map .stmt) :
    CollectsIn D [] (fun cfg => compileLoop cfg (site.place cfg) node target iter hasElse (body cfg))
      (((loopForm? target iter hasElse).map (loopTasks site target iter)).getD [] ++ bs)
      fun j => [.stmt j] := by
  refine .checkIn (repeats_loopForm D.lowers.es6 node target iter hasElse) (does_loopForm node target iter hasElse)
    (Stays.yields fun _ => stays_loopForm node target iter hasElse) fun form hform => ?_
  have hbinds := (binds_of_loopForm hform.1).1
  have hvar {var : String} (hname : target.name? = some var) (hD : D.words) : Neutral var :=
    neutral_of_bracketFree (bracketFree_of_name? (htarget hD) hname)
  rw [hform.1, Option.map_some, Option.getD_some]
  cases form with
  | range var start bound step =>
    have hvar := hvar hbinds
    rw [loopTasks, exprTasks_append, exprTasks_append, List.cons_append, List.append_assoc, List.append_assoc]
    refine Collects.newName.bindNames lower_text fun _ => (collects_compileRangePart (by decide) start).bind fun a _ =>
      (collects_compileRangePart (by decide) bound).bind fun b _ =>
      (collects_compileRangePart (by decide) step).bind fun c _ => hbody.andPure fun js js' => ?_
    have hcounter (h : D.placed) : var ≠ "" := fun hempty => hnamed h (hempty ▸ hbinds)
    constructor <;> simp +contextual [ho, or_imp, hvar, hcounter, neutral_of_bracketFree]
  | keys _ object own =>
    have hvar := hvar hbinds
    refine Collects.newName.bindNames lower_text fun _ => (Collects.expr site object).bind fun j _ =>
      hbody.andPure fun _ _ => ?_
    cases own
    all_goals
      constructor <;>
      simp +contextual +decide [ho, or_imp, plainCall, hvar, neutral_of_bracketFree]
  | elements object =>
    refine (Collects.expr site target).bind fun t _ => (Collects.expr site object).bind fun j _ =>
      hbody.andPure fun _ _ => ?_
    constructor <;> simp +contextual [ho]
  | array =>
    have hvar := hvar hbinds
    refine Collects.newName.bindNames lower_text fun _ => Collects.newName.bindNames lower_text fun _ =>
      Collects.newName.bindNames lower_text fun _ => (Collects.expr site iter).bind fun j _ =>
      hbody.andPure fun _ _ => ?_
    constructor <;> simp +contextual +decide [ho, or_imp, hvar, neutral_of_bracketFree]

/-! ### Exceptions -/

theorem collects_compileRaise (ho : D.Covers (some node)) (exc : Expr) :
    CollectsIn D [] (fun cfg => compileRaise cfg (site.place cfg) node exc) (raiseTasks site exc)
      fun j => [.stmt j] := by
  unfold raiseTasks
  split
  · refine .getCaught (fun _ => .pure ?_) (.throw _ _ _)
    constructor <;> simp +contextual [ho, neutral_of_bracketFree]
  next arg _ =>
    refine (Collects.expr site arg).andPure fun j _ => ?_
    constructor <;> simp +contextual +decide [ho]
  next habsent hexception =>
    have hrule (cfg : Config) : compileRaise cfg (site.place cfg) node exc =
        (do return Js.command (cfg.origin (some node)) .throw (← compileExpr cfg (site.place cfg) exc)) := by
      unfold compileRaise
      split
      · exact (habsent rfl).elim
      · exact (hexception _ _ _ _ rfl).elim
      · rfl
    simp only [hrule]
    refine (Collects.expr site _).andPure fun j _ => ?_
    constructor <;> simp +contextual [ho]

theorem collects_compileCatchTest (hcaught : D.words → Neutral caught) (type : Expr) :
    CollectsIn D [] (fun cfg => compileCatchTest cfg (site.place cfg) caught type)
      (exprTasks site (instanceExprs [] type)) fun j => [.tree j] :=
  collects_instanceNode (n := none) D.origin_none (x := fun cfg => pure (.name (cfg.origin none) (.text caught)))
    (.pure (by constructor <;> simp +contextual [hcaught])) type

theorem collects_beginTry (node : Ref) (handlers : List Handler) (orelse finalbody : List Stmt) :
    CollectsIn D [] (fun _ => beginTry node handlers orelse finalbody) (beginTryTasks node handlers) fun _ => [] := by
  refine .check (Does.refuseIf _ _ _) fun _ => ?_
  refine Collects.bindNames (Collects.forM fun h _ => ?_) lower_unit fun _ => ?_
  · split
    · exact .pure (.refl fun _ => rfl)
    · exact .warn _ _
  · dsimp only
    split
    · exact .throwBind _ _ _
    · cases handlers with
      | nil => exact .pure (.refl fun _ => rfl)
      | cons => exact (Collects.setCaught _).andPure fun _ _ => .refl fun _ => rfl

theorem yields_beginTry (node : Ref) (handlers : List Handler) (orelse finalbody : List Stmt) :
    Yields (beginTry node handlers orelse finalbody) (· = caughtName handlers) := by
  intro s a s' h
  exact (moves_beginTry { Spot.top with caught := s.context.exception? } node handlers orelse finalbody s rfl a s' h).2.2

theorem wraps_renameCaught (hn : D.placed → D.origin n)
    (hcaught : D.words → Neutral caught) {name : Option String} (hname : D.words → ∀ s ∈ name, Neutral s) :
    Wraps D [] ((renameCaught n caught name).map .apart) := by
  unfold renameCaught
  split
  · split
    · exact .refl []
    · constructor <;> simp +contextual [hn, hcaught, hname]
  · exact .refl []

theorem renameCaught_lower (D : Demands templates cfg) (caught : String) (name : Option String) :
    (renameCaught (D.other.origin none) caught name).map (Js.lower D.lowering) =
      renameCaught (cfg.origin none) caught name := by
  unfold renameCaught
  split
  · split <;> simp
  · rfl

theorem valuesFirst_renameCaught (n : Origin) (caught : String) (name : Option String)
    (h : ∀ j ∈ js, j.isStill = true) : ValuesFirst (renameCaught n caught name ++ js) := by
  unfold renameCaught
  split
  · split
    · exact valuesFirst_of_isStill h
    · exact valuesFirst_cons (by simp) h
  · exact valuesFirst_of_isStill h

theorem collects_compileHandlers (site : Site) (hcaught : D.words → Neutral caught)
    {handlers : List Handler} (hhandlers : D.words → unbracketedHandlers handlers = true) :
    CollectsIn D [] (fun cfg => compileHandlers templates cfg (site.place cfg) caught handlers)
      (handlerTasks site handlers) fun js => js.map .apart := by
  induction handlers with
  | nil =>
    simp only [compileHandlers]
    exact .pure (.refl fun _ => rfl)
  | cons h rest ih =>
    obtain ⟨_, type, name, body⟩ := h
    have hname (hD : D.words) : ∀ s ∈ name, Neutral s := by
      have hwords := hhandlers hD
      simp only [unbracketedHandlers, Bool.and_eq_true, List.all_eq_true, Option.mem_toList] at hwords
      exact fun s hs => neutral_of_bracketFree (hwords.1.1.2 s hs)
    have hrest (hD : D.words) : unbracketedHandlers rest = true := by
      have hwords := hhandlers hD
      simp only [unbracketedHandlers, Bool.and_eq_true] at hwords
      exact hwords.2
    have hrename := wraps_renameCaught D.origin_none hcaught hname
    have hbody (js : List Js) : Wraps D (js.map .stmt)
        ((renameCaught (cfg.origin none) caught name ++ js).map .apart) := by
      rw [List.map_append]
      exact hrename.append (.aparts js)
    have hlower := renameCaught_lower D caught name
    simp only [compileHandlers, handlerTasks]
    split
    · refine (Collects.stmts _ body).wrapped fun js _ =>
        ((hbody js).block D.origin_none fun hjs => ?_).makes (by simp +contextual [hlower])
      simp only [allMaterial_map, Material.Settled] at hjs
      exact valuesFirst_renameCaught _ caught name fun j hj => (hjs j hj).1
    · rw [List.append_assoc]
      refine (collects_compileCatchTest hcaught type).bind fun _ _ =>
        ((Collects.stmts _ body).imp hbody).bind fun js _ => ?_
      cases rest with
      | nil =>
        refine .pure (Wraps.makes ?_ (by simp +contextual [hlower]))
        generalize renameCaught _ caught name ++ js = all
        constructor <;> simp +contextual [or_imp, hcaught]
      | cons =>
        refine (ih hrest).andPure fun _ _ => Wraps.makes ?_ (by simp +contextual [hlower])
        generalize renameCaught _ caught name ++ js = all
        constructor <;> simp +contextual

/-! ### Classes -/

theorem wraps_classCall (f : Snippet) {cls : String} (hcls : D.words → Neutral cls) (keys values : List Js) :
    Wraps D (f.material cfg ++ (keys.map .operand ++ values.map .tree))
      [.stmt (classCall (cfg.origin none) f cls keys values)] := by
  constructor <;> simp +contextual +decide [classCall, plainCall, fieldOf, or_imp, hcls]

theorem classCall_lower (D : Demands templates cfg) (f : Snippet) (cls : String) (keys values : List Js) :
    (classCall (D.other.origin none) f cls keys values).lower D.lowering =
      classCall (cfg.origin none) f cls (keys.map (Js.lower D.lowering)) (values.map (Js.lower D.lowering)) := by
  simp [classCall, plainCall, fieldOf]

theorem collects_compileClassAssigns (h : ClassHeader) (hname : D.words → Neutral h.name)
    (assigns : List (String × Expr × Expr)) :
    CollectsIn D (Snippet.setProperties.material cfg)
      (fun cfg => compileClassAssigns cfg (site.place cfg) h assigns) (exprTasks site (classAssignExprs assigns))
      fun j => [.stmt j] := by
  unfold classAssignExprs
  rw [exprTasks_append, exprTasks_flatMap]
  have hkey (a : String × Expr × Expr) : CollectsIn D [] (fun cfg => compileClassKey cfg (site.place cfg) a.2.1)
      (exprTasks site (if a.2.1.name?.isSome then [] else [a.2.1])) fun j => [.operand j] := by
    unfold compileClassKey
    cases a.2.1.name? with
    | some => exact .pure (by constructor <;> simp +contextual)
    | none =>
      refine (Collects.expr site a.2.1).andPure fun j _ => ?_
      constructor <;> simp +contextual
  have hkeys := Collects.mapM fun a (_ : a ∈ assigns) => hkey a
  refine hkeys.bind fun keys _ => (Collects.eachExpr assigns (·.2.2)).andPure fun values _ => ?_
  rw [← List.map_eq_flatMap, List.append_assoc]
  exact (wraps_classCall _ hname keys values).makes (by simp +contextual [classCall_lower])

theorem collects_compileMethodDecorators (h : ClassHeader) (hname : D.words → Neutral h.name)
    (methods : List (String × Header)) :
    CollectsIn D (Snippet.setDecorators.material cfg)
      (fun cfg => compileMethodDecorators cfg (site.place cfg) h methods) (methodDecoratorTasks site methods)
      fun j => [.stmt j] := by
  have hvalues : CollectsIn D [] (fun cfg => methods.mapM fun m => do
      return Js.list (cfg.origin none)
        (← compileExprs cfg ((site.place cfg).inside m.2.name m.2.isAsync) m.2.decorators))
      (methodDecoratorTasks site methods) fun js => js.flatMap fun j => [.tree j] := by
    refine Collects.mapM (m := fun j => [.tree j]) fun m _ => ?_
    refine (collects_compileExprs (site.inside m.2.name m.2.isAsync) m.2.decorators).andPure fun _ _ => ?_
    constructor <;> simp +contextual
  refine hvalues.andPure fun values _ => ?_
  rw [← List.map_eq_flatMap]
  have hkeys : Wraps D [] ((methods.map fun m => Js.json (cfg.origin none) (.str m.1)).map .operand) := by
    refine .free fun j hj => ?_
    obtain ⟨_, -, rfl⟩ := List.mem_map.mp hj
    constructor <;> simp +contextual
  refine (Wraps.trans (.append (.refl _) ?_) (wraps_classCall _ hname _ values)).makes
    (by simp +contextual [classCall_lower, Function.comp_def])
  exact hkeys.append (.refl (values.map .tree))

theorem exists_collects_compileClassDecorators (site : Site) (h : ClassHeader)
    (hname : D.words → bracketFree h.name = true) : ∃ x : Config → Run Js,
      (∀ cfg, compileClassDecorators cfg (site.place cfg) h = inFrame (x cfg)) ∧
      CollectsIn D (Snippet.setClassDecorators.material cfg) x (exprTasks site h.decorators) fun j => [.stmt j] := by
  have hneutral (hD : D.words) : Neutral (normalizeName h.name) :=
    neutral_of_bracketFree (bracketFree_normalizeName (hname hD))
  have hnode : Makes D True [] (nameNode (cfg.origin none) h.name) (nameNode (D.other.origin none) h.name)
      [.operand (nameNode (cfg.origin none) h.name)] := by
    unfold nameNode
    split_ifs
    all_goals constructor <;> simp +contextual [hneutral]
  have hlower := hnode.lowers trivial
  have hwith (ms : List Material) : Wraps D ms (.operand (nameNode (cfg.origin none) h.name) :: ms) :=
    hnode.wraps.append (.refl ms)
  have hcall : CollectsIn D (Snippet.setClassDecorators.material cfg) (fun cfg => do
      let decorators ← compileExprs cfg (site.place cfg) h.decorators
      return plainCall (cfg.origin none) (fieldOf (cfg.origin none) "_pj" Snippet.setClassDecorators.name)
        [nameNode (cfg.origin none) h.name, .list (cfg.origin none) decorators])
      (exprTasks site h.decorators) fun j => [.tree j] := by
    refine (collects_compileExprs site h.decorators).andPure fun _ _ =>
      ((hwith _).trans ?_).makes (by simp +contextual [plainCall, fieldOf, ← hlower])
    generalize nameNode (cfg.origin none) h.name = node
    constructor <;> simp +contextual +decide [plainCall, fieldOf, or_imp, or_left_comm]
  refine ⟨_, fun _ => rfl, ?_⟩
  dsimp only
  split
  · exact .throw _ _ _
  · refine hcall.wrapped fun j _ => ?_
    constructor <;> simp +contextual [clean_masked_exportDefault]
  · refine hcall.wrapped fun j _ => ((hwith _).trans ?_).makes (by simp +contextual [← hlower])
    generalize nameNode (cfg.origin none) h.name = node
    constructor <;> simp +contextual

theorem yields_refs_compileClassDecorators (h : ClassHeader) :
    Yields (compileClassDecorators cfg here h) fun j => cfg.remap = none →
      Snippet.setClassDecorators.name ∈ j.refs := by
  have hcall : Yields (do
      let decorators ← compileExprs cfg here h.decorators
      return plainCall (cfg.origin none) (fieldOf (cfg.origin none) "_pj" Snippet.setClassDecorators.name)
        [nameNode (cfg.origin none) h.name, .list (cfg.origin none) decorators]) fun j => cfg.remap = none →
      Snippet.setClassDecorators.name ∈ j.refs :=
    .andThen _ fun _ => .pure (by simp +contextual [plainCall, fieldOf])
  refine .inFrame ?_
  dsimp only
  split
  · exact .throw _
  · exact hcall.bind fun j hj => .pure (by simpa using hj)
  · exact hcall.bind fun j hj => .pure fun hremap => by simpa using .inr (hj hremap)

theorem collects_compileClassDecorators (h : ClassHeader) : CollectsIn D (Snippet.setClassDecorators.material cfg)
    (fun cfg => compileClassDecorators cfg (site.place cfg) h) [.decorators site h] fun j => [.stmt j] := by
  refine ⟨.decorators site h, fun s j s' hj => ?_, (Collects.decorators site h).lowers⟩
  obtain ⟨vs, hvs, hwraps⟩ := (Collects.decorators site h).wraps s j s' hj
  have hrefs := yields_refs_compileClassDecorators h s j s' hj
  refine ⟨vs, hvs, ((Wraps.refl _).append hwraps).trans ?_⟩
  constructor
  · simp
  · simp
  · intro _ _
    simp only [refsOf_append, refsOf_cons, refsOf_nil, Snippet.refsOf_material, Material.refs]
    cases hremap : cfg.remap with
    | none =>
      have hmem : Snippet.setClassDecorators.name ∈ j.refs := hrefs hremap
      simp only [List.mem_append, Option.isNone_none, if_true, List.mem_singleton, List.append_nil]
      exact ⟨.inr, fun hx => hx.elim (fun hx => hx ▸ hmem) id⟩
    | some => simp
  · simp
  · simp
  · simp

theorem collects_compileMethods (site : Site) (body : List Stmt) :
    CollectsIn D [] (fun cfg => compileMethods templates cfg (site.place cfg) body)
      (stmtTasks site (methodStmts body)) fun js => js.map .stmt := by
  induction body with
  | nil =>
    simp only [compileMethods]
    exact .pure (.refl fun _ => rfl)
  | cons s _ ih =>
    cases s with
    | functionDef p isAsync name params inner ds returns =>
      have hstmt (ds : List Expr) : CollectsIn D [] (fun cfg => inFrame (compileFunction cfg
          (site.place cfg) ⟨p, isAsync, name, params, ds⟩ inner
          fun inside => compileBlock templates cfg inside inner))
          [.stmt site (.functionDef p isAsync name params inner ds returns)] fun j => [.stmt j] := by
        have hcollects : CollectsIn D [] (fun cfg => compileStmt templates cfg (site.place cfg)
            (.functionDef p isAsync name params inner ds returns)) _ _ := Collects.stmt site _
        simpa only [compileStmt] using hcollects
      simp only [compileMethods]
      exact (hstmt _).bind fun j _ => ih.andPure fun _ _ => .refl (by simp +contextual)
    | _ => exact ih

theorem Collects.stepIf {α : Type} [Lowerable α] {x y : Run Unit} {us : List Task}
    {ks : List Material} (hx : Collects D True [] x y ts fun _ => ks) {k k' : Unit → Run α}
    {out : α → List Material} (hk : Collects D True (ms ++ if cond then ks else []) (k ()) (k' ()) us out) :
    Collects D True ms (if cond = true then x >>= k else k ()) (if cond = true then y >>= k' else k' ())
      ((if cond then ts else []) ++ us) out := by
  cases cond with
  | true => exact hx.bindNames lower_unit fun _ => hk
  | false => exact hk.pre (by simpa using Wraps.refl ms)

abbrev materialUnless (cfg : Config) (cond : Bool) (f : Snippet) : List Material :=
  if !cond then f.material cfg else []

theorem collects_useClassSnippets (hsame : D.lowering = .same) (h : ClassHeader) (body : List Stmt) :
    CollectsIn D [] (fun _ => useClassSnippets h body) ((classSnippets h body).map (.act <| .use ·))
      fun _ => materialUnless cfg (classAssigns body).isEmpty .setProperties ++
        materialUnless cfg (decoratedMethods body).isEmpty .setDecorators ++
        materialUnless cfg h.decorators.isEmpty .setClassDecorators := by
  have hif (cond : Bool) (f : Snippet) : (if (!cond) = true then [Task.act (.use f)] else []) =
      (if cond = true then [] else [f]).map (.act <| .use ·) := by
    cases cond <;> rfl
  have huse (f : Snippet) : CollectsIn D [] (fun _ => useSnippet f) [.act (.use f)] fun _ => f.material cfg :=
    Collects.useSnippet (by rw [hsame]; rfl)
  have hlast (cond : Bool) (f : Snippet) (ms : List Material) : CollectsIn D ms
      (fun _ => if cond = true then useSnippet f else pure ()) (if cond = true then [.act (.use f)] else [])
      fun _ => ms ++ if cond then f.material cfg else [] := by
    cases cond with
    | true => exact (huse f).frame ms
    | false => exact .pure (Wraps.makes (by simpa using Wraps.refl ms) fun _ => rfl)
  simp only [useClassSnippets]
  rw [classSnippets, List.map_append, List.map_append, ← hif, ← hif, ← hif, List.append_assoc]
  exact .stepIf (huse _) (.stepIf (huse _) (hlast _ _ _))

theorem collects_optionally {x y : Run Js} (hx : Collects D True ms x y ts fun j => [.stmt j]) :
    Collects D True (if cond then ms else []) (optionally cond x) (optionally cond y) (if cond then ts else [])
      fun js => js.map .stmt := by
  cases cond with
  | true => exact hx.map fun _ => rfl
  | false => exact .pure (.refl fun _ => rfl)

theorem wraps_classDoc (hplaced : D.placed → ∀ s ∈ body, D.stmts s) :
    Wraps D [] ((classDoc cfg body).map .stmt) := by
  unfold classDoc
  split
  next p v rest =>
    have ho (h : D.placed) := (D.grounds h).stmt (.expr p v) (hplaced h _ (by simp))
    split
    · constructor <;> simp +contextual [ho]
    · exact .refl []
  · exact .refl []

theorem classDoc_lower (D : Demands templates cfg) (body : List Stmt) :
    (classDoc D.other body).map (Js.lower D.lowering) = classDoc cfg body := by
  unfold classDoc
  split
  · split <;> simp
  · rfl

theorem collects_compileClass (hsame : D.lowering = .same) {h : ClassHeader} (ho : D.Covers (some h.ref))
    (hname : D.words → bracketFree h.name = true)
    (hplaced : D.placed → ∀ s ∈ body, D.stmts s) :
    CollectsIn D [] (fun cfg => compileClass cfg (site.place cfg) h body fun inside => do
      return classDoc cfg body ++ (← compileMethods templates cfg inside body)) (classTasks site h body)
      fun j => [.stmt j] := by
  have hneutral (hD : D.words) : Neutral h.name := neutral_of_bracketFree (hname hD)
  have hbase : CollectsIn D [] (fun cfg => (h.bases.head?.map (compileExpr cfg (site.place cfg))).getD (pure .absent))
      (exprTasks site h.bases.head?.toList) fun j => [.tree j] := by
    cases h.bases.head? with
    | none => exact .pure (by constructor <;> simp)
    | some base => exact Collects.expr site base
  have hmembers : CollectsIn D [] (fun cfg => do
      return classDoc cfg body ++ (← compileMethods templates cfg ((site.member h.bases.head?).place cfg) body))
      (stmtTasks (site.member h.bases.head?) (methodStmts body)) fun js => js.map .stmt := by
    refine (collects_compileMethods _ body).wrapped fun js _ => ?_
    rw [List.map_append]
    exact ((wraps_classDoc hplaced).append (.refl (js.map .stmt))).makes (by simp +contextual [classDoc_lower])
  have hassigns (assigns : List (String × Expr × Expr)) : CollectsIn D
      (materialUnless cfg assigns.isEmpty .setProperties)
      (fun cfg => optionally (!assigns.isEmpty) (compileClassAssigns cfg (site.place cfg) h assigns))
      (exprTasks site (classAssignExprs assigns)) fun js => js.map .stmt := by
    cases assigns with
    | nil => exact .pure (.refl fun _ => rfl)
    | cons => exact collects_optionally (collects_compileClassAssigns h hneutral _)
  have hmethods (methods : List (String × Header)) (inside : Site) : CollectsIn D
      (materialUnless cfg methods.isEmpty .setDecorators)
      (fun cfg => optionally (!methods.isEmpty) (compileMethodDecorators cfg (inside.place cfg) h methods))
      (methodDecoratorTasks inside methods) fun js => js.map .stmt := by
    cases methods with
    | nil => exact .pure (.refl fun _ => rfl)
    | cons => exact collects_optionally (collects_compileMethodDecorators h hneutral _)
  have hdecorators : CollectsIn D (materialUnless cfg h.decorators.isEmpty .setClassDecorators)
      (fun cfg => optionally (!h.decorators.isEmpty) (compileClassDecorators cfg (site.place cfg) h))
      (if h.decorators.isEmpty then [] else [.decorators site h]) fun js => js.map .stmt := by
    cases h.decorators.isEmpty with
    | true => exact .pure (.refl fun _ => rfl)
    | false => exact collects_optionally (collects_compileClassDecorators h)
  unfold classTasks
  dsimp only
  simp only [List.append_assoc]
  refine .check (does_checkMembers body) fun _ => (collects_useClassSnippets hsame h body).bindNames lower_unit fun _ =>
    hbase.bind fun base _ => hmembers.bind fun js _ => ?_
  rw [← (sortAssigns_perm _).isEmpty_eq]
  generalize sortAssigns (classAssigns body) = assigns
  -- each statement after the class takes the reference that was noted for it
  let refs₁ := materialUnless cfg assigns.isEmpty .setProperties
  let refs₂ := materialUnless cfg (decoratedMethods body).isEmpty .setDecorators
  let refs₃ := materialUnless cfg h.decorators.isEmpty .setClassDecorators
  have htake₁ : Wraps D ([] ++ (refs₁ ++ refs₂ ++ refs₃) ++ [Material.tree base] ++ js.map .stmt)
      ([Material.tree base] ++ js.map .stmt ++ refs₂ ++ refs₃ ++ refs₁) :=
    .of_mem_iff fun m => by simp only [List.nil_append, List.mem_append, or_assoc, or_comm, or_left_comm]
  have htake₂ (ms : List Material) : Wraps D ([Material.tree base] ++ js.map .stmt ++ refs₂ ++ refs₃ ++ ms)
      ([Material.tree base] ++ js.map .stmt ++ ms ++ refs₃ ++ refs₂) :=
    .of_mem_iff fun m => by simp only [List.mem_append, or_assoc, or_comm, or_left_comm]
  have htake₃ (ms ks : List Material) : Wraps D ([Material.tree base] ++ js.map .stmt ++ ms ++ refs₃ ++ ks)
      ([Material.tree base] ++ js.map .stmt ++ ms ++ ks ++ refs₃) :=
    .of_mem_iff fun m => by simp only [List.mem_append, or_assoc, or_comm, or_left_comm]
  refine ((hassigns assigns).bindWith fun properties _ => ?_).pre htake₁
  refine ((hmethods _ (site.member h.bases.head?)).bindWith fun decorators _ => ?_).pre (htake₂ _)
  refine (hdecorators.andPureWith fun classDecorators _ => ?_).pre (htake₃ _ _)
  generalize hall : properties ++ decorators ++ classDecorators = all
  have hsplit : Wraps D ([Material.tree base] ++ js.map .stmt ++ properties.map .stmt ++ decorators.map .stmt ++
      classDecorators.map .stmt) ([Material.tree base] ++ js.map .stmt ++ all.map .stmt) := by
    rw [← hall, List.map_append, List.map_append]
    exact .of_mem_iff fun m => by simp only [List.mem_append, or_assoc, or_comm, or_left_comm]
  refine (hsplit.trans ?_).makes (by simp +contextual [← hall])
  constructor <;> simp +contextual [ho, or_imp, hneutral]

/-- The definition of an exception holds no references to run-time functions, its words hold no bracket if
its name holds none, and no declaration in it moves with a value. -/
structure TemplatesFit (templates : Templates) : Prop where
  isStatements : ∀ cfg name j, templates cfg (exceptionSource name) = .ok j → ∃ o items, j = .statements o items
  refs : ∀ cfg name j, cfg.remap.isSome = true → templates cfg (exceptionSource name) = .ok j → j.refs = []
  clean : ∀ cfg name j, isWord name = true → templates cfg (exceptionSource name) = .ok j → j.masked.Clean
  settled : ∀ cfg name j, templates cfg (exceptionSource name) = .ok j → j.isStill = true ∧ AllSettled j.nodes

theorem repeats_exceptionTemplate (hsame : D.lowering = .same) (h : ClassHeader) : Repeats
    (ofExcept (templates { cfg with remap := some h.ref, snippets := false, mapped := true } (exceptionSource h.name)))
    (ofExcept (templates { D.other with remap := some h.ref, snippets := false, mapped := true }
      (exceptionSource h.name))) := by
  rcases htemplate : templates { cfg with remap := some h.ref, snippets := false, mapped := true }
    (exceptionSource h.name) with e | j
  · exact .inl ⟨e, rfl⟩
  · exact .inr (by rw [D.again hsame _ _ _ htemplate])

theorem collects_compileExceptionClass (htemplates : TemplatesFit templates) (hsame : D.lowering = .same) {h : ClassHeader}
    (ho : D.Covers (some h.ref)) (hname : D.words → isWord h.name = true)
    (htraced : D.placed → TemplatesTraced templates cfg D.origin) :
    CollectsIn D [] (fun cfg => compileExceptionClass templates cfg h) [] fun j => [.stmt j] := by
  refine .checkIn (repeats_exceptionTemplate hsame h) (Does.ofExcept _) (Yields.ofExcept fun _ => id) fun j hj => ?_
  obtain ⟨_, _, rfl⟩ := htemplates.isStatements _ _ _ hj
  have hrefs := htemplates.refs _ _ _ rfl hj
  refine .pure ?_
  constructor
  · simp
  · simp
  · simpa [List.eq_nil_iff_forall_not_mem] using hrefs
  · intro hD _
    simpa using htemplates.clean _ _ _ (hname hD) hj
  · intro _
    simpa using htemplates.settled _ _ _ hj
  · intro hD _
    have htraced := htraced hD _ _ _ (ho hD) hj
    simp_all
  · intro _
    rw [lower_tree, Js.lower, D.origin_other, hsame, Script.lowerAll_eq_map, funext Js.lower_same, List.map_id']

/-! ### Statements -/

theorem repeats_checkClass (h : cfg.es6 = true → cfg'.es6 = true) (header : ClassHeader) (body : List Stmt) :
    Repeats (checkClass cfg header body) (checkClass cfg' header body) :=
  .guard h (.refl _)

theorem exists_collects_compileStmt (site : Site) (s : Stmt) (hs : (Task.stmt site s).isFramed = true)
    (htemplates : definesException s = true → TemplatesFit templates)
    (hwords : D.words → s.unbracketed = true)
    (hplaced : D.placed → D.stmts s) : ∃ x : Config → Run Js,
      (∀ cfg, compileStmt templates cfg (site.place cfg) s = inFrame (x cfg)) ∧
      CollectsIn D [] x (stmtParts site s) fun j => [.stmt j] := by
  have ho (h : D.placed) : D.origin (cfg.origin (some s.ref)) :=
    (D.grounds h).stmt s (hplaced h)
  cases s
  case bare e => cases hs
  all_goals
    simp only [compileStmt]
    refine ⟨_, fun _ => rfl, ?_⟩
  case functionDef p isAsync name params body ds returns =>
    simp only [Stmt.unbracketed, Bool.and_eq_true] at hwords
    exact collects_compileFunction ho body (fun h => (hwords h).1.1.1) fun h => (hwords h).1.1.2
  case classDef p name bases keywords body ds =>
    simp only [Stmt.unbracketed, Bool.and_eq_true] at hwords
    refine .checkIn (repeats_checkClass D.lowers.es6 _ body) (does_checkClass _ body)
      (Stays.yields fun _ => stays_checkClass _ body) fun _ hes6 => ?_
    have hsame := D.lowers.eq_same hes6
    rw [stmtParts]
    split
    next h =>
      exact collects_compileExceptionClass (htemplates h) hsame ho (fun h => (hwords h).1.1.1)
        fun hD => D.template hD _ (hplaced hD) h
    · refine collects_compileClass (h := ⟨p, name, bases, keywords, ds⟩) hsame ho
        (fun h => (Bool.and_eq_true_iff.mp (hwords h).1.1.1).2) fun h => ?_
      exact (D.grounds h).hereditary.body _ body (by simp [Stmt.bodies]) (hplaced h)
  case ret p value =>
    refine (Collects.expr site value).andPure fun j j' => ?_
    constructor <;> simp +contextual [ho]
  case delete p targets =>
    rw [stmtParts, exprTasks, List.map_eq_flatMap]
    have heach (source : Expr → Ref) (hsource : ∀ t ∈ targets, D.placed → D.origin (cfg.origin (some (source t)))) :
        CollectsIn D [] (fun cfg => targets.mapM fun t => do
          return Js.command (cfg.origin (some (source t))) .delete (← compileExpr cfg (site.place cfg) t))
        (targets.flatMap fun t => [.expr site t]) fun js => js.flatMap fun j => [.stmt j] := by
      refine Collects.mapM fun t ht => (Collects.expr site t).andPure fun j j' => ?_
      have hsource := hsource t ht
      constructor <;> simp +contextual [hsource]
    refine (heach _ fun t ht h => ?_).wrapped fun js js' => ?_
    · split_ifs
      · exact ho h
      · exact (D.grounds h).expr t ((D.grounds h).hereditary.operand _ t (by simpa [Stmt.operands] using ht) (hplaced h))
    rw [← List.map_eq_flatMap]
    constructor <;> simp +contextual [ho]
  case assign p targets value =>
    exact collects_compileAssign ho targets value
  case augAssign p target op value =>
    have htext : Yields (compileExpr cfg (site.place cfg) target) fun j =>
        D.placed → Script.Item.joinAll j.items ≠ "" :=
      fun s j s' hj h => yields_target ((D.grounds h).proper _ (hplaced h)) s j s' hj
    refine (Collects.expr site target).bindOf htext fun t t' ht => ?_
    unfold operatorNode
    cases BinOp.operator? op with
    | none => exact .throwBind _ _ _
    | some =>
      refine (Collects.expr site value).andPure fun j _ => ?_
      constructor <;> simp +contextual [ho, ht, or_imp]
  case annAssign p target annotation value =>
    refine (Collects.expr site target).bind fun t t' =>
      (Collects.expr site value).andPure fun j _ => ?_
    constructor <;> simp +contextual [ho]
  case forLoop p isAsync target iter body orelse =>
    split
    · exact .throwBind _ _ _
    · have hproper (h : D.placed) := (D.grounds h).proper _ (hplaced h)
      simp only [Stmt.unbracketed, Stmt.isProper, Bool.and_eq_true, bne_iff_ne] at hwords hproper
      exact collects_compileLoop ho (fun h => (hwords h).1.1.1) (fun h => (hproper h).1.1) iter _
        (Collects.stmts site.inner body)
  case whileLoop p test body orelse =>
    refine .check (Does.demand _) fun _ => (Collects.expr site test).bind fun t _ =>
      (Collects.stmts site.inner body).andPure fun _ _ => ?_
    constructor <;> simp +contextual [ho]
  case ifElse p test body orelse =>
    rw [stmtParts, List.append_assoc]
    refine (Collects.expr site test).bind fun t _ => (Collects.stmts site.inner body).bind fun _ _ =>
      (Collects.stmts site.inner orelse).andPure fun _ _ => ?_
    constructor <;> simp +contextual [ho]
  case raise p exc cause =>
    exact collects_compileRaise ho exc
  case tryBlock p star body handlers orelse finalbody =>
    rw [stmtParts, List.append_assoc, List.append_assoc]
    split
    · exact .throwBind _ _ _
    · have hhandlers (h : D.words) : unbracketedHandlers handlers = true := by
        have hwords := hwords h
        simp only [Stmt.unbracketed, Bool.and_eq_true] at hwords
        exact hwords.1.1.2
      have hcaught (h : D.words) : Neutral (caughtName handlers) :=
        neutral_of_bracketFree (bracketFree_caughtName (hhandlers h))
      refine (collects_beginTry _ handlers orelse finalbody).bindNamesOf (yields_beginTry _ _ _ _) lower_text ?_
      rintro _ rfl
      refine (Collects.stmts site.inner body).bind fun _ _ => ?_
      cases handlers with
      | nil =>
        rw [compileHandlers, pure_bind]
        refine (Collects.stmts site.inner finalbody).andPure fun _ _ => ?_
        constructor <;> simp +contextual [ho]
      | cons =>
        refine (collects_compileHandlers site.inner hcaught hhandlers).bind fun _ _ =>
          (Collects.stmts site.inner finalbody).andPure fun _ _ => ?_
        constructor <;> simp +contextual [ho, or_imp, hcaught]
  case assertion p test msg =>
    simp only [CollectsIn, D.lowers.snippets]
    split
    · exact .throwBind _ _ _
    · refine (Collects.useSnippet (by cases D.lowering <;> simp [SnippetLowers])).bindNames lower_unit fun _ =>
        (Collects.expr site test).bind fun t _ => (Collects.optional site msg).andPure fun _ _ => ?_
      cases msg.isAbsent
      all_goals constructor <;> simp +contextual +decide [ho, or_imp, plainCall]
  case importNames p names =>
    exact collects_compileImport ho names
  case importFrom p module names level =>
    simp only [Stmt.unbracketed, List.all_eq_true] at hwords
    exact collects_compileImportFrom ho module hwords (fun h => (D.grounds h).imported p module names level (hplaced h)) level
  case expr p value =>
    rw [stmtParts]
    cases value.str? with
    | some => exact .pure (by constructor <;> simp +contextual [ho])
    | none =>
      refine (Collects.expr site value).andPure fun j _ => ?_
      constructor <;> simp +contextual [ho]
  case pass p | breakLoop p | continueLoop p =>
    exact .pure (by constructor <;> simp +contextual [ho])
  case withBlock | global | nonlocal | matchBlock =>
    exact .throw _ _ _

theorem exists_does_compileStmt (s : Stmt) (hs : (Task.stmt site s).isFramed = true) : ∃ x : Run Js,
    compileStmt templates cfg (site.place cfg) s = inFrame x ∧ Does templates cfg x (stmtParts site s) := by
  by_cases hexception : definesException s = true
  · cases s with
    | classDef _ _ _ _ body =>
      refine ⟨_, by rw [compileStmt], (does_checkClass _ body).check fun _ => ?_⟩
      unfold definesException at hexception
      rw [stmtParts, if_pos hexception, if_pos hexception]
      refine (Does.ofExcept _).check fun _ => ?_
      split <;> exact .pure _
    | _ => simp [definesException] at hexception
  · obtain ⟨x, hx, hcollects⟩ := exists_collects_compileStmt (D := .none templates cfg) _ s hs
      (fun h => (hexception h).elim) False.elim False.elim
    exact ⟨x cfg, hx cfg, hcollects.does⟩

end Transpiler.Compile
