import Transpiler.Proofs.Compile.Independence

/-!
# Declarations along nested scopes

Every function of a module declares the names that its body binds, without its parameters, the names of
the module and those that the functions around it declare (`Trail.mem_vars`). The module declares its own
names, without those that an import anywhere in it binds (`mem_globals_iff`).
-/

namespace Transpiler.Compile

open Script (Js)
open Source (Alias Expr Params Stmt localNames)

variable {templates : Templates} {cfg : Config} {site : Site} {u : Task} {f : PlacedFunction} {vs : List Value}
  {val : Value}

/-! ### Functions and imports -/

structure PlacedFunction where
  site : Site
  header : Header
  body : List Stmt

def PlacedFunction.parameters (f : PlacedFunction) : List String :=
  f.site.parameters f.header

def Task.function? : Task → Option PlacedFunction
  | stmt site (.functionDef p isAsync name params body ds _) =>
    some ⟨site, ⟨p, isAsync, name, params, ds⟩, body⟩
  | _ => none

def Task.imported : Task → List Alias
  | stmt _ (.importNames _ names) | stmt _ (.importFrom _ _ names _) => names
  | _ => []

def caught? (handlers : List Source.Handler) : Option String :=
  if handlers.isEmpty then none else some (caughtName handlers)

def Task.caught? : Task → Option String
  | stmt _ (.tryBlock _ _ _ handlers _ _) => Compile.caught? handlers
  | _ => none

def Action.isNote : Action → Bool
  | scope .. | imports _ => false
  | draw | use _ | remark .. | catching _ | caught => true

theorem act_not_mem_exprTasks (a : Action) (es : List Expr) : Task.act a ∉ exprTasks site es := by
  simp [exprTasks]

theorem act_not_mem_stmtTasks (a : Action) (body : List Stmt) : Task.act a ∉ stmtTasks site body := by
  simp [stmtTasks]

theorem act_not_mem_handlerTasks (a : Action) (handlers : List Source.Handler) :
    Task.act a ∉ handlerTasks site handlers := by
  induction handlers with
  | nil => simp [handlerTasks]
  | cons handler _ ih =>
    obtain ⟨_, _, _, _⟩ := handler
    rw [handlerTasks]
    split <;> simp [act_not_mem_exprTasks, act_not_mem_stmtTasks, ih]

theorem act_mem_parts {a : Action} (h : .act a ∈ u.parts cfg) (ha : a.isNote = false) :
    (∃ f, u.function? = some f ∧ a = .scope f.parameters f.body) ∨ a = .imports (u.imported.map Alias.bound) := by
  cases u with
  | act => cases h
  | expr => cases exprPart_of_mem h <;> cases ha
  | decorators => exact (act_not_mem_exprTasks _ _ h).elim
  | stmt =>
    cases stmtPart_of_mem h with
    | act hact =>
      cases hact with
      | scope => exact .inl ⟨_, rfl, rfl⟩
      | importNames | importFrom => exact .inr rfl
      | _ => cases ha

theorem isConstruct_of_draw_mem (h : .act .draw ∈ u.parts cfg) : u.isConstruct = true := by
  cases u with
  | act => cases h
  | expr =>
    cases exprPart_of_mem h with
    | draw he => rw [he]; rfl
  | decorators => exact (act_not_mem_exprTasks _ _ h).elim
  | stmt =>
    cases stmtPart_of_mem h with
    | act hact => cases hact; rfl

theorem caught?_of_catching_mem {name : String} (h : .act (.catching name) ∈ u.parts cfg) : u.caught? = some name := by
  cases u with
  | act => cases h
  | expr => cases exprPart_of_mem h
  | decorators => exact (act_not_mem_exprTasks _ _ h).elim
  | stmt =>
    cases stmtPart_of_mem h with
    | act hact =>
      cases hact with
      | catching hhandlers => simp [Task.caught?, caught?, hhandlers]

theorem parts_of_function (cfg : Config) (h : u.function? = some f) :
    ∃ rest, u.parts cfg = .act (.scope f.parameters f.body) :: rest ∧ ∀ w ∈ rest, w.isScope = false := by
  unfold Task.function? at h
  split at h
  · cases h
    refine ⟨_, rfl, fun w hw => ?_⟩
    simp only [List.mem_append, mem_exprTasks, mem_stmtTasks] at hw
    rcases hw with (⟨x, -, rfl⟩ | ⟨s, -, rfl⟩) | ⟨x, -, rfl⟩ <;> rfl
  · cases h

theorem isScope_of_function?_eq_none {w : Task} (h : u.function? = none) (hw : w ∈ u.parts cfg) :
    w.isScope = false := by
  cases w with
  | act a =>
    cases a with
    | scope =>
      rcases act_mem_parts hw rfl with ⟨_, hf, -⟩ | ⟨⟨⟩⟩
      simp [h] at hf
    | _ => rfl
  | _ => rfl

/-! ### Variables along a trail -/

def Visit.declared (v : Visit) : List String :=
  match v.task.function? with
  | some f => declaredNames f.parameters f.body v.session
  | none => []

theorem vars_start (u : Task) (s : Session) : (u.start s).context.vars = s.context.vars := by
  unfold Task.start
  split
  · simp [Context.vars, Session.entered]
  · rfl

variable {ts : List Task} {s s' : Session} {v w : Visit} {rest : List Visit} {x : String}

theorem RunsTo.vars (hts : ∀ u ∈ ts, u.isScope = false)
    (h : RunsTo templates cfg ts s vs s') : s'.context.vars = s.context.vars :=
  h.relate (fun s s' => s'.context.vars = s.context.vars) (fun _ => rfl) (fun h h' => h'.trans h)
    fun u hu _ _ _ hrun => (Effect.of_run hrun).vars (hts u hu)

theorem Visits.mem_vars (h : Visits templates cfg (w.task.parts cfg) (w.task.start w.session) v)
    (hv : v.task.isScope = false) :
    x ∈ v.session.context.vars ↔ x ∈ w.session.context.vars ∨ x ∈ w.declared := by
  obtain ⟨_, hvs⟩ := h.runs
  cases hf : w.task.function? with
  | none =>
    have hscope (u : Task) (hu : u ∈ (w.task.parts cfg).take v.index) : u.isScope = false :=
      isScope_of_function?_eq_none hf (List.mem_of_mem_take hu)
    simp [hvs.vars hscope, vars_start, Visit.declared, hf]
  | some =>
    obtain ⟨_, hparts, hrest⟩ := parts_of_function cfg hf
    rw [hparts] at hvs
    cases hindex : v.index with
    | zero =>
      -- the first part is the one that notes the variables
      have := h.task
      simp only [hparts, hindex, List.getElem?_cons_zero, Option.some.injEq] at this
      simp [← this, Task.isScope] at hv
    | succ =>
      rw [hindex, List.take_succ_cons, runsTo_cons] at hvs
      obtain ⟨_, _, _, hscope, hws, -⟩ := hvs
      obtain ⟨_, hvars, -⟩ := map_eq_ok_iff.mp hscope
      obtain ⟨rfl, rfl⟩ := openScope_eq_ok hvars
      rw [hws.vars fun u hu => hrest u (List.mem_of_mem_take hu)]
      simp [vars_start, Visit.declared, hf, declaredNames]

theorem Trail.mem_vars (hts : ∀ u ∈ ts, u.isScope = false) (h : Trail templates cfg ts s (v :: rest))
    (hv : v.task.isScope = false) :
    x ∈ v.session.context.vars ↔ x ∈ s.context.vars ∨ ∃ w ∈ rest, x ∈ w.declared := by
  induction h using Trail.along with
  | part _ hvisit =>
    obtain ⟨_, hvs⟩ := hvisit.runs
    simp [hvs.vars fun u hu => hts u (List.mem_of_mem_take hu)]
  | deeper _ w _ _ hvisit ih =>
    have hw : w.task.isScope = false := by
      cases htask : w.task with
      | act a => exact (Trail.ne_act hvisit a htask).elim
      | _ => rfl
    rw [hvisit.mem_vars hv, ih hw, or_assoc]
    simp only [List.mem_cons, exists_eq_or_imp]
    exact or_congr_right or_comm

/-! ### Imports along a trail -/

theorem RunsTo.exists_visit {P : Session → Prop} (h : RunsTo templates cfg ts s vs s') (hs' : P s') :
    P s ∨ ∃ v val t, Visits templates cfg ts s v ∧ v.task.run templates cfg v.session = .ok val t ∧
      ¬ P v.session ∧ P t := by
  induction ts generalizing s vs with
  | nil =>
    obtain ⟨-, rfl⟩ := runsTo_nil.mp h
    exact .inl hs'
  | cons u _ ih =>
    obtain ⟨val, t, _, hu, hws, -⟩ := runsTo_cons.mp h
    rcases ih hws with ht | ⟨v, val', t', ⟨htask, vs', hvs'⟩, hrun⟩
    · by_cases hs : P s
      · exact .inl hs
      · exact .inr ⟨⟨0, u, s⟩, val, t, ⟨rfl, [], by simp⟩, hu, hs, ht⟩
    · refine .inr ⟨⟨v.index + 1, v.task, v.session⟩, val', t', ⟨htask, val :: vs', ?_⟩, hrun⟩
      exact runsTo_cons.mpr ⟨val, t, vs', hu, hvs', rfl⟩

theorem globals_act {a : Action} (h : a.run s = .ok val s') (hx : x ∈ s'.globals)
    (hnot : x ∉ s.globals) : ∃ names, a = .imports names ∧ x ∈ names := by
  cases a with
  | imports names =>
    obtain ⟨_, hadd, -⟩ := map_eq_ok_iff.mp h
    obtain ⟨_, rfl, hglobals⟩ := addGlobals_eq_ok hadd
    exact ⟨names, rfl, ((hglobals x).mp hx).resolve_left hnot⟩
  | draw =>
    obtain ⟨name, hname, -⟩ := map_eq_ok_iff.mp h
    obtain ⟨-, rfl⟩ := ends_newName s name s' hname
    exact (hnot hx).elim
  | use =>
    obtain ⟨_, huse, -⟩ := map_eq_ok_iff.mp h
    obtain ⟨-, _, rfl⟩ := useSnippet_eq_ok huse
    exact (hnot hx).elim
  | remark | scope | catching | caught =>
    obtain ⟨_, hstep, -⟩ := map_eq_ok_iff.mp h
    cases hstep
    exact (hnot hx).elim

theorem Trail.exists_import {t : Session} (h : Trail templates cfg ts s (v :: rest))
    (hrun : v.task.run templates cfg v.session = .ok val t) (hx : x ∈ t.globals)
    (hnot : x ∉ v.session.globals) : (∃ names, v.task = .act (.imports names) ∧ x ∈ names) ∨
      ∃ w above, Trail templates cfg ts s (w :: above) ∧ x ∈ w.task.imported.map Alias.bound := by
  generalize hu : v.task = u at hrun
  induction u using Task.induction cfg generalizing v rest val t with
  | act =>
    obtain ⟨names, rfl, hnames⟩ := globals_act hrun hx hnot
    exact .inl ⟨names, rfl, hnames⟩
  | node _ hact ih =>
    subst hu
    obtain ⟨_, _, hvs, rfl⟩ := Task.runs_parts hact hrun
    rw [Task.globals_finish] at hx
    rcases hvs.exists_visit (P := fun t => x ∈ t.globals) hx with hstart | ⟨w, _, _, hw, hwrun, hwnot, hwx⟩
    · rw [Task.globals_start] at hstart
      exact (hnot hstart).elim
    · refine .inr ?_
      rcases ih w.task hw.mem (h.deeper hw) hwx hwnot rfl hwrun with ⟨names, hnames, hmem⟩ | hfound
      · rcases act_mem_parts (hnames ▸ hw.mem) rfl with ⟨_, -, ⟨⟩⟩ | hnames
        obtain rfl : names = _ := by simpa using hnames
        exact ⟨v, rest, h, hmem⟩
      · exact hfound

theorem mem_globals_of_imported (h : u.run templates cfg s = .ok val s')
    (hx : x ∈ u.imported.map Alias.bound) : x ∈ s'.globals := by
  have hparts : u.parts cfg = [.act (.imports (u.imported.map Alias.bound))] := by
    unfold Task.imported at hx
    split at hx
    · rfl
    · rfl
    · simp at hx
  have hact (a : Action) : u ≠ .act a := by
    rintro rfl
    simp [Task.parts] at hparts
  obtain ⟨_, _, hvs, rfl⟩ := Task.runs_parts hact h
  rw [hparts, runsTo_cons] at hvs
  obtain ⟨_, _, _, himport, hws, -⟩ := hvs
  obtain ⟨-, rfl⟩ := runsTo_nil.mp hws
  obtain ⟨_, hadd, -⟩ := map_eq_ok_iff.mp himport
  obtain ⟨_, rfl, hglobals⟩ := addGlobals_eq_ok hadd
  rw [Task.globals_finish]
  exact (hglobals x).mpr (.inr hx)

theorem mem_globals_iff (hts : ∀ u ∈ ts, ∀ a, u ≠ .act a)
    (h : RunsTo templates cfg ts s vs s') : x ∈ s'.globals ↔ x ∈ s.globals ∨
      ∃ w above, Trail templates cfg ts s (w :: above) ∧ x ∈ w.task.imported.map Alias.bound := by
  constructor
  · intro hx
    rcases h.exists_visit (P := fun t => x ∈ t.globals) hx with hs | ⟨v, _, _, hv, hrun, hnot, hvx⟩
    · exact .inl hs
    · refine .inr ?_
      rcases (Trail.part hv).exists_import hrun hvx hnot with ⟨_, hact, -⟩ | hfound
      · exact (hts v.task hv.mem _ hact).elim
      · exact hfound
  · rintro (hx | ⟨_, _, htrail, hx⟩)
    · exact h.globals hx
    · obtain ⟨_, _, hrun, ht⟩ := htrail.run h
      exact ht (mem_globals_of_imported hrun hx)

/-! ### What is written for a function -/

structure Callable where
  args : List Js
  body : List Js
  rest : Js
  named : List Js

/-- The function that a tree holds: on its own, as the member of a class, with the variable that it is
assigned to, or with the statement that binds it. -/
def callable? : Js → Option Callable
  | .func _ _ _ args body rest named | .member _ _ _ _ args body rest named
  | .statements _ [.declare .., .func _ _ _ args body rest named]
  | .statements _ [.func _ _ _ args body rest named, .exprStmt ..] => some ⟨args, body, rest, named⟩
  | _ => none

def parameterName? : Js → Option String
  | .text name | .assign _ (.text name) _ | .marked _ _ (.text name) => some name
  | _ => none

def Callable.parameters (c : Callable) : List String :=
  (c.args ++ c.rest :: c.named).filterMap parameterName?

/-- The names of the parameters that are written for a function. Some members of a class leave them
out. -/
def PlacedFunction.written (f : PlacedFunction) : List String :=
  let ps := f.header.params
  let given := (f.site.params f.header).map (·.1)
  let named := (ps.vararg.map (·.name)).toList ++ (ps.kwOnly.zip ps.kwDefaults).map (·.1.name)
  if f.site.owner?.isNone then given ++ named
  else
    let taken := memberArity f.header (isGenerator f.body)
    taken.1.select given ++ if taken.2 then named else []

theorem yields_params (here : Place) (params : List (String × Default)) :
    Yields (inOrder (params.map (compileParam cfg here))) fun js =>
      js.filterMap parameterName? = params.map (·.1) := by
  have hparam (p : String × Default) : Yields (compileParam cfg here p) fun j => parameterName? j = some p.1 := by
    obtain ⟨_, d⟩ := p
    cases d with
    | none => exact .pure rfl
    | value => exact .andThen _ fun _ => .pure rfl
    | emptyDict => exact .pure rfl
  induction params with
  | nil => exact .pure rfl
  | cons p _ ih =>
    rw [List.map_cons, inOrder, List.mapM_cons]
    refine (hparam p).bind fun j hj => Yields.bind ih fun _ hjs => .pure ?_
    simp [hj, hjs]

theorem yields_compileKeywordParams_names (here : Place) (ps : Params) :
    Yields (compileKeywordParams cfg here ps) fun js =>
      js.filterMap parameterName? = (ps.kwOnly.zip ps.kwDefaults).map (·.1.name) := by
  unfold compileKeywordParams
  generalize ps.kwOnly.zip ps.kwDefaults = params
  induction params with
  | nil => exact .pure rfl
  | cons p _ ih =>
    rw [List.mapM_cons]
    have hparam : Yields (do
        if p.2.isAbsent then return Js.text p.1.name
        return Js.assign (cfg.origin none) (.text p.1.name) (← compileExpr cfg here p.2))
        fun j => parameterName? j = some p.1.name := by
      split
      · exact .pure rfl
      · exact .andThen _ fun _ => .pure rfl
    refine hparam.bind fun j hj => Yields.bind ih fun _ hjs => .pure ?_
    simp [hj, hjs]

theorem filterMap_restParam (n : Script.Origin) (ps : Params) (named : List Js) :
    (restParam n ps :: named).filterMap parameterName? =
      (ps.vararg.map (·.name)).toList ++ named.filterMap parameterName? := by
  unfold restParam
  split
  next ha => simp [ha, parameterName?]
  next ha =>
    rw [ha]
    exact List.filterMap_cons_none rfl

theorem yields_functionNode {form : FuncForm} {here : Place}
    (hform : form.Takes f.site.owner?.isSome f.header (isGenerator f.body)) {block : Run (List Js)}
    {P : List Js → Prop} (hblock : Yields block P) :
    Yields (functionNode cfg f.header form ((f.site.params f.header).map (compileParam cfg here)) block
      (compileKeywordParams cfg here f.header.params)) fun j =>
        ∃ c, callable? j = some c ∧ P c.body ∧ c.parameters = f.written := by
  have hfree (h : f.site.owner?.isSome = false) : f.site.owner?.isNone = true := by simpa using h
  -- a function that is no member takes all parameters
  have hfunc (hfree : f.site.owner?.isNone = true) (o : Script.Origin) (kind : Script.Func)
      (name : Option String) : Yields (do
        let args ← inOrder ((f.site.params f.header).map (compileParam cfg here))
        let js ← block
        return Js.func o kind name args js (restParam (cfg.origin none) f.header.params)
          (← compileKeywordParams cfg here f.header.params)) fun j =>
      ∃ c : Callable, j = .func o kind name c.args c.body c.rest c.named ∧ P c.body ∧ c.parameters = f.written := by
    refine (yields_params here _).bind fun args hargs => hblock.bind fun js hjs =>
      (yields_compileKeywordParams_names here _).bind fun named hnamed =>
        .pure ⟨⟨args, js, restParam (cfg.origin none) f.header.params, named⟩, rfl, hjs, ?_⟩
    simp only [Callable.parameters, PlacedFunction.written, hfree, if_true, List.filterMap_append,
      filterMap_restParam, hargs, hnamed]
  cases form with
  | func =>
    refine (hfunc (hfree hform) _ _ _).imp ?_
    rintro _ ⟨c, rfl, hc⟩
    exact ⟨c, rfl, hc⟩
  | arrow =>
    refine (hfunc (hfree hform) _ _ _).bind ?_
    rintro _ ⟨c, rfl, hc⟩
    exact .pure ⟨c, rfl, hc⟩
  | bound =>
    refine (hfunc (hfree hform) _ _ _).bind ?_
    rintro _ ⟨c, rfl, hc⟩
    exact .pure ⟨c, rfl, hc⟩
  | member _ _ _ arity takesNamed =>
    obtain ⟨hmember, harity⟩ : f.site.owner?.isSome = true ∧
      memberArity f.header (isGenerator f.body) = (arity, takesNamed) := hform
    have howned : f.site.owner?.isNone = false := by simpa using hmember
    unfold functionNode
    dsimp only
    rw [← Arity.map_select]
    refine (yields_params here _).bind fun args hargs => hblock.bind fun js hjs => ?_
    rw [Arity.map_select] at hargs
    cases takesNamed with
    | true =>
      refine (yields_compileKeywordParams_names here _).bind fun named hnamed =>
        .pure ⟨⟨args, js, restParam (cfg.origin none) f.header.params, named⟩, rfl, hjs, ?_⟩
      simp only [Callable.parameters, PlacedFunction.written, howned, harity, List.filterMap_append,
        filterMap_restParam, hargs, hnamed]
      rfl
    | false =>
      refine .pure ⟨⟨args, js, .absent, []⟩, rfl, hjs, ?_⟩
      simp only [Callable.parameters, PlacedFunction.written, howned, harity, List.filterMap_append, hargs]
      rfl

theorem yields_declaring (n : Script.Origin) (vars : List String) (x : Run (List Js)) :
    Yields (declaring n vars <$> x) fun body => ∃ js t t', x t = .ok js t' ∧ body = declaring n vars js := by
  intro t _ t' h
  obtain ⟨js, hjs, rfl⟩ := map_eq_ok_iff.mp h
  exact ⟨js, t, t', hjs, rfl⟩

theorem exists_callable (hf : u.function? = some f) (h : u.run templates cfg s = .ok val s') :
    ∃ j c js t t', val = .tree j ∧ callable? j = some c ∧ c.parameters = f.written ∧
      compileBlock templates cfg ((f.site.inside f.header.name f.header.isAsync).place cfg) f.body t = .ok js t' ∧
      c.body = declaring (cfg.origin none) (declaredNames f.parameters f.body s) js := by
  unfold Task.function? at hf
  split at hf
  next site p isAsync name params body ds returns =>
    cases hf
    obtain ⟨j, hj, rfl⟩ := map_eq_ok_iff.mp h
    rw [compileStmt, inFrame_eq_ok_iff] at hj
    obtain ⟨t, hj, rfl⟩ := hj
    unfold compileFunction at hj
    simp only [bind_eq_ok_iff, Site.isSome_owner_place] at hj
    obtain ⟨_, t₁, hcheck, _, _, hscope, _, _, hform, hnode⟩ := hj
    -- nothing is noted before the variables of the function
    obtain rfl : t₁ = s.entered := by
      obtain ⟨_, hg⟩ : Does templates cfg (checkFunction cfg (site.place cfg) _) [] :=
        does_checkFunction ⟨p, isAsync, name, params, ds⟩
      obtain ⟨_, hvs, -⟩ := (hg _ _ _).mp hcheck
      exact (runsTo_nil.mp hvs).2
    obtain ⟨rfl, rfl⟩ := openScope_eq_ok hscope
    have htakes := yields_formOf _ _ _ _ _ _ hform
    rw [Site.isSome_owner_place] at htakes
    obtain ⟨c, hc, ⟨js, t, t', hjs, hbody⟩, hparams⟩ :=
      yields_functionNode (f := ⟨site, ⟨p, isAsync, name, params, ds⟩, body⟩) htakes (yields_declaring _ _ _)
        _ _ _ hnode
    exact ⟨j, c, js, t, t', rfl, hc, hparams, hjs, hbody⟩
  · cases hf

/-! ### Modules -/

abbrev ModuleTrail (cfg : Config) (site : Site) (body : List Stmt) (trail : List Visit) : Prop :=
  Trail compileTemplate cfg (stmtTasks site body) (.ofModule body) trail

/-- An import statement that is compiled with a module, at whatever depth, binds a name; `name` says what
is bound by an alias. -/
def Imports (cfg : Config) (site : Site) (body : List Stmt) (name : Alias → String) (x : String) : Prop :=
  ∃ v rest, ModuleTrail cfg site body (v :: rest) ∧ ∃ a ∈ v.task.imported, name a = x

/-- The variable that an alias binds in the source: without a name of its own, it is the first part of a
dotted name. -/
def Alias.variable (a : Alias) : String :=
  Alias.bound { a with name := String.ofList (a.name.toList.takeWhile (· != '.')) }

def Alias.isPlain (a : Alias) : Bool :=
  !a.name.toList.contains '.' || (a.asName.getD "") != ""

theorem Alias.variable_eq_bound {a : Alias} (h : Alias.isPlain a = true) : Alias.variable a = Alias.bound a := by
  unfold Alias.variable Alias.bound
  cases hname : a.asName.getD "" == "" with
  | false => cases hs : a.asName <;> simp_all
  | true =>
    have hdot : '.' ∉ a.name.toList := by simpa [Alias.isPlain, bne, hname] using h
    have hne (c : Char) (hc : c ∈ a.name.toList) : (c != '.') = true := by
      rw [bne_iff_ne]
      rintro rfl
      exact hdot hc
    have hall : (a.name.toList ++ []).takeWhile (· != '.') = _ := List.takeWhile_append_of_pos hne
    rw [List.append_nil, List.takeWhile_nil, List.append_nil] at hall
    simp only [hall, String.ofList_toList]

structure DeclaresAlong (cfg : Config) (site : Site) (body : List Stmt) (compiled : Compiled) : Prop where
  /-- The body of a function starts with the declaration of the names that the function declares. -/
  written : ∀ v rest f, ModuleTrail cfg site body (v :: rest) → v.task.function? = some f →
    ∃ j t c js, v.task.run compileTemplate cfg v.session = .ok (.tree j) t ∧ callable? j = some c ∧
      js.length = f.body.length ∧ c.body = declaring (cfg.origin none) v.declared js
  /-- No function declares a parameter, a name of the module, or what a function around it declares. -/
  disjoint : ∀ v rest f, ModuleTrail cfg site body (v :: rest) → v.task.function? = some f →
    ∀ x ∈ v.declared, x ∉ f.parameters ∧ x ∉ localNames body ∧ ∀ w ∈ rest, x ∉ w.declared
  /-- Every name that the body of a function binds is one of these. -/
  complete : ∀ v rest f, ModuleTrail cfg site body (v :: rest) → v.task.function? = some f →
    ∀ x ∈ localNames f.body, x ∈ f.parameters ∨ x ∈ v.declared ∨ (∃ w ∈ rest, x ∈ w.declared) ∨
      x ∈ localNames body
  /-- The module declares its names, without those that imports bind. -/
  module : ∃ vars js, js.length = body.length ∧
    compiled.script = .statements (cfg.origin none) (declaration (cfg.origin none) vars ++ js) ∧
    ∀ x, x ∈ vars ↔ x ∈ localNames body ∧ ¬ Imports cfg site body Alias.bound x
  /-- Imports bind the variables that they bind in the source, if none gives a dotted name only. -/
  imports : (∀ v rest, ModuleTrail cfg site body (v :: rest) →
      ∀ a ∈ v.task.imported, Alias.isPlain a = true) →
    ∀ x, Imports cfg site body Alias.bound x ↔ Imports cfg site body Alias.variable x

theorem mem_declared (hf : v.task.function? = some f) : x ∈ v.declared ↔
    x ∈ localNames f.body ∧ x ∉ f.parameters ∧ x ∉ v.session.context.vars := by
  simp [Visit.declared, hf, declaredNames]

section

variable {body : List Stmt} {compiled : Compiled}

theorem ModuleTrail.mem_vars (h : ModuleTrail cfg site body (v :: rest)) (hf : v.task.function? = some f) :
    x ∈ v.session.context.vars ↔ x ∈ localNames body ∨ ∃ w ∈ rest, x ∈ w.declared := by
  have hts (u : Task) (hu : u ∈ stmtTasks site body) : u.isScope = false := by
    obtain ⟨_, -, rfl⟩ := mem_stmtTasks.mp hu
    rfl
  have hv : v.task.isScope = false := by
    cases htask : v.task with
    | act => simp [htask, Task.function?] at hf
    | _ => rfl
  rw [Trail.mem_vars hts h hv, Session.ofModule, Session.vars_withVars]

section

variable (h : compileModule cfg (site.place cfg) body = .ok compiled)

include h

theorem mem_globals_module : x ∈ compiled.session.globals ↔ Imports cfg site body Alias.bound x := by
  obtain ⟨_, hjs, -⟩ := compileModule_eq_ok h
  have hts (u : Task) (hu : u ∈ stmtTasks site body) (a : Action) : u ≠ .act a := by
    obtain ⟨_, -, rfl⟩ := mem_stmtTasks.mp hu
    simp
  rw [mem_globals_iff hts (compileBlock_eq_ok_iff.mp hjs)]
  have hstart : (Session.ofModule body).globals = [] := rfl
  simp only [hstart, List.not_mem_nil, false_or, Imports, List.mem_map]

theorem ModuleTrail.exists_callable (htrail : ModuleTrail cfg site body (v :: rest)) (hf : v.task.function? = some f) :
    ∃ j t c js, v.task.run compileTemplate cfg v.session = .ok (.tree j) t ∧ callable? j = some c ∧
      c.parameters = f.written ∧ js.length = f.body.length ∧
      c.body = declaring (cfg.origin none) v.declared js := by
  obtain ⟨_, hjs, -⟩ := compileModule_eq_ok h
  obtain ⟨_, t, hrun, -⟩ := htrail.run (compileBlock_eq_ok_iff.mp hjs)
  obtain ⟨j, c, js', _, _, rfl, hc, hparams, hbody, hdeclared⟩ := Compile.exists_callable hf hrun
  refine ⟨j, t, c, js', hrun, hc, hparams, ?_, ?_⟩
  · simpa [stmtTasks] using (compileBlock_eq_ok_iff.mp hbody).length_eq
  · rw [hdeclared, Visit.declared, hf]

theorem exists_script_compileModule : ∃ vars js, js.length = body.length ∧
    compiled.script = .statements (cfg.origin none) (declaration (cfg.origin none) vars ++ js) ∧
    ∀ x, x ∈ vars ↔ x ∈ localNames body ∧ ¬ Imports cfg site body Alias.bound x := by
  obtain ⟨js, hjs, hscript⟩ := compileModule_eq_ok h
  refine ⟨_, js, ?_, hscript, fun x => ?_⟩
  · simpa [stmtTasks] using (compileBlock_eq_ok_iff.mp hjs).length_eq
  · simp [mem_globals_module h]

end

theorem declaresAlong_of_compileModule (h : compileModule cfg (site.place cfg) body = .ok compiled) :
    DeclaresAlong cfg site body compiled := by
  constructor
  case written =>
    intro v rest f htrail hf
    obtain ⟨j, t, c, js, hrun, hc, -, hlength, hbody⟩ := htrail.exists_callable h hf
    exact ⟨j, t, c, js, hrun, hc, hlength, hbody⟩
  case disjoint =>
    intro v rest f htrail hf x hx
    obtain ⟨-, hparams, hvars⟩ := (mem_declared hf).mp hx
    rw [htrail.mem_vars hf] at hvars
    refine ⟨hparams, fun hmodule => hvars (.inl hmodule), fun w hw hxw => hvars (.inr ⟨w, hw, hxw⟩)⟩
  case complete =>
    intro v rest f htrail hf x hx
    by_cases hparams : x ∈ f.parameters
    · exact .inl hparams
    · by_cases hvars : x ∈ v.session.context.vars
      · exact .inr (.inr ((htrail.mem_vars hf).mp hvars).symm)
      · exact .inr (.inl ((mem_declared hf).mpr ⟨hx, hparams, hvars⟩))
  case module => exact exists_script_compileModule h
  case imports =>
    intro hplain x
    constructor
    · rintro ⟨v, rest, htrail, a, ha, rfl⟩
      exact ⟨v, rest, htrail, a, ha, Alias.variable_eq_bound (hplain v rest htrail a ha)⟩
    · rintro ⟨v, rest, htrail, a, ha, rfl⟩
      exact ⟨v, rest, htrail, a, ha, (Alias.variable_eq_bound (hplain v rest htrail a ha)).symm⟩

end

/-- A function in a function, with an import inside; both assign to the variable of the outer one. -/
def nestedScopes : List Stmt :=
  [.assign none [.name none "x"] (.constant none (.number "1")),
    .functionDef none false "f" { (default : Params) with args := [⟨none, "a", .absent⟩] }
      [.assign none [.tuple none [.name none "x", .name none "y"]] (.name none "a"),
        .functionDef none false "g" default
          [.assign none [.name none "y", .name none "z"] (.name none "x"),
            .importNames none [⟨none, "m.n", some "k"⟩]] [] .absent] [] .absent]

theorem declaresAlong_nestedScopes :
    ∃ compiled, compileModule (.standard true false) (Site.top.place (.standard true false)) nestedScopes =
      .ok compiled ∧ DeclaresAlong (.standard true false) .top nestedScopes compiled := by
  obtain ⟨compiled, h⟩ : ∃ compiled, compileModule (.standard true false)
    (Site.top.place (.standard true false)) nestedScopes = .ok compiled := ⟨_, rfl⟩
  exact ⟨compiled, h, declaresAlong_of_compileModule h⟩

/-- What is written for an import of a dotted name alone binds that name, so the first part of it is
declared if it is assigned. -/
example : ∃ compiled js, compileModule (.standard true false) .top [.importNames none [⟨none, "a.b", none⟩],
      .assign none [.name none "a"] (.constant none (.number "1"))] = .ok compiled ∧
    compiled.script = .statements (Config.origin (.standard true false) none)
      (declaration (Config.origin (.standard true false) none) ["a"] ++ js) :=
  ⟨_, _, rfl, rfl⟩

end Transpiler.Compile
