import Mathlib.Data.List.Sublists
import Transpiler.Proofs.Compile.Runtime

/-!
# The library in front of a script

The module that collects run-time functions is compiled to three statements (`IsPrologue`): a function that
defines them and puts them into an object, the object, and the call.
-/

namespace Transpiler.Compile

open Script (Js Origin)
open Source (Expr Params Stmt)
open Source.Build

variable {templates : Templates} {cfg : Config} {s s' : Session} {j library : Js} {js : List Js} {f : Snippet}
  {fs : List Snippet} {n : Origin} {vars : List String}

/-! ### Simple functions -/

theorem inOrder_names (here : Place) (names : List String) :
    inOrder ((names.zip (List.replicate names.length Default.none)).map (compileParam cfg here)) =
      pure (names.map .text) := by
  induction names with
  | nil => rfl
  | cons _ _ ih =>
    rw [inOrder] at ih ⊢
    simp [List.replicate_succ, List.mapM_cons, ih, compileParam]

theorem formOf_top {h : Header} (hasync : h.isAsync = false) (count : Nat) :
    formOf .top h false count = pure (.func .plain) := by
  simp [formOf, Place.top, hasync]

def plainParams (params : List String) : Params :=
  ⟨[], params.map fun p => ⟨none, p, .absent⟩, none, [], [], none, []⟩

theorem compileStmt_define_eq_ok {name : String} {params : List String} {body : List Stmt}
    (hbody : isGenerator body = false)
    (h : compileStmt templates cfg .top (define name params body) s = .ok j s') :
    ∃ o js t t', compileBlock templates cfg .top body t = .ok js t' ∧
      j = .func o .plain (some (normalizeName name)) ((positional false (plainParams params)).map .text)
        (declaring (cfg.origin none) (declaredNames (positional false (plainParams params)) body s) js)
        .absent [] := by
  rw [define, compileStmt, inFrame_eq_ok_iff] at h
  obtain ⟨_, h, rfl⟩ := h
  simp only [compileFunction, bind_eq_ok_iff, hbody, formOf_top, pure_eq_ok_iff] at h
  obtain ⟨_, _, hcheck, vars, _, hscope, _, _, ⟨rfl, rfl⟩, hnode⟩ := h
  obtain rfl := (does_checkFunction _ : Does templates cfg _ []).session_eq hcheck
  obtain rfl : vars = declaredNames (positional false (plainParams params)) body s := by
    rw [(openScope_eq_ok hscope).1]
    show declaredNames (positional false (plainParams params) ++ [] ++ []) body s = _
    rw [List.append_nil, List.append_nil]
  have hparams : withDefaults (positional false (plainParams params)) (plainParams params) =
      (positional false (plainParams params)).zip
        (List.replicate (positional false (plainParams params)).length .none) := by
    simp [withDefaults, plainParams]
  obtain ⟨_, _, hargs, _, _, hblock, named, _, hnamed, hpure⟩ := by
    simpa only [functionNode, bind_eq_ok_iff] using hnode
  obtain ⟨js, hjs, rfl⟩ := map_eq_ok_iff.mp hblock
  obtain ⟨rfl, rfl⟩ := pure_eq_ok_iff.mp hpure
  obtain ⟨rfl, rfl⟩ : named = [] ∧ _ := pure_eq_ok_iff.mp hnamed
  change inOrder ((withDefaults (positional false (plainParams params)) (plainParams params)).map _) _ = _ at hargs
  rw [hparams, inOrder_names] at hargs
  obtain ⟨rfl, rfl⟩ := pure_eq_ok_iff.mp hargs
  exact ⟨_, js, _, _, hjs, rfl⟩

/-! ### Blocks -/

section

variable {here : Place}

theorem compileBlock_append {body more : List Stmt} (h : compileBlock templates cfg here (body ++ more) s = .ok js s') :
    ∃ js₁ t js₂, compileBlock templates cfg here body s = .ok js₁ t ∧
      compileBlock templates cfg here more t = .ok js₂ s' ∧ js = js₁ ++ js₂ := by
  induction body generalizing s js with
  | nil => exact ⟨[], s, js, rfl, h, rfl⟩
  | cons _ _ ih =>
    simp only [List.cons_append, compileBlock, bind_eq_ok_iff, pure_eq_ok_iff] at h ⊢
    obtain ⟨j, t, hj, _, _, hothers, rfl, rfl⟩ := h
    obtain ⟨js₁, r, js₂, hjs₁, hjs₂, rfl⟩ := ih hothers
    exact ⟨j :: js₁, r, js₂, ⟨j, t, hj, js₁, r, hjs₁, rfl, rfl⟩, hjs₂, rfl⟩

theorem forall₂_of_compileBlock {α : Type} {stmt : α → Stmt} {R : α → Js → Prop}
    (hR : ∀ a s j s', compileStmt templates cfg here (stmt a) s = .ok j s' → R a j) {as : List α}
    (h : compileBlock templates cfg here (as.map stmt) s = .ok js s') : List.Forall₂ R as js := by
  induction as generalizing s js with
  | nil =>
    obtain ⟨rfl, -⟩ := pure_eq_ok_iff.mp h
    exact .nil
  | cons a _ ih =>
    simp only [List.map_cons, compileBlock, bind_eq_ok_iff, pure_eq_ok_iff] at h
    obtain ⟨j, t, hj, _, _, hothers, rfl, rfl⟩ := h
    exact .cons (hR a s j t hj) (ih hothers)

end

/-! ### The library -/

def Defines (f : Snippet) (j : Js) : Prop :=
  ∃ o args body, j = .func o .plain (some f.name) args body .absent []

def Collected (f : Snippet) (j : Js) : Prop :=
  ∃ o₁ o₂ o₃ o₄ o₅ o₆, j = .exprStmt o₁ (.assign o₂
    (.subscript o₃ (.name o₄ (.text "container")) (.json o₅ (.str f.name))) (.name o₆ (.text f.name)))

/-- The statements that a script starts with if it calls run-time functions: a function that defines them
and puts them into an object, the object, and the call of the function. -/
inductive IsPrologue (fs : List Snippet) : List Js → Prop
  | mk (o₁ o₂ o₃ o₄ o₅ o₆ o₇ o₈ o₉ o₁₀ o₁₁ : Origin) {definitions collecting : List Js}
      (hdefinitions : List.Forall₂ Defines fs definitions)
      (hcollecting : List.Forall₂ Collected fs collecting) :
      IsPrologue fs [.func o₁ .plain (some "_pj_snippets") [.text "container"]
            (definitions ++ collecting ++ [.ret o₂ (.name o₃ (.text "container"))]) .absent [],
          .exprStmt o₄ (.assign o₅ (.name o₆ (.text "_pj")) (.dict o₇ [] [])),
          .exprStmt o₈ (.call o₉ "" (.name o₁₀ (.text "_pj_snippets")) [.name o₁₁ (.text "_pj")] .absent)]

theorem defines_source (h : compileStmt templates cfg .top f.source s = .ok j s') : Defines f j := by
  obtain ⟨name, params, body, hsource, hgenerator, hname⟩ : ∃ name params body,
      f.source = define name params body ∧ isGenerator body = false ∧ normalizeName name = f.name := by
    cases f <;> exact ⟨_, _, _, rfl, by decide +kernel, by decide +kernel⟩
  rw [hsource] at h
  obtain ⟨o, _, _, _, -, rfl⟩ := compileStmt_define_eq_ok hgenerator h
  rw [hname]
  exact ⟨o, _, _, rfl⟩

theorem collected_set (h : compileStmt templates cfg .top
      (Source.Build.set (item (var "container") (text f.name)) (var f.name)) s =
    .ok j s') : Collected f j := by
  cases f <;> cases h <;> exact ⟨_, _, _, _, _, _, rfl⟩

theorem isGenerator_libraryBody : ∀ fs ∈ Snippet.all.sublists, isGenerator (libraryBody fs) = false := by
  decide +kernel

theorem localNames_libraryBody : ∀ fs ∈ Snippet.all.sublists, Source.localNames (libraryBody fs) = [] := by
  decide +kernel

def IsCompiled (f : Snippet) (j : Js) : Prop :=
  ∃ cfg s s', cfg.snippets = false ∧ compileStmt compileTemplate cfg .top f.source s = .ok j s'

theorem IsCompiled.defines (h : IsCompiled f j) : Defines f j := by
  obtain ⟨_, _, _, -, h⟩ := h
  exact defines_source h

theorem exists_definitions (h : compileLibrary cfg fs = .ok library) :
    ∃ o vars o₁ definitions after items, library = .statements o (declaration o vars ++
        .func o₁ .plain (some "_pj_snippets") [.text "container"] (definitions ++ after) .absent [] :: items) ∧
      List.Forall₂ IsCompiled (Snippet.all.filter fs.contains) definitions ∧
      IsPrologue (Snippet.all.filter fs.contains)
        (.func o₁ .plain (some "_pj_snippets") [.text "container"] (definitions ++ after) .absent [] :: items) := by
  have hsub : Snippet.all.filter fs.contains ∈ Snippet.all.sublists :=
    List.mem_sublists.mpr List.filter_sublist
  have hgenerator := isGenerator_libraryBody _ hsub
  obtain ⟨s', hbody⟩ := result_eq_ok.mp h
  obtain ⟨_, hjs, rfl⟩ := compileBody_eq_ok hbody
  simp only [librarySource, compileBlock, bind_eq_ok_iff, pure_eq_ok_iff] at hjs
  obtain ⟨_, _, h₁, _, _, hrest, rfl, rfl⟩ := hjs
  obtain ⟨_, _, h₂, _, _, hrest, rfl, rfl⟩ := hrest
  obtain ⟨_, _, h₃, _, _, ⟨rfl, rfl⟩, rfl, rfl⟩ := hrest
  obtain ⟨_, _, _, _, hjs, rfl⟩ := compileStmt_define_eq_ok hgenerator h₁
  obtain ⟨_, _, _, hinner, hlast, rfl⟩ := compileBlock_append hjs
  obtain ⟨definitions, _, collecting, hdefinitions, hcollecting, rfl⟩ := compileBlock_append hinner
  cases h₂
  cases h₃
  cases hlast
  have hcompiled : List.Forall₂ IsCompiled (Snippet.all.filter fs.contains) definitions :=
    forall₂_of_compileBlock (fun _ s _ s' hj => ⟨_, s, s', rfl, hj⟩) hdefinitions
  rw [declaredNames, localNames_libraryBody _ hsub]
  refine ⟨_, _, _, definitions, collecting ++ [_], _, by rw [← List.append_assoc]; rfl, hcompiled, ?_⟩
  rw [← List.append_assoc]
  exact .mk _ _ _ _ _ _ _ _ _ _ _ (hcompiled.imp fun _ _ => IsCompiled.defines)
    (forall₂_of_compileBlock (fun _ _ _ _ => collected_set) hcollecting)

theorem exists_prologue (h : compileLibrary cfg fs = .ok library) :
    ∃ o vars items, library = .statements o (declaration o vars ++ items) ∧
      IsPrologue (Snippet.all.filter fs.contains) items := by
  obtain ⟨o, vars, _, _, _, _, rfl, -, hprologue⟩ := exists_definitions h
  exact ⟨o, vars, _, rfl, hprologue⟩

theorem refs_compileLibrary (h : compileLibrary cfg fs = .ok library) : library.refs = [] := by
  obtain ⟨s', hbody⟩ := result_eq_ok.mp h
  rw [← Site.place_top] at hbody
  refine List.eq_nil_iff_forall_not_mem.mpr fun x hx => ?_
  obtain ⟨_, _, -⟩ := uses_of_mem_refs templatesFit_compileTemplate hbody hx
  -- there is no list of run-time functions, before and after
  obtain ⟨_, hrun, -⟩ := exists_runsTo_compileBody hbody
  have hnone : s'.snippets.isSome = false :=
    hrun.relate (fun s s' => s'.snippets.isSome = s.snippets.isSome) (fun _ => rfl)
      (fun h h' => h'.trans h) fun _ _ _ _ _ hstep => (Effect.of_run hstep).snippets
  simp_all [Session.Uses]

/-! ### The order of a script -/

open Script (arrange_map flattenOnce hoisted Slot slottedItems_eq_map)

theorem items_statements (o : Origin) (items : List Js) :
    (Js.statements o items).items = (hoisted items).flatMap fun k => k.items.map (o.toLine 0 true) := by
  have hpairs : (flattenOnce items).map (fun j => (j.slot, j.items)) =
      ((flattenOnce items).map fun j => (j.slot, j)).map (Prod.map id Js.items) := by simp
  rw [Js.items, slottedItems_eq_map, hpairs, arrange_map, List.flatMap_map]
  rfl

def IsBareDeclaration (j : Js) : Prop :=
  ∃ o keys values, j = .declare o .var true keys values ∧ ∀ v ∈ values, v = .absent

theorem isBareDeclaration_of_movesValue (h : j.movesValue = false) (hslot : j.slot = .variable) :
    IsBareDeclaration j := by
  unfold Js.slot at hslot
  split at hslot <;> try cases hslot
  next o keys values =>
    refine ⟨o, keys, values, rfl, fun v _ => ?_⟩
    have habsent : v.isAbsent = true := by simp_all [Js.movesValue, Js.slot, Js.initialises]
    unfold Js.isAbsent at habsent
    split at habsent
    · rfl
    · cases habsent

theorem isBareDeclaration_of_declaration {k : Js} (h : k ∈ declaration n vars) : IsBareDeclaration k := by
  unfold declaration at h
  split at h
  · simp at h
  · exact ⟨n, _, _, List.mem_singleton.mp h, by simp⟩

theorem hoisted_eq (items : List Js) :
    hoisted items = ((flattenOnce items).filter fun k => k.slot != .importing && k.slot != .variable).takeWhile
        (·.slot == .comment) ++ (flattenOnce items).filter (·.slot == .importing) ++
      (flattenOnce items).filter (·.slot == .variable) ++
      ((flattenOnce items).filter fun k => k.slot != .importing && k.slot != .variable).dropWhile
        (·.slot == .comment) := by
  simp [hoisted, Script.arrange, List.filter_map, List.takeWhile_map, List.dropWhile_map, Function.comp_def]

theorem filter_of_slot {slot : Slot} (h : ∀ k ∈ js, k.slot = slot) (keep : Slot → Bool) :
    js.filter (fun k => keep k.slot) = if keep slot then js else [] := by
  split
  next hkeep => exact List.filter_eq_self.mpr fun k hk => by rw [h k hk, hkeep]
  · exact List.filter_eq_nil_iff.mpr fun k hk => by rwa [h k hk]

theorem isStill_declaration : ∀ k ∈ declaration n vars, k.isStill = true := by
  unfold declaration
  split <;> simp +contextual

theorem slot_declaration : ∀ k ∈ declaration n vars, k.slot = .variable := by
  unfold declaration
  split <;> simp [Js.slot]

theorem hoisted_prologue {prologue : List Js} (hprologue : IsPrologue fs prologue)
    (n : Origin) (vars : List String) (user : List Js) :
    hoisted (declaration n vars ++ prologue ++ user) = (flattenOnce user).filter (·.slot == .importing) ++
        (declaration n vars ++ (flattenOnce user).filter (·.slot == .variable)) ++ prologue ++
        (flattenOnce user).filter fun k => k.slot != .importing && k.slot != .variable := by
  have hflatten (xs ys : List Js) : flattenOnce (xs ++ ys) = flattenOnce xs ++ flattenOnce ys :=
    List.flatMap_append
  have hdeclaration : flattenOnce (declaration n vars) = declaration n vars := by
    unfold declaration
    split <;> simp [flattenOnce]
  obtain ⟨first, rest, rfl, hsame, hslots⟩ : ∃ first rest, prologue = first :: rest ∧
      flattenOnce prologue = prologue ∧ ∀ k ∈ prologue, k.slot = .other := by
    cases hprologue
    exact ⟨_, _, rfl, rfl, by simp [Js.slot]⟩
  rw [hoisted_eq, hflatten, hflatten, hdeclaration, hsame]
  simp only [List.filter_append]
  rw [filter_of_slot slot_declaration (· == .importing), filter_of_slot slot_declaration (· == .variable),
    filter_of_slot slot_declaration fun k => k != .importing && k != .variable,
    filter_of_slot hslots (· == .importing), filter_of_slot hslots (· == .variable),
    filter_of_slot hslots fun k => k != .importing && k != .variable]
  have hfirst : first.slot = .other := hslots first (by simp)
  simp [hfirst]

/-! ### Scripts -/

def Emitted (cfg : Config) (site : Site) (body : List Stmt) (j : Js) : Prop :=
  ∃ w rest t, ModuleTrail cfg site body (w :: rest) ∧ w.task.run compileTemplate cfg w.session = .ok (.tree j) t

/-- A node stands in a script, or in a tree that is written in a template of the script. -/
inductive Shown (script : Js) : Js → Prop
  | node {k : Js} (h : k ∈ script.nodes) : Shown script k
  | quoted {o : Origin} {text : String} {j k : Js} (htemplate : Shown script (.template o text))
      (hquotes : Quotes text j) (h : k ∈ j.nodes) : Shown script k

/-- A script is laid out as the imports of a module, declarations of variables without values, a library that
defines the run-time functions that the module notes, and all other statements of the module. -/
def LibraryFirst (compiled : Compiled) (script : Js) : Prop :=
  ∃ o n fs vars prologue user, (∀ f, f ∈ fs ↔ compiled.session.Uses f) ∧ fs.Nodup ∧ IsPrologue fs prologue ∧
    compiled.script = .statements n user ∧
    script.items = ((flattenOnce user).filter (·.slot == .importing) ++
      (declaration o vars ++ (flattenOnce user).filter (·.slot == .variable)) ++ prologue ++
      (flattenOnce user).filter fun k => k.slot != .importing && k.slot != .variable).flatMap
        (fun k => k.items.map (o.toLine 0 true)) ∧
    ∀ k ∈ declaration o vars ++ (flattenOnce user).filter (·.slot == .variable), IsBareDeclaration k

/-- The run-time functions that are noted, referred to and defined with a script are the same, and their
definitions come first. -/
structure ClosesOver (cfg : Config) (site : Site) (body : List Stmt) (compiled : Compiled) (script : Js) :
    Prop where
  /-- The names of the functions that are noted are those that some tree of the compilation refers to. -/
  referred : ∀ x, (∃ f : Snippet, compiled.session.Uses f ∧ f.name = x) ↔ ∃ j, Emitted cfg site body j ∧ x ∈ j.refs
  shown : ∀ j, Emitted cfg site body j → ∀ k ∈ j.nodes, Shown script k
  refs : ∀ x ∈ script.refs, ∃ f : Snippet, compiled.session.Uses f ∧ f.name = x
  /-- Without formatted strings it refers to all of them. -/
  plain : (∀ w rest, ModuleTrail cfg site body (w :: rest) → w.task.isFormatted = false) →
    ∀ f, compiled.session.Uses f → f.name ∈ script.refs
  /-- If no function is noted, nothing comes before the module. -/
  alone : (∀ f, ¬ compiled.session.Uses f) → script = compiled.script
  ahead : (∃ f, compiled.session.Uses f) → LibraryFirst compiled script

variable {site : Site} {body : List Stmt} {compiled : Compiled} {script : Js}

theorem not_uses_ofModule (body : List Stmt) (f : Snippet) : ¬ (Session.ofModule body).Uses f := by
  simp [Session.Uses, Session.ofModule, Session.withEntry, Session.start]

section

variable (h : compileModule cfg (site.place cfg) body = .ok compiled)

include h

theorem exists_items_of_compileModule :
    ∃ user, compiled.script = .statements (cfg.origin none) user ∧ ∀ k ∈ flattenOnce user, k.movesValue = false := by
  obtain ⟨_, hjs, hitems⟩ := compileModule_eq_ok h
  have hsettled := settled_stmtTasks templatesFit_compileTemplate (compileBlock_eq_ok_iff.mp hjs)
  refine ⟨_, hitems, Script.movesValue_of_isStill fun j hj => ?_⟩
  rcases List.mem_append.mp hj with hj | hj
  · exact isStill_declaration j hj
  · exact (hsettled j hj).1

variable (hscript : compiled.withLibrary cfg = .ok script)

include hscript

theorem exists_script_eq : ∃ js o front, RunsTo compileTemplate cfg (stmtTasks site body) (.ofModule body) (js.map .tree) compiled.session ∧
    materials cfg (stmtTasks site body) (js.map .tree) = js.map .stmt ∧
    script = .statements o (front ++ js) ∧ script.refs = compiled.script.refs ∧
    script.refs = Script.refsAll js := by
  obtain ⟨js, hjs, hitems⟩ := compileModule_eq_ok h
  have hrun := compileBlock_eq_ok_iff.mp hjs
  have hmaterials := hrun.materials_stmts
  rcases withLibrary_eq_ok_iff.mp hscript with ⟨-, rfl⟩ | ⟨-, _, hlibrary, rfl⟩
  · exact ⟨js, _, _, hrun, hmaterials, hitems, rfl, by simp [hitems]⟩
  · have hrefs := refs_compileLibrary hlibrary
    obtain ⟨o, _, _, rfl, -⟩ := exists_prologue hlibrary
    refine ⟨js, o, _, hrun, hmaterials, by rw [hitems, before, ← List.append_assoc], ?_⟩
    simpa [hitems, before] using hrefs

theorem shown_of_emitted (hj : Emitted cfg site body j) :
    ∀ k ∈ j.nodes, Shown script k := by
  obtain ⟨js, o, front, hrun, hmaterials, rfl, -⟩ := exists_script_eq h hscript
  obtain ⟨_, _, _, htrail, hw⟩ := hj
  have hjs : ∀ k ∈ nodesOf (materials cfg (stmtTasks site body) (js.map .tree)),
      Shown (.statements o (front ++ js)) k := by
    rw [hmaterials, nodesOf_stmts]
    exact fun k hk => .node (by simp [hk])
  obtain ⟨_, _, hval, hnodes⟩ := htrail.forall_nodes templatesFit_compileTemplate hrun
    (fun _ _ _ _ htemplate hquotes _ ht => .quoted htemplate hquotes ht) hjs
  obtain ⟨rfl, rfl⟩ := EStateM.Result.ok.inj (hval.symm.trans hw)
  rwa [(Task.material_tree hw).2] at hnodes

theorem libraryFirst_of_uses (hf : compiled.session.Uses f) : LibraryFirst compiled script := by
  obtain ⟨library, hlibrary, rfl⟩ : ∃ library, compileLibrary cfg (compiled.session.snippets.getD []) = .ok library ∧
        script = before library compiled.script := by
    rcases withLibrary_eq_ok_iff.mp hscript with ⟨hnil, -⟩ | ⟨-, hlibrary⟩
    · simp [Session.Uses, hnil] at hf
    · exact hlibrary
  obtain ⟨o, vars, prologue, rfl, hprologue⟩ := exists_prologue hlibrary
  obtain ⟨user, huser, hitems⟩ := exists_items_of_compileModule h
  refine ⟨o, _, _, vars, prologue, user, ?_, List.Nodup.filter _ (by decide), hprologue, huser, ?_, ?_⟩
  · intro f
    have hall : f ∈ Snippet.all := by cases f <;> decide
    simp [Session.Uses, hall]
  · rw [huser, before, items_statements, hoisted_prologue hprologue]
  · intro k hk
    rcases List.mem_append.mp hk with hk | hk
    · exact isBareDeclaration_of_declaration hk
    · obtain ⟨hk, hslot⟩ := List.mem_filter.mp hk
      exact isBareDeclaration_of_movesValue (hitems k hk) (by simpa using hslot)

theorem closesOver_of_compileModule (hremap : cfg.remap = none) : ClosesOver cfg site body compiled script := by
  obtain ⟨_, _, _, hrun, hmaterials, -, hsame, hrefs⟩ := exists_script_eq h hscript
  have hreferred (x : String) : (∃ f : Snippet, compiled.session.Uses f ∧ f.name = x) ↔
      ∃ j, Emitted cfg site body j ∧ x ∈ j.refs := by
    rw [exists_uses_iff templatesFit_compileTemplate hremap hrun (not_uses_ofModule body)]
    constructor
    · rintro ⟨w, rest, j, t, htrail, hw, hx⟩
      exact ⟨j, ⟨w, rest, t, htrail, hw⟩, hx⟩
    · rintro ⟨j, ⟨w, rest, t, htrail, hw⟩, hx⟩
      exact ⟨w, rest, j, t, htrail, hw, hx⟩
  refine ⟨hreferred, fun _ => shown_of_emitted h hscript, ?_, ?_, ?_, fun ⟨_, hf⟩ => libraryFirst_of_uses h hscript hf⟩
  case refine_1 =>
    intro _ hx
    rw [hsame] at hx
    exact uses_of_mem_refs templatesFit_compileTemplate (compileBody_of_compileModule h) hx
  case refine_2 =>
    intro hplain f hf
    obtain ⟨_, ⟨w, rest, _, htrail, hw⟩, hx⟩ := (hreferred f.name).mp ⟨f, hf, rfl⟩
    have habove : ∀ r ∈ rest, r.task.isFormatted = false := by
      intro r hr
      obtain ⟨above, below, rfl⟩ := List.append_of_mem hr
      have hsplit : ModuleTrail cfg site body ((w :: above) ++ r :: below) := htrail
      exact hplain r below hsplit.of_append
    obtain ⟨_, _, hval, hsubset⟩ := htrail.refs_subset templatesFit_compileTemplate hrun habove
    obtain ⟨rfl, rfl⟩ := EStateM.Result.ok.inj (hval.symm.trans hw)
    rw [(Task.material_tree hw).1, hmaterials, refsOf_stmts] at hsubset
    rw [hrefs]
    exact hsubset hx
  case refine_3 =>
    intro hnone
    rcases withLibrary_eq_ok_iff.mp hscript with ⟨-, rfl⟩ | ⟨hsome, -⟩
    · rfl
    · obtain ⟨f, hf⟩ := List.exists_mem_of_ne_nil _ hsome
      exact (hnone f hf).elim

end

/-- The script of a program of the grammar defines the run-time functions that its statements refer to, and
no others, before these statements. -/
theorem closesOver_of_compileScript {r : Request} {program : List Stmt}
    (hprogram : Source.areProper program = true) (h : compileScript r program = .ok script) :
    ∃ site body compiled, selectBody (.standard r.es6 r.stage3) r.bodyOnly program =
        .ok (site.place (.standard r.es6 r.stage3), body) ∧
      compileModule (.standard r.es6 r.stage3) (site.place (.standard r.es6 r.stage3)) body = .ok compiled ∧
      ClosesOver (.standard r.es6 r.stage3) site body compiled script := by
  obtain ⟨⟨place, body⟩, hselect, compiled, hcompiled, hscript⟩ := by
    simpa only [compileScript, bind_eq_ok] using h
  obtain ⟨site, rfl, -⟩ := (hereditary_placed fun _ => true).exists_site hselect fun s hs =>
    ⟨Source.Tree.allOf_true _, Source.areProper_iff.mp hprogram s hs⟩
  exact ⟨site, body, compiled, hselect, hcompiled, closesOver_of_compileModule hcompiled hscript rfl⟩

def assertsMember : List Stmt :=
  [.importNames none [⟨none, "a", none⟩],
    .assertion none (.joinedStr none
      [.formattedValue none (.compare none (.name none "x") [.isIn] [.name none "xs"]) (-1) .absent]) .absent]

theorem closesOver_assertsMember : ∃ script, compileScript (.standard true false) assertsMember = .ok script ∧
    ∃ site body compiled,
      selectBody (.standard true false) false assertsMember = .ok (site.place (.standard true false), body) ∧
      compileModule (.standard true false) (site.place (.standard true false)) body = .ok compiled ∧
      ClosesOver (.standard true false) site body compiled script := by
  obtain ⟨script, h⟩ := exists_of_isOk (x := compileScript (.standard true false) assertsMember) (by decide +kernel)
  exact ⟨script, h, closesOver_of_compileScript (r := .standard true false) (by decide) h⟩

end Transpiler.Compile
