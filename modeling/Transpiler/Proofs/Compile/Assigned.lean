import Transpiler.Proofs.Compile.Scopes

/-!
# Which assigned names are declared

An assignment may bind names that stand deep in its targets, but only those that stand for a target, or
directly in a tuple that does, become variables of the scope (`assignsDeclared_of_compileModule`). A name that is
imported into the scope of a function becomes one as well (`importsKept_of_compileModule`).
-/

namespace Transpiler.Compile

open Source (Stmt)

variable {cfg : Config} {site : Site} {body : List Stmt} {compiled : Compiled} {x : String}

/-- An assignment in the scope of some statements makes a name a variable: it stands for a target, or
directly in a tuple that does, and does not direct the compilation. -/
def MakesVariable (body : List Stmt) (x : String) : Prop :=
  Source.isDirective x = false ∧ ∃ t ∈ Source.scopeTargets body, t.BindsDirectly x

theorem mem_localNames_iff_makesVariable : x ∈ Source.localNames body ↔ MakesVariable body x :=
  Source.mem_localNames_iff_bindsDirectly

/-- The names that assignments bind in the scope of some statements, at any depth of their targets. -/
def assignedNames (body : List Stmt) : List String :=
  Source.boundNamesAll (Source.scopeTargets body)

/-- Which of the names that assignments bind are declared in what is written for a module; `vars` are the
names that the module declares. -/
structure AssignsDeclared (cfg : Config) (site : Site) (body : List Stmt) (compiled : Compiled)
    (vars : List String) : Prop where
  /-- The module starts with the declaration of its names. -/
  script : ∃ js, js.length = body.length ∧
    compiled.script = .statements (cfg.origin none) (declaration (cfg.origin none) vars ++ js)
  /-- In the body of the module: those that become variables there, and those that are imported. -/
  module : ∀ x ∈ assignedNames body, x ∈ vars ∨ Imports cfg site body Alias.bound x ↔
    MakesVariable body x ∨ Imports cfg site body Alias.bound x
  /-- In the body of a function: the parameters that are written for it, those that become variables there
  and are no parameters in the source, and those that are declared around it. -/
  functions : ∀ v rest f, ModuleTrail cfg site body (v :: rest) → v.task.function? = some f →
    ∃ j t c js, v.task.run compileTemplate cfg v.session = .ok (.tree j) t ∧ callable? j = some c ∧
      c.parameters = f.written ∧ js.length = f.body.length ∧
      c.body = declaring (cfg.origin none) v.declared js ∧
      ∀ x ∈ assignedNames f.body, x ∈ c.parameters ∨ x ∈ v.declared ∨ (∃ w ∈ rest, x ∈ w.declared) ∨ x ∈ vars ∨
            Imports cfg site body Alias.bound x ↔
          x ∈ f.written ∨ (MakesVariable f.body x ∧ x ∉ f.parameters) ∨ (∃ w ∈ rest, x ∈ w.declared) ∨
            MakesVariable body x ∨ Imports cfg site body Alias.bound x

theorem assignsDeclared_of_compileModule (h : compileModule cfg (site.place cfg) body = .ok compiled) :
    ∃ vars, AssignsDeclared cfg site body compiled vars := by
  obtain ⟨vars, js, hlength, hscript, hvars⟩ := exists_script_compileModule h
  have hmodule (x : String) : x ∈ vars ∨ Imports cfg site body Alias.bound x ↔
      MakesVariable body x ∨ Imports cfg site body Alias.bound x := by
    rw [hvars, mem_localNames_iff_makesVariable]
    by_cases hx : Imports cfg site body Alias.bound x <;> simp [hx]
  refine ⟨vars, ⟨⟨js, hlength, hscript⟩, fun x _ => hmodule x, ?_⟩⟩
  intro v rest f htrail hf
  obtain ⟨j, t, c, js, hrun, hc, hparams, hlength, hbody⟩ := htrail.exists_callable h hf
  refine ⟨j, t, c, js, hrun, hc, hparams, hlength, hbody, fun x _ => ?_⟩
  rw [hmodule, hparams, mem_declared hf, mem_localNames_iff_makesVariable, htrail.mem_vars hf,
    mem_localNames_iff_makesVariable]
  grind

def nestedTargets : List Stmt :=
  [.functionDef none false "f" { (default : Source.Params) with args := [⟨none, "p", .absent⟩] }
    [.assign none [.tuple none [.name none "a", .tuple none [.name none "b", .name none "c"]]]
        (.name none "p"),
      .assign none [.list none [.name none "d"], .name none "e"] (.name none "p")] [] .absent]

theorem assignsDeclared_nestedTargets :
    ∃ compiled, compileModule (.standard false false) (Site.top.place (.standard false false))
        nestedTargets = .ok compiled ∧
      ∃ vars, AssignsDeclared (.standard false false) .top nestedTargets compiled vars := by
  obtain ⟨compiled, h⟩ : ∃ compiled, compileModule (.standard false false)
    (Site.top.place (.standard false false)) nestedTargets = .ok compiled := ⟨_, rfl⟩
  exact ⟨compiled, h, assignsDeclared_of_compileModule h⟩

def listTarget : List Stmt :=
  [.assign none [.list none [.name none "a", .name none "b"]] (.name none "c")]

/-- The names of a list are not declared, and not imported either. -/
theorem undeclared_listTarget : "a" ∈ assignedNames listTarget ∧ "b" ∈ assignedNames listTarget ∧
    ∃ compiled js, compileModule (.standard false false) .top listTarget = .ok compiled ∧
      js.length = listTarget.length ∧ compiled.session.globals = [] ∧
      compiled.script = .statements (Config.origin (.standard false false) none)
        (declaration (Config.origin (.standard false false) none) [] ++ js) :=
  ⟨by decide, by decide, _, _, rfl, rfl, rfl, rfl⟩

/-! ### Imports -/

/-- An import statement in the scope of a trail, that of its innermost function or of the module, binds a
variable. -/
def ImportsInto (cfg : Config) (site : Site) (body : List Stmt) (scope : List Visit) (x : String) : Prop :=
  ∃ w inner, ModuleTrail cfg site body (w :: inner ++ scope) ∧ (∀ u ∈ inner, u.task.function? = none) ∧
    ∃ a ∈ w.task.imported, Alias.variable a = x

/-- When the scopes of a module declare none of the variables that are imported into them. -/
structure ImportsKept (cfg : Config) (site : Site) (body : List Stmt) (compiled : Compiled) : Prop where
  /-- The module: if each of them that it assigns is the whole name of an import. -/
  module : ∃ vars js, js.length = body.length ∧
    compiled.script = .statements (cfg.origin none) (declaration (cfg.origin none) vars ++ js) ∧
    ((∀ x, ImportsInto cfg site body [] x → x ∉ vars) ↔ ∀ x, ImportsInto cfg site body [] x →
      x ∈ Source.localNames body → Imports cfg site body Alias.bound x)
  /-- Such are all of them, if no import gives a dotted name only. -/
  plain : (∀ w rest, ModuleTrail cfg site body (w :: rest) → ∀ a ∈ w.task.imported, Alias.isPlain a = true) →
    ∀ x, ImportsInto cfg site body [] x → Imports cfg site body Alias.bound x
  /-- A function: if each of them that it assigns is a parameter, or a variable of the module or of a function
  around it. -/
  functions : ∀ v rest f, ModuleTrail cfg site body (v :: rest) → v.task.function? = some f →
    ∃ j t c js, v.task.run compileTemplate cfg v.session = .ok (.tree j) t ∧ callable? j = some c ∧
      c.body = declaring (cfg.origin none) v.declared js ∧
      ((∀ x, ImportsInto cfg site body (v :: rest) x → x ∉ v.declared) ↔ ∀ x,
        ImportsInto cfg site body (v :: rest) x → x ∈ Source.localNames f.body → x ∈ f.parameters ∨
          x ∈ Source.localNames body ∨ ∃ w ∈ rest, x ∈ w.declared)

theorem importsKept_of_compileModule (h : compileModule cfg (site.place cfg) body = .ok compiled) :
    ImportsKept cfg site body compiled := by
  constructor
  case module =>
    obtain ⟨vars, js, hlength, hscript, hvars⟩ := exists_script_compileModule h
    refine ⟨vars, js, hlength, hscript, forall_congr' fun x => imp_congr_right fun _ => ?_⟩
    rw [hvars, not_and, not_not]
  case plain =>
    rintro hplain x ⟨w, inner, htrail, -, a, ha, rfl⟩
    exact ⟨w, _, htrail, a, ha, (Alias.variable_eq_bound (hplain w _ htrail a ha)).symm⟩
  case functions =>
    intro v rest f htrail hf
    obtain ⟨j, t, c, js, hrun, hc, -, -, hbody⟩ := htrail.exists_callable h hf
    refine ⟨j, t, c, js, hrun, hc, hbody, forall_congr' fun x => imp_congr_right fun _ => ?_⟩
    rw [mem_declared hf, htrail.mem_vars hf]
    grind

/-- A module that imports a name and assigns to it, and a function that does the same with another one. -/
def assignedImports : List Stmt :=
  [.importFrom none (some "m") [⟨none, "x", none⟩] (some 0), .assign none [.name none "x"] (.name none "y"),
    .functionDef none false "f" default
      [.importFrom none (some "__globals__") [⟨none, "z", none⟩] (some 0),
        .assign none [.name none "z"] (.name none "y")] [] .absent]

theorem importsKept_assignedImports : ∃ compiled,
    compileModule (.standard true false) (Site.top.place (.standard true false)) assignedImports = .ok compiled ∧
      ImportsKept (.standard true false) .top assignedImports compiled := by
  obtain ⟨compiled, h⟩ : ∃ compiled, compileModule (.standard true false)
    (Site.top.place (.standard true false)) assignedImports = .ok compiled := ⟨_, rfl⟩
  exact ⟨compiled, h, importsKept_of_compileModule h⟩

/-- The function declares the name that it imports. -/
theorem redeclared_assignedImports : ∃ v, ModuleTrail (.standard true false) .top assignedImports [v] ∧
    ImportsInto (.standard true false) .top assignedImports [v] "z" ∧ "z" ∈ v.declared := by
  have hfunction : ModuleTrail (.standard true false) .top assignedImports [⟨2, _, _⟩] := .part ⟨rfl, _, rfl⟩
  refine ⟨_, hfunction, ⟨⟨1, _, _⟩, [], hfunction.deeper ⟨rfl, _, rfl⟩, by simp, ⟨none, "z", none⟩, ?_, rfl⟩, ?_⟩
  · simp [Task.imported]
  · decide

end Transpiler.Compile
