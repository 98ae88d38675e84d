import Transpiler.Proofs.Compile.Independence
import Transpiler.Proofs.Compile.Script

/-!
# The trees of a run

What a task gives wraps what its parts give (`Task.exists_wraps`), a formatted string apart, which writes
them into its text (`Task.exists_quotes`). So no tree of a run is the object that holds the run-time
functions (`Task.allForeign_run`), the trees are clean if the words of the source hold no brackets
(`Task.clean_run`), the declarations in their blocks that move with values come first (`Task.settled_run`),
and they hold no references where all output maps to one node (`Task.refsOf_run`).
-/

namespace Transpiler.Compile

open Script (AllSettled Js Origin bracketFree refsAll_eq_nil)
open Source (Expr Ref Stmt localNames)

variable {templates : Templates} {cfg : Config} {site : Site} {s s' t : Session} {body : List Stmt}
  {name text : String} {j : Js} {js : List Js} {bodyOnly : Bool} {inner : List Stmt} {place : Place}

variable {values : List Expr} {here : Place} {α : Type}

/-! ### Formatted strings -/

def Quotes (text : String) (j : Js) : Prop :=
  ∃ inner front back, j.render? = .ok inner ∧ text = front ++ ("$\x7b" ++ inner ++ "\x7d" ++ back)

theorem Quotes.after (h : Quotes text j) (more : String) : Quotes (more ++ text) j := by
  obtain ⟨inner, front, back, hinner, rfl⟩ := h
  exact ⟨inner, more ++ front, back, hinner, by simp only [String.append_assoc]⟩

/-- What the text of a template is made of: the texts of a formatted string, and the code of its expressions. -/
inductive Chunks : List Expr → List Js → String → Prop
  | nil : Chunks [] [] ""
  | text {p first rest js after} (h : Chunks rest js after) :
      Chunks (.constant p (.str first) :: rest) js (first ++ after)
  | value {p e conversion spec rest j js written after} (hj : j.render? = .ok written) (h : Chunks rest js after) :
      Chunks (.formattedValue p e conversion spec :: rest) (j :: js) ("$\x7b" ++ written ++ "\x7d" ++ after)

theorem Chunks.quotes (h : Chunks values js text) : ∀ j ∈ js, Quotes text j := by
  induction h with
  | nil => simp
  | text _ ih => exact fun j hj => (ih j hj).after _
  | value hj _ ih =>
    exact List.forall_mem_cons.mpr ⟨⟨_, "", _, hj, String.empty_append.symm⟩, fun k hk => (ih k hk).after _⟩

theorem exists_chunks {node : Ref} (h : compileChunks cfg here node values s = .ok text s') :
    ∃ js, Chunks values js text ∧ compileExprs cfg here (values.filterMap formatted?) s = .ok js s' := by
  induction values generalizing s text with
  | nil =>
    rw [compileChunks] at h
    obtain ⟨rfl, rfl⟩ := pure_eq_ok_iff.mp h
    exact ⟨[], .nil, rfl⟩
  | cons value _ ih =>
    cases value with
    | constant _ c =>
      cases c with
      | str =>
        simp only [compileChunks, bind_eq_ok_iff, pure_eq_ok_iff] at h
        obtain ⟨_, _, hrest, rfl, rfl⟩ := h
        obtain ⟨js, hchunks, hjs⟩ := ih hrest
        exact ⟨js, hchunks.text, hjs⟩
      | _ =>
        simp only [compileChunks] at h
        cases h
    | formattedValue =>
      simp only [compileChunks, bind_eq_ok_iff, pure_eq_ok_iff] at h
      obtain ⟨_, _, hconversion, _, _, hspec, j, _, hj, _, _, hwritten, _, _, hrest, rfl, rfl⟩ := h
      obtain rfl := (Does.refuseIf _ _ _ : Does compileTemplate cfg _ []).session_eq hconversion
      obtain rfl := (Does.refuseIf _ _ _ : Does compileTemplate cfg _ []).session_eq hspec
      obtain rfl := (Does.ofExcept _ : Does compileTemplate cfg _ []).session_eq hwritten
      obtain ⟨js, hchunks, hjs⟩ := ih hrest
      refine ⟨j :: js, hchunks.value (Yields.ofExcept (fun _ => id) _ _ _ hwritten), ?_⟩
      simp only [List.filterMap_cons, formatted?, compileExprs, compileRuns, inOrder, List.mapM_cons, bind_eq_ok_iff]
      exact ⟨j, _, hj, js, _, hjs, rfl⟩
    | _ =>
      simp only [compileChunks] at h
      cases h

theorem runsTo_exprTasks {es : List Expr} (h : compileExprs cfg (site.place cfg) es s = .ok js s') :
    RunsTo templates cfg (exprTasks site es) s (js.map .tree) s' := by
  induction es generalizing s js with
  | nil =>
    obtain ⟨rfl, rfl⟩ := pure_eq_ok_iff.mp h
    simp [exprTasks]
  | cons _ _ ih =>
    simp only [compileExprs, compileRuns, inOrder, List.mapM_cons, bind_eq_ok_iff, pure_eq_ok_iff] at h
    obtain ⟨j, t, hj, _, _, hrest, rfl, rfl⟩ := h
    exact runsTo_cons.mpr ⟨.tree j, t, _, map_eq_ok_iff.mpr ⟨j, hj, rfl⟩, ih hrest, rfl⟩

/-! ### Tasks and their parts -/

def Task.isFormatted : Task → Bool
  | expr _ (.joinedStr ..) => true
  | _ => false

/-- What goes into the tree of a task apart from what its parts give. The statement that applies the
decorators of a class refers to a run-time function that is noted with the class. -/
def Task.extra (cfg : Config) : Task → List Material
  | decorators .. => Snippet.setClassDecorators.material cfg
  | _ => []

variable {u : Task} {v : Value}

theorem RunsTo.materials_map {ι : Type} {is : List ι} {task : ι → Task} {f : Js → Material}
    (h : RunsTo templates cfg (is.map task) s (js.map .tree) s')
    (htask : ∀ i j, (task i).material cfg (.tree j) = [f j]) :
    materials cfg (is.map task) (js.map .tree) = js.map f := by
  have hlength : js.length = is.length := by simpa using h.length_eq
  clear h
  induction is generalizing js with
  | nil => simp_all
  | cons _ _ ih =>
    cases js with
    | nil => simp at hlength
    | cons => simp [htask, ih (by simpa using hlength)]

theorem Task.exists_quotes (hu : u.isFormatted = true) (h : u.run templates cfg s = .ok v s') :
    ∃ (o : Origin) (text : String) (js : List Js), v = .tree (.template o text) ∧
      (∀ j ∈ js, Quotes text j) ∧ RunsTo templates cfg (u.parts cfg) (u.start s) (js.map .tree) s' ∧
      materials cfg (u.parts cfg) (js.map .tree) = js.map .tree := by
  unfold isFormatted at hu
  split at hu
  · obtain ⟨_, hj, rfl⟩ := map_eq_ok_iff.mp h
    simp only [compileExpr, bind_eq_ok_iff, pure_eq_ok_iff] at hj
    obtain ⟨_, _, hfeature, text, _, htext, rfl, rfl⟩ := hj
    obtain rfl := (Does.guardFeature _ _ _ : Does templates cfg _ []).session_eq hfeature
    obtain ⟨js, hchunks, hjs⟩ := exists_chunks htext
    have hruns : RunsTo templates _ _ _ _ _ := runsTo_exprTasks hjs
    exact ⟨_, text, js, rfl, hchunks.quotes, hruns, hruns.materials_map fun _ _ => rfl⟩
  · cases hu

theorem Task.exists_wraps {D : Demands templates cfg} (hD : D.lowering = .same) (hwords : D.words → u.Unbracketed)
    (hplaced : D.placed → u.All D.exprs D.stmts fun _ => True) (htemplates : TemplatesFit templates) (hact : ∀ a, u ≠ .act a)
    (hu : u.isFormatted = false) (h : u.run templates cfg s = .ok v s') :
    ∃ vs t, RunsTo templates cfg (u.parts cfg) (u.start s) vs t ∧ s' = u.finish t ∧
      Wraps D (u.extra cfg ++ materials cfg (u.parts cfg) vs) (u.material cfg v) := by
  have hframed {x y : Run Js} {ms : List Material} {ts : List Task} {j : Js}
      (hx : Collects D True ms x y ts fun j => [.stmt j]) (hj : inFrame x s = .ok j s') :
      ∃ vs t, RunsTo templates cfg ts s.entered vs t ∧ s' = t.left ∧ Wraps D (ms ++ materials cfg ts vs) [.stmt j] := by
    obtain ⟨t, hstep, rfl⟩ := inFrame_eq_ok_iff.mp hj
    obtain ⟨vs, hvs, hwraps⟩ := hx.wraps _ _ _ hstep
    exact ⟨vs, t, hvs, rfl, hwraps⟩
  cases u with
  | act a => exact (hact a rfl).elim
  | expr site e =>
    obtain ⟨_, hj, rfl⟩ := map_eq_ok_iff.mp h
    have he (p : Source.At) (values : List Expr) : e ≠ .joinedStr p values := by
      rintro rfl
      simp [isFormatted] at hu
    have hcollects : CollectsIn D [] (fun cfg => compileExpr cfg (site.place cfg) e) _ _ :=
      collects_compileExpr e he (fun h => (hwords h).2) (by simp [hD]) fun h => (hplaced h).2
    obtain ⟨vs, hvs, hwraps⟩ := hcollects.wraps _ _ _ hj
    exact ⟨vs, s', hvs, rfl, hwraps⟩
  | decorators _ header =>
    obtain ⟨_, hj, rfl⟩ := map_eq_ok_iff.mp h
    have hname (h : D.words) : bracketFree header.name = true := by
      obtain ⟨-, _, hclass⟩ := hwords h
      simp only [Stmt.unbracketed, Source.isWord, Bool.and_eq_true] at hclass
      exact hclass.1.1.1.2
    obtain ⟨_, hx, hcollects⟩ := exists_collects_compileClassDecorators _ header hname
    rw [hx] at hj
    exact hframed hcollects hj
  | stmt site stmt =>
    obtain ⟨j, hj, rfl⟩ := map_eq_ok_iff.mp h
    by_cases hs : (Task.stmt site stmt).isFramed = true
    · obtain ⟨_, hx, hcollects⟩ := exists_collects_compileStmt _ stmt hs (fun _ => htemplates)
        (fun h => (hwords h).2) fun h => (hplaced h).2
      rw [hx] at hj
      simp only [start, finish, hs, if_true]
      exact hframed hcollects hj
    · cases stmt with
      | bare =>
        -- the tree of the expression, which may not stand on lines of its own
        rw [compileStmt] at hj
        refine ⟨[.tree j], s', runsTo_cons.mpr ⟨_, s', [], ?_, by simp, rfl⟩, rfl, ?_⟩
        · exact map_eq_ok_iff.mpr ⟨j, hj, rfl⟩
        · have hclean : ¬ D.words := fun h => by simpa [Stmt.unbracketed] using (hwords h).2
          have htraced : ¬ D.placed := fun h => by simpa [Stmt.isProper] using (D.grounds h).proper _ (hplaced h).2
          constructor <;> simp +contextual [Task.extra, Task.parts, stmtParts, exprTasks, Task.material, hclean,
            htraced]
      | _ => simp [isFramed] at hs

/-! ### What holds along a run -/

theorem RunsTo.forall_materials {I : Session → Prop} {P : Material → Prop} {ts : List Task} {vs : List Value}
    (h : ∀ u ∈ ts, ∀ s v s', I s → u.run templates cfg s = .ok v s' → (∀ m ∈ u.material cfg v, P m) ∧ I s')
    (hs : I s) (hrun : RunsTo templates cfg ts s vs s') :
    (∀ m ∈ materials cfg ts vs, P m) ∧ I s' := by
  induction ts generalizing s vs with
  | nil =>
    obtain ⟨rfl, rfl⟩ := runsTo_nil.mp hrun
    exact ⟨by simp, hs⟩
  | cons u _ ih =>
    obtain ⟨v, t, _, hv, hws, rfl⟩ := runsTo_cons.mp hrun
    obtain ⟨hfirst, ht⟩ := h u (by simp) s v t hs hv
    obtain ⟨hrest, hs'⟩ := ih (fun w hw => h w (by simp [hw])) ht hws
    rw [materials_cons]
    exact ⟨List.forall_mem_append.mpr ⟨hfirst, hrest⟩, hs'⟩

theorem RunsTo.allMaterial {P : Material → Prop} {ts : List Task} {vs : List Value}
    (hrun : RunsTo templates cfg ts s vs s')
    (h : ∀ u ∈ ts, ∀ s v s', u.run templates cfg s = .ok v s' → AllMaterial P (u.material cfg v)) :
    AllMaterial P (materials cfg ts vs) :=
  (hrun.forall_materials (I := fun _ => True) (fun u hu s v s' _ hv => ⟨h u hu s v s' hv, trivial⟩) trivial).1

theorem Task.material_of_isFormatted (hu : u.isFormatted = true) (j : Js) : u.material cfg (.tree j) = [.tree j] := by
  unfold isFormatted at hu
  split at hu
  · rfl
  · cases hu

theorem Task.allForeign_extra (u : Task) : AllForeign (u.extra cfg) := by
  cases u <;> simp [extra]

theorem Task.materialClean_extra (u : Task) : MaterialClean (u.extra cfg) := by
  cases u <;> simp [extra]

def Session.CaughtClean (s : Session) : Prop :=
  ∀ name ∈ s.context.exception?, bracketFree name = true

theorem Session.caughtClean_of_empty (h : s.context = .empty) : s.CaughtClean := by
  intro _ hname
  rw [h] at hname
  cases hname

theorem Session.CaughtClean.withEntry (h : s.CaughtClean) {key : String}
    (hkey : Context.exceptionKey ≠ key) (entry : Entry) : (s.withEntry key entry).CaughtClean := by
  rwa [CaughtClean, Context.exception?, Session.withEntry, Context.get?_set_of_ne _ hkey, ← Context.exception?]

theorem Context.word_of_generatedName? {number : Int}
    (h : generatedName? number = some name) : name ≠ "_pj" ∧ bracketFree name = true := by
  obtain ⟨l, hl, rfl⟩ := Option.map_eq_some_iff.mp h
  have hmem : l ∈ letters := by
    simp only [letter?] at hl
    split_ifs at hl <;> exact List.mem_of_getElem? hl
  have hletters : letters.all (fun c => !Script.isBracket c) = true := by decide
  constructor
  · simp [← String.toList_inj]
  · have hletter := List.all_eq_true.mp hletters l hmem
    simp_all [bracketFree]
    decide

theorem foreign_clean_act {a : Action} (h : a.run s = .ok v s') :
    AllForeign ((Task.act a).material cfg v) ∧ ((Task.act a).Unbracketed → s.CaughtClean →
      MaterialClean ((Task.act a).material cfg v) ∧ s'.CaughtClean) := by
  cases a with
  | draw =>
    obtain ⟨name, hname, rfl⟩ := map_eq_ok_iff.mp h
    obtain ⟨hgenerated, rfl⟩ := ends_newName s name s' hname
    obtain ⟨hforeign, hclean⟩ := Context.word_of_generatedName? hgenerated
    refine ⟨by simpa [Task.material] using hforeign, fun _ hs => ⟨?_, hs.withEntry (by decide) _⟩⟩
    simpa [Task.material] using hclean
  | use f =>
    obtain ⟨_, huse, rfl⟩ := map_eq_ok_iff.mp h
    obtain ⟨-, _, rfl⟩ := useSnippet_eq_ok huse
    exact ⟨f.allMaterial_material.mpr fun _ => trivial, fun _ hs => ⟨f.allMaterial_material.mpr fun _ => trivial, hs⟩⟩
  | imports =>
    obtain ⟨_, hadd, rfl⟩ := map_eq_ok_iff.mp h
    obtain ⟨_, rfl, -⟩ := addGlobals_eq_ok hadd
    exact ⟨by simp [Task.material], fun _ hs => ⟨by simp [Task.material], hs⟩⟩
  | remark =>
    obtain ⟨_, hstep, rfl⟩ := map_eq_ok_iff.mp h
    cases hstep
    exact ⟨by simp [Task.material], fun _ hs => ⟨by simp [Task.material], hs⟩⟩
  | scope =>
    obtain ⟨_, hvars, rfl⟩ := map_eq_ok_iff.mp h
    obtain ⟨rfl, rfl⟩ := openScope_eq_ok hvars
    refine ⟨by simp [Task.material], fun hu hs => ⟨?_, hs.withEntry (by decide) _⟩⟩
    simp only [Task.material, allMaterial_map]
    intro _ hname
    exact Source.bracketFree_of_mem_localNames hu (List.mem_of_mem_filter hname)
  | catching name =>
    obtain ⟨_, hset, rfl⟩ := map_eq_ok_iff.mp h
    obtain rfl := ends_setEntry s _ _ _ _ hset
    refine ⟨by simp [Task.material], fun hu _ => ⟨by simp [Task.material], ?_⟩⟩
    intro caught hcaught
    obtain rfl : name = caught := by
      simp only [Context.exception?, Session.withEntry, Context.get?_set_self] at hcaught
      split at hcaught <;> simp_all
    exact hu
  | caught =>
    obtain ⟨_, hget, rfl⟩ := map_eq_ok_iff.mp h
    cases hget
    refine ⟨by simp [Task.material], fun _ hs => ⟨?_, hs⟩⟩
    simpa [Task.material, Session.CaughtClean] using hs

theorem Task.forall_run {P : Material → Prop} (htemplates : TemplatesFit templates)
    (hact : ∀ a s v s', a.run s = .ok v s' → AllMaterial P ((act a).material cfg v))
    (hquoted : ∀ o text, P (.tree (.template o text)))
    (hwraps : ∀ u v ms, Wraps (.none templates cfg) (extra cfg u ++ ms) (u.material cfg v) → AllMaterial P ms →
      AllMaterial P (u.material cfg v))
    (h : u.run templates cfg s = .ok v s') : AllMaterial P (u.material cfg v) := by
  induction u using Task.induction cfg generalizing s v s' with
  | act a => exact hact a s v s' h
  | node u hu ih =>
    cases hformatted : u.isFormatted with
    | true =>
      obtain ⟨o, text, _, rfl, -⟩ := exists_quotes hformatted h
      simpa [material_of_isFormatted hformatted] using hquoted o text
    | false =>
      obtain ⟨_, _, hvs, -, hall⟩ := exists_wraps (D := .none _ _) rfl nofun nofun htemplates hu hformatted h
      exact hwraps u v _ hall (hvs.allMaterial fun w hw _ _ _ hrun => ih w hw hrun)

theorem Task.allForeign_run (htemplates : TemplatesFit templates)
    (h : u.run templates cfg s = .ok v s') : AllForeign (u.material cfg v) :=
  forall_run htemplates (fun _ _ _ _ hrun => (foreign_clean_act hrun).1) (by simp)
    (fun u _ _ hwraps hms => hwraps.foreign (allMaterial_append.mpr ⟨u.allForeign_extra, hms⟩)) h

theorem RunsTo.allForeign (htemplates : TemplatesFit templates) {ts : List Task} {vs : List Value}
    (h : RunsTo templates cfg ts s vs s') : AllForeign (materials cfg ts vs) :=
  h.allMaterial fun _ _ _ _ _ hrun => Task.allForeign_run htemplates hrun

theorem Task.exists_mem_refs_iff (htemplates : TemplatesFit templates) (hact : ∀ a, u ≠ .act a)
    (hu : u.isFormatted = false) (h : u.run templates cfg s = .ok v s') :
    ∃ vs t, RunsTo templates cfg (u.parts cfg) (u.start s) vs t ∧ s' = u.finish t ∧ ∀ x, x ∈ refsOf (u.material cfg v) ↔
        x ∈ refsOf (u.extra cfg) ∨ x ∈ refsOf (materials cfg (u.parts cfg) vs) := by
  obtain ⟨vs, t, hvs, hs', hwraps⟩ := exists_wraps (D := .none _ _) rfl nofun nofun htemplates hact hu h
  refine ⟨vs, t, hvs, hs', fun x => ?_⟩
  rw [hwraps.refs (allMaterial_append.mpr ⟨u.allForeign_extra, hvs.allForeign htemplates⟩), refsOf_append,
    List.mem_append]

section

variable (htemplates : TemplatesFit templates) (h : u.run templates cfg s = .ok v s')

include htemplates h

theorem Task.clean_run (hu : u.Unbracketed) (hs : s.CaughtClean) : MaterialClean (u.material cfg v) ∧ s'.CaughtClean := by
  induction u using Task.induction cfg generalizing s v s' with
  | act => exact (foreign_clean_act h).2 hu hs
  | node u hact ih =>
    have hparts {t t' : Session} {vs : List Value} (ht : t.CaughtClean)
        (hvs : RunsTo templates cfg (u.parts cfg) t vs t') :
        MaterialClean (materials cfg (u.parts cfg) vs) ∧ t'.CaughtClean :=
      hvs.forall_materials (fun w hw _ _ _ hs hrun => ih w hw hrun (hu.parts hereditary_unbracketed hw) hs) ht
    have hstart : (u.start s).CaughtClean := by
      unfold start
      split <;> exact hs
    cases hformatted : u.isFormatted with
    | true =>
      obtain ⟨_, _, _, rfl, -, hjs, -⟩ := exists_quotes hformatted h
      refine ⟨?_, (hparts hstart hjs).2⟩
      simp [material_of_isFormatted hformatted]
    | false =>
      obtain ⟨_, _, hvs, rfl, hwraps⟩ :=
        exists_wraps (D := { Demands.none templates cfg with words := True }) rfl (fun _ => hu) nofun htemplates hact
          hformatted h
      obtain ⟨hclean, ht⟩ := hparts hstart hvs
      refine ⟨hwraps.clean trivial (allMaterial_append.mpr ⟨u.materialClean_extra, hclean⟩), ?_⟩
      cases hframed : u.isFramed with
      | true => rwa [Session.CaughtClean, (Effect.of_run h).framed hframed]
      | false => simpa [finish, hframed] using ht

theorem Task.settled_run : MaterialSettled (u.material cfg v) := by
  refine forall_run htemplates (fun a s v _ _ => ?_) (by simp) (fun u v _ hwraps hms => ?_) h
  · unfold material
    split <;> simp_all
  · have hextra : MaterialSettled (u.extra cfg) := by cases u <;> simp [extra]
    exact hwraps.settled (allMaterial_append.mpr ⟨hextra, hms⟩)

theorem Task.refsOf_run (hremap : cfg.remap.isSome = true) :
    AllMaterial (fun m => m.Foreign ∧ m.refs = []) (u.material cfg v) := by
  have hsnippet (f : Snippet) : f.material cfg = [] := by
    simp [Snippet.material, Option.isNone_iff_eq_none, Option.isSome_iff_ne_none.mp hremap]
  refine forall_run htemplates (fun a s v _ hrun m hm => ⟨(foreign_clean_act hrun).1 m hm, ?_⟩) (by simp)
    (fun u v ms hwraps hms => ?_) h
  · have hnone : AllMaterial (fun m => m.refs = []) ((act a).material cfg v) := by
      unfold material
      split <;> simp_all
    exact hnone m hm
  · have hextra : u.extra cfg = [] := by cases u <;> simp [extra, hsnippet]
    rw [hextra, List.nil_append] at hwraps
    have hforeign : AllForeign ms := fun m hm => (hms m hm).1
    have hnone : refsOf ms = [] := List.flatMap_eq_nil_iff.mpr fun m hm => (hms m hm).2
    have hnil : refsOf (u.material cfg v) = [] :=
      List.eq_nil_iff_forall_not_mem.mpr fun x hx => by simpa [hnone] using (hwraps.refs hforeign x).mp hx
    exact fun m hm => ⟨hwraps.foreign hforeign m hm, List.flatMap_eq_nil_iff.mp hnil m hm⟩

end

/-! ### Along a trail -/

section

variable {ts : List Task} {vs : List Value} {w : Visit} {rest : List Visit}

theorem RunsTo.exists_visits (h : RunsTo templates cfg ts s vs s') (hu : u ∈ ts) :
    ∃ w, Visits templates cfg ts s w ∧ w.task = u := by
  obtain ⟨before, _, rfl⟩ := List.append_of_mem hu
  obtain ⟨vs₁, t, _, hbefore, -, -⟩ := runsTo_append.mp h
  exact ⟨⟨before.length, u, t⟩, ⟨by simp, vs₁, by simpa using hbefore⟩, rfl⟩

theorem Visits.material (h : Visits templates cfg ts s w) (hrun : RunsTo templates cfg ts s vs s') :
    ∃ val t, w.task.run templates cfg w.session = .ok val t ∧ w.task.material cfg val ⊆ materials cfg ts vs := by
  obtain ⟨before, hbefore⟩ := h.runs
  rw [h.split] at hrun
  obtain ⟨vs₁, t₁, _, hvs₁, hvs₂, rfl⟩ := runsTo_append.mp hrun
  obtain ⟨-, rfl⟩ : before = vs₁ ∧ w.session = t₁ := by
    simpa [RunsTo, hbefore] using hbefore.symm.trans hvs₁
  obtain ⟨val, t, _, hval, -, rfl⟩ := runsTo_cons.mp hvs₂
  refine ⟨val, t, hval, ?_⟩
  rw [h.split, materials_append hvs₁.length_eq.symm, materials_cons]
  exact List.subset_append_of_subset_right _ (List.subset_append_left _ _)

theorem Trail.exists_deeper (h : Trail templates cfg ts s (w :: rest))
    (hrun : RunsTo templates cfg ts s vs s') (hu : u ∈ w.task.parts cfg) :
    ∃ v, v.task = u ∧ Trail templates cfg ts s (v :: w :: rest) := by
  have hact (a : Action) : w.task ≠ .act a := by
    intro ha
    simp [ha, Task.parts] at hu
  obtain ⟨_, _, hval, -⟩ := h.run hrun
  obtain ⟨_, _, hws, -⟩ := Task.runs_parts hact hval
  obtain ⟨v, hv, rfl⟩ := hws.exists_visits hu
  exact ⟨v, rfl, h.deeper hv⟩

theorem flatMap_subset {ms ks : List Material} (h : ms ⊆ ks) (f : Material → List α) :
    ms.flatMap f ⊆ ks.flatMap f := fun x hx => by
  obtain ⟨m, hm, hx⟩ := List.mem_flatMap.mp hx
  exact List.mem_flatMap.mpr ⟨m, h hm, hx⟩

/-- What holds of all nodes of the output holds of the nodes of what the tasks on a trail give. Those that
a formatted string quotes are nodes of no tree around it. -/
theorem Trail.forall_nodes (htemplates : TemplatesFit templates) {S : Js → Prop}
    (h : Trail templates cfg ts s (w :: rest)) (hrun : RunsTo templates cfg ts s vs s')
    (hquoted : (∃ r ∈ rest, r.task.isFormatted = true) → ∀ o text j,
      S (.template o text) → Quotes text j → ∀ t ∈ j.nodes, S t)
    (hS : ∀ t ∈ nodesOf (materials cfg ts vs), S t) :
    ∃ val t, w.task.run templates cfg w.session = .ok val t ∧ ∀ t ∈ nodesOf (w.task.material cfg val), S t := by
  induction h using Trail.along with
  | part _ hw =>
    obtain ⟨val, t, hval, hmaterial⟩ := hw.material hrun
    exact ⟨val, t, hval, fun k hk => hS k (flatMap_subset hmaterial _ hk)⟩
  | deeper _ r _ _ hw ih =>
    obtain ⟨_, _, hval, hnodes⟩ := ih (fun ⟨x, hx, hformatted⟩ => hquoted ⟨x, by simp [hx], hformatted⟩)
    cases hformatted : r.task.isFormatted with
    | true =>
      obtain ⟨o, text, _, rfl, hquotes, hjs, hmaterials⟩ := Task.exists_quotes hformatted hval
      obtain ⟨val', t', hval', hmaterial⟩ := hw.material hjs
      refine ⟨val', t', hval', fun k hk => ?_⟩
      replace hk := flatMap_subset hmaterial _ hk
      rw [hmaterials, ← nodesOf, nodesOf_trees] at hk
      obtain ⟨j, hj, hk⟩ := Script.mem_nodesAll.mp hk
      refine hquoted ⟨r, by simp, hformatted⟩ o text j (hnodes _ ?_) (hquotes j hj) k hk
      simp [Task.material_of_isFormatted hformatted]
    | false =>
      obtain ⟨_, _, hws, -, hwraps⟩ :=
        Task.exists_wraps (D := .none _ _) rfl nofun nofun htemplates (ne_act hw) hformatted hval
      obtain ⟨val', t'', hval', hmaterial⟩ := hw.material hws
      refine ⟨val', t'', hval', fun k hk => hnodes k (hwraps.nodes k (flatMap_subset ?_ _ hk))⟩
      exact List.subset_append_of_subset_right _ hmaterial

end

/-! ### Bodies -/

theorem Site.place_top (cfg : Config) : Site.top.place cfg = .top :=
  rfl

theorem RunsTo.materials_stmts (h : RunsTo templates cfg (stmtTasks site body) s (js.map .tree) s') :
    materials cfg (stmtTasks site body) (js.map .tree) = js.map .stmt :=
  h.materials_map fun _ _ => rfl

theorem result_eq_ok {x : Run α} {a : α} : Run.result x s = .ok a ↔ ∃ s', x s = .ok a s' := by
  unfold Run.result
  split <;> simp_all

def bodySite : Stmt → Site
  | .classDef _ _ bases .. => .member bases.head? .top
  | _ => .top

theorem place_bodySite (cfg : Config) (s : Stmt) : (bodySite s).place cfg = bodyPlace cfg s := by
  cases s <;> rfl

theorem exists_site_of_selectBody (h : selectBody cfg bodyOnly body = .ok (place, inner)) :
    ∃ site : Site, place = site.place cfg ∧ (∀ cfg', selectBody cfg' bodyOnly body = .ok (site.place cfg', inner)) ∧
      (site = .top ∧ inner = body ∨ ∃ s all, body = [s] ∧ s.body? = some all ∧ inner ⊆ all ∧ site = bodySite s) := by
  rcases selectBody_eq_ok h with ⟨rfl, rfl, hselect⟩ | ⟨s, all, rfl, hall, hinner, rfl, hselect⟩
  · exact ⟨.top, (Site.place_top cfg).symm, hselect, .inl ⟨rfl, rfl⟩⟩
  · refine ⟨bodySite s, (place_bodySite cfg s).symm, fun _ => ?_, .inr ⟨s, all, rfl, hall, hinner, rfl⟩⟩
    rw [place_bodySite, hselect]

theorem Hereditary.exists_site {E : Expr → Prop} {S : Stmt → Prop} {A : Action → Prop} (h : Hereditary E S A)
    (hselect : selectBody cfg bodyOnly body = .ok (place, inner)) (hbody : ∀ s ∈ body, S s) :
    ∃ site : Site, place = site.place cfg ∧ (∀ cfg', selectBody cfg' bodyOnly body = .ok (site.place cfg', inner)) ∧
      (site.All fun _ => E) ∧ ∀ s ∈ inner, S s := by
  obtain ⟨_, rfl, hother, ⟨rfl, rfl⟩ | ⟨s, all, rfl, _, hsubset, rfl⟩⟩ := exists_site_of_selectBody hselect
  · exact ⟨.top, rfl, hother, trivial, hbody⟩
  · have hs := hbody s (List.mem_singleton_self s)
    refine ⟨bodySite s, rfl, hother, ?_, fun t ht => ?_⟩
    · cases s with
      | classDef =>
        refine ⟨fun e he => h.operand _ e ?_ hs, trivial⟩
        simp [Stmt.operands, List.mem_of_mem_head? he]
      | _ => trivial
    · refine h.body s all ?_ hs t (hsubset ht)
      cases s <;> simp_all [Stmt.body?, Stmt.bodies]

theorem compileBody_of_compileModule {compiled : Compiled} (h : compileModule cfg here body = .ok compiled) :
    compileBody compileTemplate cfg here body Session.start = .ok compiled.script compiled.session := by
  unfold compileModule at h
  split at h
  next hbody =>
    cases h
    exact hbody
  · cases h

@[simp]
theorem refsAll_declaration (n : Script.Origin) (vars : List String) : Script.refsAll (declaration n vars) = [] := by
  unfold declaration
  split <;> simp [refsAll_eq_nil]

theorem exists_runsTo_compileBody (h : compileBody templates cfg (site.place cfg) body s = .ok j s') :
    ∃ js, RunsTo templates cfg (stmtTasks site body)
        (s.withEntry Context.varsKey (.names (localNames body))) (js.map .tree) s' ∧
      j = .statements (cfg.origin none) (declaration (cfg.origin none)
        ((localNames body).filter (!s'.globals.contains ·)) ++ js) ∧
      j.refs = Script.refsAll js := by
  obtain ⟨js, hjs, rfl⟩ := compileBody_eq_ok h
  exact ⟨js, compileBlock_eq_ok_iff.mp hjs, rfl, by simp⟩

theorem settled_stmtTasks (htemplates : TemplatesFit templates)
    (h : RunsTo templates cfg (stmtTasks site body) s (js.map .tree) s') :
    ∀ j ∈ js, j.isStill = true ∧ AllSettled j.nodes := by
  have hsettled := h.allMaterial fun _ _ _ _ _ hrun => Task.settled_run htemplates hrun
  rw [h.materials_stmts] at hsettled
  simpa using hsettled

theorem settled_compileBody (htemplates : TemplatesFit templates)
    (h : compileBody templates cfg (site.place cfg) body s = .ok j s') :
    ∃ o items, j = .statements o items ∧ ∀ k ∈ items, k.isStill = true ∧ AllSettled k.nodes := by
  obtain ⟨_, hruns, rfl, -⟩ := exists_runsTo_compileBody h
  have hjs := settled_stmtTasks htemplates hruns
  refine ⟨_, _, rfl, List.forall_mem_append.mpr ⟨?_, hjs⟩⟩
  unfold declaration
  split <;> simp +contextual

theorem clean_compileBody (htemplates : TemplatesFit templates) (hsite : site.Unbracketed)
    (hbody : Source.unbracketedBlock body = true) (hs : s.CaughtClean)
    (h : compileBody templates cfg (site.place cfg) body s = .ok j s') : j.masked.Clean := by
  obtain ⟨_, hruns, rfl, -⟩ := exists_runsTo_compileBody h
  have hclean := (hruns.forall_materials (P := Material.Clean) (fun u hu _ _ _ hs hrun => by
    obtain ⟨stmt, hstmt, rfl⟩ := mem_stmtTasks.mp hu
    exact Task.clean_run htemplates hrun ⟨hsite, Source.unbracketedBlock_iff.mp hbody stmt hstmt⟩ hs)
    (hs.withEntry (by decide) _)).1
  rw [hruns.materials_stmts] at hclean
  have hdeclare : ∀ k ∈ declaration (cfg.origin none)
      ((localNames body).filter (!s'.globals.contains ·)), k.masked.Clean ∧ k.standsAlone = true := by
    intro _ hk
    unfold declaration at hk
    split at hk
    · simp at hk
    · obtain rfl := List.mem_singleton.mp hk
      have hnames : ∀ name ∈ localNames body, Script.Neutral name := fun _ hname =>
        Script.neutral_of_bracketFree (Source.bracketFree_of_mem_localNames hbody hname)
      simp +contextual [hnames]
  simp only [Js.masked, Script.maskedAll_eq_map, Js.Clean, Script.blockClean_iff, List.forall_mem_map,
    Js.standsAlone_masked, List.forall_mem_append]
  exact ⟨hdeclare, by simpa using hclean⟩

/-! ### Templates -/

theorem templatesFit_error (fault : Fault) : TemplatesFit fun _ _ => .error fault := by
  constructor <;> simp

open Source.Build in
theorem unbracketed_exceptionSource (h : Source.isWord name = true) :
    Source.unbracketedBlock (exceptionSource name) = true := by
  have hname : bracketFree name = true := (Bool.and_eq_true_iff.mp h).2
  simp +decide [exceptionSource, Source.unbracketedBlock_iff, define, Source.Build.set, field, var, text,
    branch, anyOf, test, call, run, method, Stmt.unbracketed, Expr.unbracketed, Source.Params.unbracketed,
    Expr.every, Source.everyExpr, Source.everyKeyword, Expr.hasWords, h, hname]

theorem templatesFit_compileTemplate : TemplatesFit compileTemplate where
  isStatements cfg name j h := (yields_compileBody _ _ _ _).result h
  refs cfg name j hremap h := by
    obtain ⟨_, hbody⟩ := result_eq_ok.mp h
    rw [← Site.place_top cfg] at hbody
    obtain ⟨_, hruns, rfl, hrefs⟩ := exists_runsTo_compileBody hbody
    have hnone := hruns.allMaterial fun _ _ _ _ _ hrun => Task.refsOf_run (templatesFit_error _) hrun hremap
    rw [hruns.materials_stmts, allMaterial_map] at hnone
    rw [hrefs]
    exact refsAll_eq_nil fun j hj => (hnone j hj).2
  clean cfg name j hname h := by
    obtain ⟨_, hbody⟩ := result_eq_ok.mp h
    rw [← Site.place_top cfg] at hbody
    exact clean_compileBody (templatesFit_error _) .top (unbracketed_exceptionSource hname)
      (Session.caughtClean_of_empty rfl) hbody
  settled cfg name j h := by
    obtain ⟨_, hbody⟩ := result_eq_ok.mp h
    rw [← Site.place_top cfg] at hbody
    obtain ⟨_, _, rfl, hitems⟩ := settled_compileBody (templatesFit_error _) hbody
    simp +contextual [hitems]

end Transpiler.Compile
