import Transpiler.Proofs.Compile.Scopes
import Transpiler.Proofs.Compile.Trees

/-!
# What becomes of the statements of a module

Every statement of a module, at whatever depth, is compiled to a node of the script
(`holds_of_compileModule`). One list of statements is left out: the `else` of a `for` loop, of which only
counts whether it is there.
-/

namespace Transpiler.Compile

open Script (Js)
open Source (Expr Handler Stmt)

variable {templates : Templates} {cfg : Config} {site site' : Site} {body block : List Stmt} {stmt : Stmt}

/-! ### Statements inside statements -/

def reachedHandlers : List Handler → List Handler
  | [] => []
  | h :: rest => h :: if takesAll rest.isEmpty h.type then [] else reachedHandlers rest

/-- The lists of statements in a statement, and where they stand: the bodies of functions and of the methods
of classes, and all lists in the other statements but the `else` of a `for` loop and what comes after a
clause that takes every exception. -/
def innerBlocks (site : Site) : Stmt → List (Site × List Stmt)
  | .functionDef _ isAsync name _ body _ _ => [(site.inside name isAsync, body)]
  | .classDef _ _ bases _ body _ => body.filterMap fun
    | .functionDef _ isAsync name _ inner _ _ =>
      some ((site.member bases.head?).inside name isAsync, inner)
    | _ => none
  | .forLoop _ _ _ _ body _ => [(site.inner, body)]
  | .whileLoop _ _ body orelse | .ifElse _ _ body orelse => [(site.inner, body), (site.inner, orelse)]
  | .tryBlock _ _ body handlers orelse finalbody =>
    (body :: (reachedHandlers handlers).map Handler.body ++ [orelse, finalbody]).map (site.inner, ·)
  | _ => []

inductive Stands (site : Site) (body : List Stmt) : Site → Stmt → Prop
  | module {stmt : Stmt} (h : stmt ∈ body) : Stands site body site stmt
  | inner {outer inside : Site} {around stmt : Stmt} {block : List Stmt}
      (haround : Stands site body outer around) (hblock : (inside, block) ∈ innerBlocks outer around)
      (hstmt : stmt ∈ block) : Stands site body inside stmt

theorem mem_handlerTasks {handlers : List Handler} {h : Handler} (hh : h ∈ reachedHandlers handlers)
    (hstmt : stmt ∈ h.body) : .stmt site stmt ∈ handlerTasks site handlers := by
  induction handlers with
  | nil => simp [reachedHandlers] at hh
  | cons first _ ih =>
    obtain ⟨_, _, _, body⟩ := first
    rw [handlerTasks]
    rw [reachedHandlers] at hh
    rcases List.mem_cons.mp hh with rfl | hh
    · have : Task.stmt site stmt ∈ stmtTasks site body := mem_stmtTasks.mpr ⟨stmt, hstmt, rfl⟩
      split <;> simp [this]
    · split at hh
      · simp at hh
      next htakes =>
        rw [if_neg (by simpa [Handler.type] using htakes)]
        simp [ih hh]

theorem orelse_eq_nil {s s' : Session} {val : Value} (h : (Task.stmt site stmt).run templates cfg s = .ok val s') :
    (∀ p test block orelse, stmt = .whileLoop p test block orelse → orelse = []) ∧
      ∀ p star block handlers orelse finalbody, stmt = .tryBlock p star block handlers orelse finalbody →
        orelse = [] := by
  obtain ⟨_, hj, -⟩ := map_eq_ok_iff.mp h
  constructor
  · rintro _ _ _ orelse rfl
    rw [compileStmt] at hj
    obtain ⟨_, hstep, -⟩ := inFrame_eq_ok_iff.mp hj
    obtain ⟨_, _, hdemand, -⟩ := bind_eq_ok_iff.mp hstep
    cases orelse with
    | nil => rfl
    | cons => cases hdemand
  · rintro _ star _ _ orelse _ rfl
    rw [compileStmt] at hj
    obtain ⟨_, hstep, -⟩ := inFrame_eq_ok_iff.mp hj
    cases star with
    | true => cases hstep
    | false =>
      obtain ⟨_, _, hbegin, -⟩ := bind_eq_ok_iff.mp hstep
      obtain ⟨_, _, hrefuse, -⟩ := bind_eq_ok_iff.mp hbegin
      cases orelse with
      | nil => rfl
      | cons => cases hrefuse

section

variable {ts : List Task} {s s' : Session} {vs : List Value} {w : Visit} {rest : List Visit}

theorem Trail.exists_inner (h : Trail templates cfg ts s (w :: rest)) (hrun : RunsTo templates cfg ts s vs s')
    {around : Stmt} (hw : w.task = .stmt site around) (hblock : (site', block) ∈ innerBlocks site around)
    (hstmt : stmt ∈ block) :
    ∃ v above, Trail templates cfg ts s (v :: (above ++ w :: rest)) ∧ v.task = .stmt site' stmt ∧
      ∀ r ∈ above, r.task.function?.isSome = true := by
  obtain ⟨_, _, hval, -⟩ := h.run hrun
  rw [hw] at hval
  have hmem {inside : Site} {inner : List Stmt} (hinner : stmt ∈ inner) :
      .stmt inside stmt ∈ stmtTasks inside inner := mem_stmtTasks.mpr ⟨stmt, hinner, rfl⟩
  have hpart (hu : .stmt site' stmt ∈ stmtParts site around) :
      ∃ v above, Trail templates cfg ts s (v :: (above ++ w :: rest)) ∧ v.task = .stmt site' stmt ∧
        ∀ r ∈ above, r.task.function?.isSome = true := by
    obtain ⟨v, hv, htrail⟩ := h.exists_deeper hrun (u := .stmt site' stmt) (by rwa [hw])
    exact ⟨v, [], htrail, hv, by simp⟩
  cases around with
  | functionDef _ isAsync name _ inner =>
    obtain ⟨rfl, rfl⟩ : site' = site.inside name isAsync ∧ block = inner := by
      simpa [innerBlocks] using hblock
    exact hpart (by simp [stmtParts, functionTasks, hmem hstmt])
  | classDef p name bases keywords members ds =>
    obtain ⟨member, hmember, heq⟩ := List.mem_filterMap.mp hblock
    cases member with
    | functionDef q isAsync method params inner mds returns =>
      obtain ⟨rfl, rfl⟩ : (site.member bases.head?).inside method isAsync = site' ∧ inner = block := by
        simpa using heq
      -- first to the method, which is compiled without some of its decorators
      let placed : Stmt := .functionDef q isAsync method params inner (if appliedAtRunTime mds then [] else mds) returns
      have hmethod : placed ∈ methodStmts members := List.mem_filterMap.mpr ⟨_, hmember, rfl⟩
      have hclass : isExceptionClass ⟨p, name, bases, keywords, ds⟩ members = false := by
        rw [isExceptionClass, Bool.and_eq_false_iff, List.all_eq_false]
        exact .inl ⟨_, hmember, by simp⟩
      have hplaced : Task.stmt (site.member bases.head?) placed ∈ w.task.parts cfg := by
        rw [hw]
        simp only [Task.parts, stmtParts, hclass, classTasks, Bool.false_eq_true, if_false, List.mem_append,
          mem_stmtTasks]
        exact .inl (.inl (.inl (.inr ⟨placed, hmethod, rfl⟩)))
      obtain ⟨v, hv, htrail⟩ := h.exists_deeper hrun hplaced
      have hinner : Task.stmt ((site.member bases.head?).inside method isAsync) stmt ∈ v.task.parts cfg := by
        rw [hv]
        simp [Task.parts, placed, stmtParts, functionTasks, hmem hstmt]
      obtain ⟨v', hv', htrail'⟩ := htrail.exists_deeper hrun hinner
      exact ⟨v', [v], htrail', hv', by simp [hv, Task.function?, placed]⟩
    | _ => cases heq
  | forLoop _ _ _ _ inner =>
    obtain ⟨rfl, rfl⟩ : site' = site.inner ∧ block = inner := by simpa [innerBlocks] using hblock
    exact hpart (by simp [stmtParts, hmem hstmt])
  | whileLoop _ _ inner =>
    have hnil := (orelse_eq_nil hval).1 _ _ _ _ rfl
    obtain ⟨rfl, rfl⟩ : site' = site.inner ∧ block = inner := by
      rcases (by simpa [innerBlocks] using hblock : _ ∨ _) with h | h
      · exact h
      · simp_all
    exact hpart (by simp [stmtParts, hmem hstmt])
  | ifElse =>
    rcases (by simpa [innerBlocks] using hblock : _ ∨ _) with ⟨rfl, rfl⟩ | ⟨rfl, rfl⟩ <;>
      exact hpart (by simp [stmtParts, hmem hstmt])
  | tryBlock =>
    have hnil := (orelse_eq_nil hval).2 _ _ _ _ _ _ rfl
    obtain ⟨blocks, hblocks, heq⟩ := List.mem_map.mp hblock
    obtain ⟨rfl, rfl⟩ : site.inner = site' ∧ blocks = block := by simpa using heq
    simp only [List.cons_append, List.mem_cons, List.mem_append, List.mem_map, List.not_mem_nil, or_false] at hblocks
    rcases hblocks with rfl | ⟨_, hhandler, rfl⟩ | rfl | rfl
    · exact hpart (by simp [stmtParts, hmem hstmt])
    · exact hpart (by simp [stmtParts, mem_handlerTasks hhandler hstmt])
    · simp [hnil] at hstmt
    · exact hpart (by simp [stmtParts, hmem hstmt])
  | _ => simp [innerBlocks] at hblock

theorem Visits.exists_stmt {v : Visit} (h : Visits templates cfg (w.task.parts cfg) (w.task.start w.session) v)
    (hv : v.task = .stmt site stmt) : ∃ outer around, w.task = .stmt outer around := by
  have hmem := h.mem
  rw [hv] at hmem
  cases hw : w.task with
  | stmt outer around => exact ⟨outer, around, rfl⟩
  | act => simp [hw, Task.parts] at hmem
  | expr =>
    rw [hw] at hmem
    cases exprPart_of_mem hmem
  | decorators =>
    rw [hw] at hmem
    obtain ⟨_, -, heq⟩ := mem_exprTasks.mp hmem
    cases heq

theorem Trail.not_formatted (h : Trail templates cfg ts s (w :: rest)) (hw : w.task = .stmt site stmt) :
    ∀ r ∈ rest, r.task.isFormatted = false := by
  induction h using Trail.along generalizing site stmt with
  | part =>
    simp
  | deeper _ _ _ _ hvisit ih =>
    obtain ⟨_, _, hr⟩ := hvisit.exists_stmt hw
    exact List.forall_mem_cons.mpr ⟨by simp [hr, Task.isFormatted], ih hr⟩

end

/-! ### Scripts -/

theorem exists_eq_front {compiled : Compiled} {script : Js} {o : Script.Origin} {items : List Js}
    (hitems : compiled.script = .statements o items) (h : compiled.withLibrary cfg = .ok script) :
    ∃ o' front, script = .statements o' (front ++ items) := by
  rcases withLibrary_eq_ok_iff.mp h with ⟨-, rfl⟩ | ⟨-, _, hlibrary, rfl⟩
  · exact ⟨o, [], hitems⟩
  · obtain ⟨o', front, rfl⟩ := (yields_compileBody _ _ _ _).result hlibrary
    exact ⟨o', front, by rw [hitems]; rfl⟩

def Holds (cfg : Config) (site : Site) (body : List Stmt) (script : Js) (site' : Site) (stmt : Stmt) : Prop :=
  ∃ v rest j t, ModuleTrail cfg site body (v :: rest) ∧ v.task = .stmt site' stmt ∧
    compileStmt compileTemplate cfg (site'.place cfg) stmt v.session = .ok j t ∧ j ∈ script.nodes

theorem exists_trail_of_stands {js : List Js} {s s' : Session}
    (hrun : RunsTo templates cfg (stmtTasks site body) s (js.map .tree) s') (h : Stands site body site' stmt) :
    ∃ v rest, Trail templates cfg (stmtTasks site body) s (v :: rest) ∧ v.task = .stmt site' stmt := by
  induction h with
  | module hstmt =>
    obtain ⟨v, hv, htask⟩ := hrun.exists_visits (mem_stmtTasks.mpr ⟨_, hstmt, rfl⟩)
    exact ⟨v, [], .part hv, htask⟩
  | inner _ hblock hstmt ih =>
    obtain ⟨_, _, htrail, hv⟩ := ih
    obtain ⟨v', _, htrail', hv', -⟩ := htrail.exists_inner hrun hv hblock hstmt
    exact ⟨v', _, htrail', hv'⟩

theorem yields_ne_bare_compileStmt (htemplates : TemplatesFit templates) (stmt : Stmt) (hstmt : ∀ e, stmt ≠ .bare e) :
    Yields (compileStmt templates cfg here stmt) fun j => ∀ v, j ≠ .bare v := by
  have htemplate (cfg : Config) (name : String) :
      Yields (ofExcept (templates cfg (exceptionSource name)) : Run Js) fun j => ∀ v, j ≠ .bare v :=
    .ofExcept fun j hj => by
      obtain ⟨_, _, rfl⟩ := htemplates.isStatements cfg name j hj
      simp
  cases stmt
  case bare e => exact (hstmt e rfl).elim
  all_goals
    rw [compileStmt]
    refine .inFrame ?_
    try unfold compileFunction
    try unfold compileExceptionClass compileClass
    try unfold compileAssign
    try unfold compileLoop
    try unfold compileRaise
    try unfold compileImportFrom
    repeat first
      | exact .pure ‹_›
      | refine .pure ?_; simp [plainCall]
      | exact .throw _
      | exact .throwBind _
      | refine (htemplate _ _).bind fun _ _ => ?_
      | refine .andThen _ fun _ => ?_
      | unfold functionNode
      | split

theorem self_mem_nodes_of_compileStmt {here : Place} {stmt : Stmt} {j : Js} (hstmt : ∀ e, stmt ≠ .bare e)
    (h : compileStmt compileTemplate cfg here stmt s = .ok j s') : j ∈ j.nodes :=
  Js.self_mem_nodes (yields_ne_bare_compileStmt templatesFit_compileTemplate stmt hstmt _ _ _ h)

/-- Every statement of a module is compiled to a node of its script. The `else` of a `for` loop is left out:
of two loops that differ in it, and both have one, the same becomes. -/
theorem holds_of_compileModule {compiled : Compiled} {script : Js}
    (h : compileModule cfg (site.place cfg) body = .ok compiled)
    (hscript : compiled.withLibrary cfg = .ok script) :
    (∀ site' stmt, Stands site body site' stmt → (∀ e, stmt ≠ .bare e) → Holds cfg site body script site' stmt) ∧
    ∀ here p isAsync target iter block orelse other, orelse ≠ [] → other ≠ [] →
      compileStmt compileTemplate cfg here (.forLoop p isAsync target iter block orelse) =
        compileStmt compileTemplate cfg here (.forLoop p isAsync target iter block other) := by
  constructor
  · intro site' stmt hstands hstmt
    obtain ⟨js, hjs, hitems⟩ := compileModule_eq_ok h
    have hrun := compileBlock_eq_ok_iff.mp hjs
    obtain ⟨o, front, hfront⟩ := exists_eq_front hitems hscript
    have hjs : ∀ k ∈ nodesOf (js.map .stmt), k ∈ script.nodes := by
      intro k hk
      rw [nodesOf_stmts] at hk
      simp [hfront, hk]
    rw [← hrun.materials_stmts] at hjs
    obtain ⟨v, rest, htrail, hv⟩ := exists_trail_of_stands hrun hstands
    have hplain := htrail.not_formatted hv
    obtain ⟨val, t, hval, hnodes⟩ := htrail.forall_nodes templatesFit_compileTemplate hrun
      (by rintro ⟨r, hr, hformatted⟩; simp [hplain r hr] at hformatted) hjs
    rw [hv] at hval hnodes
    obtain ⟨j, hj, rfl⟩ := map_eq_ok_iff.mp hval
    refine ⟨v, rest, j, t, htrail, hv, hj, hnodes j ?_⟩
    simpa [Task.material] using self_mem_nodes_of_compileStmt hstmt hj
  · intro here p isAsync target iter block orelse other horelse hother
    have hisEmpty : orelse.isEmpty = other.isEmpty := by
      rw [List.isEmpty_eq_false_iff.mpr horelse, List.isEmpty_eq_false_iff.mpr hother]
    simp only [compileStmt, hisEmpty]
    rfl

def callStmt (name : String) : Stmt :=
  .expr none (.call none (.name none name) [] [])

def nestedTry : Stmt :=
  .tryBlock none false [callStmt "c"] [.mk none (.name none "E") none [callStmt "d"]] []
    [.forLoop none false (.name none "x") (.name none "xs") [callStmt "e"] []]

def nestedMethod : Stmt :=
  .functionDef none false "m" ⟨[], [⟨none, "self", .absent⟩], none, [], [], none, []⟩
    [.ifElse none (.name none "a") [callStmt "b"] [nestedTry]] [] .absent

def nestedBlocks : List Stmt :=
  [.classDef none "C" [] [] [nestedMethod] []]

theorem stands_nestedTry : Stands .top nestedBlocks (.inner (.inside "m" false (.member none .top))) nestedTry := by
  have hbranch : Stands .top nestedBlocks (.inside "m" false (.member none .top))
      (.ifElse none (.name none "a") [callStmt "b"] [nestedTry]) :=
    .inner (.module (List.mem_singleton_self _)) (List.mem_singleton_self _) (List.mem_singleton_self _)
  exact hbranch.inner (List.mem_cons_of_mem _ (List.mem_singleton_self _)) (List.mem_singleton_self _)

theorem holds_nestedBlocks : ∃ compiled script,
    compileModule (.standard true false) (Site.top.place (.standard true false)) nestedBlocks = .ok compiled ∧
      compiled.withLibrary (.standard true false) = .ok script ∧
      Holds (.standard true false) .top nestedBlocks script
        (.inner (.inner (.inside "m" false (.member none .top)))) (callStmt "d") ∧
      Holds (.standard true false) .top nestedBlocks script
        (.inner (.inner (.inner (.inside "m" false (.member none .top))))) (callStmt "e") := by
  obtain ⟨script, hboth⟩ := exists_of_isOk
    (x := compileModule (.standard true false) (Site.top.place (.standard true false)) nestedBlocks >>=
      Compiled.withLibrary (.standard true false)) (by decide +kernel)
  obtain ⟨compiled, h, hscript⟩ := bind_eq_ok.mp hboth
  have hholds := (holds_of_compileModule h hscript).1
  refine ⟨compiled, script, h, hscript, hholds _ _ ?_ (by simp [callStmt]), hholds _ _ ?_ (by simp [callStmt])⟩
  · have hclause : (Site.inner (.inner (.inside "m" false (.member none .top))), [callStmt "d"]) ∈
        innerBlocks (.inner (.inside "m" false (.member none .top))) nestedTry := by
      simp [innerBlocks, nestedTry, reachedHandlers, Handler.body]
    exact stands_nestedTry.inner hclause (List.mem_singleton_self _)
  · have hend : (Site.inner (.inner (.inside "m" false (.member none .top))),
        [Stmt.forLoop none false (.name none "x") (.name none "xs") [callStmt "e"] []]) ∈
        innerBlocks (.inner (.inside "m" false (.member none .top))) nestedTry := by
      simp [innerBlocks, nestedTry]
    exact (stands_nestedTry.inner hend (List.mem_singleton_self _)).inner (List.mem_singleton_self _)
      (List.mem_singleton_self _)

def loopWithElse : List Stmt :=
  [.forLoop none false (.name none "x") (.name none "xs") [.pass none] [callStmt "z"]]

def isCallStmt : Js → Bool
  | .exprStmt _ (.call ..) => true
  | _ => false

/-- What stands in the `else` of a loop is not in the script, in whatever session it is compiled. -/
theorem lost_loopWithElse : ∃ compiled script, compileModule (.standard false false) .top loopWithElse = .ok compiled ∧
      compiled.withLibrary (.standard false false) = .ok script ∧
      ∀ t j t', compileStmt compileTemplate (.standard false false) .top (callStmt "z") t = .ok j t' →
        j ∉ script.nodes := by
  refine ⟨_, _, rfl, rfl, ?_⟩
  rintro t j t' ⟨⟩ hmem
  have hnone := List.all_eq_true.mp (by decide +kernel : List.all _ (fun k => !isCallStmt k) = true) _ hmem
  cases hnone

end Transpiler.Compile
