import Transpiler.Proofs.Compile.Trails

/-!
# Statements are compiled independently

A task does not tell sessions apart that have the same context (`SameView`), and a statement leaves the
context as it found it. So each statement of a module is compiled as if it were the only one
(`compileModule_eq_each`).
-/

namespace Transpiler.Compile

open Script (Js)
open Source (Stmt)

variable {templates : Templates} {cfg : Config} {site : Site} {s s' t : Session} {body : List Stmt} {ts : List Task}
  {js : List Js} {here : Place} {compiled : Compiled} {vs : List Value}

/-! ### Sessions that look the same -/

/-- Two sessions have the same context, and both or none have a list of run-time functions. -/
structure SameView (s t : Session) : Prop where
  context : t.context = s.context
  snippets : t.snippets.isSome = s.snippets.isSome

theorem SameView.start (h : SameView s t) (u : Task) : SameView (u.start s) (u.start t) := by
  unfold Task.start
  split
  · exact ⟨by simp [Session.entered, h.context], h.snippets⟩
  · exact h

theorem SameView.finish (h : SameView s t) (u : Task) : SameView (u.finish s) (u.finish t) := by
  unfold Task.finish
  split
  · exact ⟨by simp [Session.left, h.context], h.snippets⟩
  · exact h

def Oblivious {α : Type} (x : Run α) : Prop :=
  ∀ s t, SameView s t → ∀ a s', x s = .ok a s' → ∃ t', x t = .ok a t' ∧ SameView s' t'

theorem oblivious_act (a : Action) : Oblivious a.run := by
  rintro ⟨c, _, _, _⟩ ⟨_, fs', globals', warnings'⟩ ⟨⟨⟩, hsnippets⟩ _ _ h
  cases a with
  | draw =>
    obtain ⟨name, hname, rfl⟩ := map_eq_ok_iff.mp h
    unfold newName at hname
    split at hname
    next c heq =>
      cases hname
      refine ⟨⟨c, fs', globals', warnings'⟩, map_eq_ok_iff.mpr ⟨name, ?_, rfl⟩, rfl, hsnippets⟩
      dsimp only at heq
      simp only [newName, heq]
    · cases hname
  | use =>
    obtain ⟨_, huse, rfl⟩ := map_eq_ok_iff.mp h
    obtain ⟨hsome, _, rfl⟩ := useSnippet_eq_ok huse
    obtain ⟨_, rfl⟩ := Option.isSome_iff_exists.mp (hsnippets.trans hsome)
    exact ⟨_, map_eq_ok_iff.mpr ⟨_, rfl, rfl⟩, rfl, rfl⟩
  | imports | remark | scope | catching | caught =>
    obtain ⟨_, hstep, rfl⟩ := map_eq_ok_iff.mp h
    cases hstep
    exact ⟨_, map_eq_ok_iff.mpr ⟨_, rfl, rfl⟩, rfl, hsnippets⟩

theorem oblivious_inOrder (h : ∀ u ∈ ts, Oblivious (u.run templates cfg)) :
    Oblivious (ts.mapM (Task.run templates cfg)) := by
  induction ts with
  | nil =>
    rintro _ t hst _ _ hvs
    obtain ⟨rfl, rfl⟩ := runsTo_nil.mp hvs
    exact ⟨t, runsTo_nil.mpr ⟨rfl, rfl⟩, hst⟩
  | cons u _ ih =>
    rintro s t hst _ s' hvs
    obtain ⟨v, r, ws, hv, hws, rfl⟩ := runsTo_cons.mp hvs
    obtain ⟨r', hv', hr⟩ := h u (by simp) s t hst v r hv
    obtain ⟨t', hws', ht⟩ := ih (fun w hw => h w (by simp [hw])) r r' hr ws s' hws
    exact ⟨t', runsTo_cons.mpr ⟨v, r', ws, hv', hws', rfl⟩, ht⟩

theorem oblivious_run (u : Task) : Oblivious (u.run templates cfg) := by
  induction u using Task.induction cfg with
  | act a => exact oblivious_act a
  | node u hu ih =>
    obtain ⟨_, hg⟩ := Task.exists_run_eq_ok_iff hu
    rintro s t hst v s' hv
    obtain ⟨vs, r, hvs, hgv, rfl⟩ := (hg s v s').mp hv
    obtain ⟨r', hvs', hr⟩ := oblivious_inOrder ih _ _ (hst.start u) vs r hvs
    exact ⟨u.finish r', (hg t v _).mpr ⟨vs, r', hvs', hgv, rfl⟩, hr.finish u⟩

/-! ### Statements of a module -/

/-- The session in which the statements of a module are compiled: all that is known are the variables of
the module. -/
def Session.ofModule (body : List Stmt) : Session :=
  Session.start.withEntry Context.varsKey (.names (Source.localNames body))

theorem compileBlock_eq_ok_iff : compileBlock templates cfg (site.place cfg) body s = .ok js s' ↔
    RunsTo templates cfg (stmtTasks site body) s (js.map .tree) s' := by
  induction body generalizing s js with
  | nil =>
    rw [compileBlock, pure_eq_ok_iff]
    simp [stmtTasks]
  | cons _ _ ih =>
    rw [compileBlock, stmtTasks_cons, runsTo_cons]
    simp only [bind_eq_ok_iff, pure_eq_ok_iff, Task.run, map_eq_ok_iff]
    constructor
    · rintro ⟨j, t, hj, js, _, hjs, rfl, rfl⟩
      exact ⟨.tree j, t, js.map .tree, ⟨j, hj, rfl⟩, ih.mp hjs, rfl⟩
    · rintro ⟨_, t, vs, ⟨j, hj, rfl⟩, hvs, heq⟩
      cases js with
      | nil => simp at heq
      | cons j' js =>
        obtain ⟨rfl, rfl⟩ : j' = j ∧ js.map .tree = vs := by simpa using heq
        exact ⟨j', t, hj, js, s', ih.mpr hvs, rfl, rfl⟩

def declaration (n : Script.Origin) (vars : List String) : List Js :=
  if vars.isEmpty then [] else [.declare n .var true vars (vars.map fun _ => .absent)]

theorem compileBody_eq_ok {j : Js} (h : compileBody templates cfg here body s = .ok j s') :
    ∃ js, compileBlock templates cfg here body
        (s.withEntry Context.varsKey (.names (Source.localNames body))) = .ok js s' ∧
      j = .statements (cfg.origin none) (declaration (cfg.origin none)
        ((Source.localNames body).filter (!s'.globals.contains ·)) ++ js) := by
  obtain ⟨_, _, hset, js, _, hjs, hrest⟩ := by
    simpa only [compileBody, bind_eq_ok_iff] using h
  obtain rfl := ends_setEntry _ _ _ _ _ hset
  obtain ⟨_, _, ⟨⟩, hpure⟩ := hrest
  obtain ⟨rfl, rfl⟩ := pure_eq_ok_iff.mp hpure
  exact ⟨js, hjs, rfl⟩

theorem compileModule_eq_ok (h : compileModule cfg here body = .ok compiled) :
    ∃ js, compileBlock compileTemplate cfg here body (.ofModule body) = .ok js compiled.session ∧
      compiled.script = .statements (cfg.origin none) (declaration (cfg.origin none)
        ((Source.localNames body).filter (!compiled.session.globals.contains ·)) ++ js) := by
  unfold compileModule at h
  split at h
  next heq =>
    cases h
    exact compileBody_eq_ok heq
  · cases h

theorem context_stmtTasks (hbody : ∀ stmt ∈ body, ∀ e, stmt ≠ .bare e)
    (h : RunsTo templates cfg (stmtTasks site body) s vs s') : s'.context = s.context := by
  refine h.relate (fun s s' => s'.context = s.context) (fun _ => rfl) (fun h h' => h'.trans h) ?_
  intro _ hu _ _ _ hrun
  obtain ⟨stmt, hstmt, rfl⟩ := mem_stmtTasks.mp hu
  refine (Effect.of_run hrun).framed ?_
  cases stmt with
  | bare e => exact (hbody _ hstmt e rfl).elim
  | _ => rfl

theorem compileBlock_take (h : compileBlock templates cfg (site.place cfg) body s = .ok js s')
    (i : Nat) : ∃ t, compileBlock templates cfg (site.place cfg) (body.take i) s = .ok (js.take i) t ∧
      compileBlock templates cfg (site.place cfg) (body.drop i) t = .ok (js.drop i) s' := by
  have hlength : js.length = body.length := by
    simpa [stmtTasks] using (compileBlock_eq_ok_iff.mp h).length_eq
  have hsplit : stmtTasks site body = stmtTasks site (body.take i) ++ stmtTasks site (body.drop i) := by
    simp only [stmtTasks, ← List.map_append, List.take_append_drop]
  rw [compileBlock_eq_ok_iff, hsplit, runsTo_append] at h
  obtain ⟨vs, t, ws, hvs, hws, heq⟩ := h
  obtain ⟨rfl, rfl⟩ : (js.take i).map Value.tree = vs ∧ (js.drop i).map Value.tree = ws := by
    refine List.append_inj ?_ ?_
    · rw [← List.map_append, List.take_append_drop, heq]
    · simp [hvs.length_eq, stmtTasks, hlength]
  exact ⟨t, compileBlock_eq_ok_iff.mpr hvs, compileBlock_eq_ok_iff.mpr hws⟩

theorem compileStmt_of_compileBlock {i : Nat} {stmt : Stmt} (hstmt : body[i]? = some stmt)
    (h : compileBlock templates cfg (site.place cfg) (body.drop i) s = .ok (js.drop i) s') :
    ∃ j t, js[i]? = some j ∧ compileStmt templates cfg (site.place cfg) stmt s = .ok j t := by
  obtain ⟨hlt, rfl⟩ := List.getElem?_eq_some_iff.mp hstmt
  rw [List.drop_eq_getElem_cons hlt, compileBlock] at h
  obtain ⟨j, t, hj, hrest⟩ := bind_eq_ok_iff.mp h
  obtain ⟨_, _, -, hpure⟩ := bind_eq_ok_iff.mp hrest
  obtain ⟨hdrop, -⟩ := pure_eq_ok_iff.mp hpure
  refine ⟨j, t, ?_, hj⟩
  rw [← List.head?_drop, hdrop, List.head?_cons]

theorem RunsTo.sameView (h : RunsTo templates cfg ts s vs s') (hcontext : s'.context = s.context) : SameView s' s := by
  refine ⟨hcontext.symm, ?_⟩
  exact h.relate (fun s s' => s.snippets.isSome = s'.snippets.isSome) (fun _ => rfl) Eq.trans
    fun u _ _ _ _ hrun => (Effect.of_run hrun).snippets.symm

/-- Each statement of a module is compiled to what it is compiled to on its own, and leaves the context as
it found it. -/
theorem compileModule_eq_each {body : List Stmt} {compiled : Compiled} (hbody : ∀ stmt ∈ body, ∀ e, stmt ≠ .bare e)
    (h : compileModule cfg (site.place cfg) body = .ok compiled) :
    ∃ js vars, compiled.script = .statements (cfg.origin none) (declaration (cfg.origin none) vars ++ js) ∧
      js.length = body.length ∧
      (∀ i, ∃ t, compileBlock compileTemplate cfg (site.place cfg) (body.take i) (.ofModule body) =
        .ok (js.take i) t ∧ t.context = (Session.ofModule body).context) ∧
      ∀ (i : Nat) (stmt : Stmt), body[i]? = some stmt → ∃ j t, js[i]? = some j ∧
        compileStmt compileTemplate cfg (site.place cfg) stmt (.ofModule body) = .ok j t := by
  obtain ⟨js, hjs, hscript⟩ := compileModule_eq_ok h
  have hcontext {i : Nat} {t : Session} (ht : RunsTo compileTemplate cfg
      (stmtTasks site (body.take i)) (.ofModule body) ((js.take i).map .tree) t) :
      t.context = (Session.ofModule body).context :=
    context_stmtTasks (fun stmt hstmt => hbody stmt (List.mem_of_mem_take hstmt)) ht
  refine ⟨js, _, hscript, ?_, fun i => ?_, fun i stmt hstmt => ?_⟩
  · simpa [stmtTasks] using (compileBlock_eq_ok_iff.mp hjs).length_eq
  · obtain ⟨t, ht, -⟩ := compileBlock_take hjs i
    exact ⟨t, ht, hcontext (compileBlock_eq_ok_iff.mp ht)⟩
  · obtain ⟨t, ht, hrest⟩ := compileBlock_take hjs i
    obtain ⟨j, t', hj, hcompile⟩ := compileStmt_of_compileBlock hstmt hrest
    have hruns := compileBlock_eq_ok_iff.mp ht
    -- the statement does not tell the session after the others from the one of the module
    have hrun : (Task.stmt site stmt).run compileTemplate cfg t = .ok (.tree j) t' :=
      map_eq_ok_iff.mpr ⟨j, hcompile, rfl⟩
    obtain ⟨t'', hrun'', -⟩ := oblivious_run _ _ _ (hruns.sameView (hcontext hruns)) _ _ hrun
    obtain ⟨j', hj', heq⟩ := map_eq_ok_iff.mp hrun''
    obtain rfl : j' = j := by simpa using heq
    exact ⟨j', t'', hj, hj'⟩

/-- Two loops and a `try` statement that throws the exception again; each makes names of its own. -/
def threeBlocks : List Stmt :=
  [.forLoop none false (.name none "x") (.name none "xs") [.pass none] [],
    .tryBlock none false [.expr none (.name none "x")]
      [.mk none (.name none "E") (some "err") [.raise none .absent .absent]] [] [],
    .assign none [.name none "ys"]
      (.listComp none (.name none "y") [.mk (.name none "y") (.name none "xs") []])]

theorem compileModule_threeBlocks : (∀ stmt ∈ threeBlocks, ∀ e, stmt ≠ .bare e) ∧
      ∃ compiled, compileModule default (Site.top.place default) threeBlocks = .ok compiled ∧
        ∃ js vars, compiled.script =
            .statements (Config.origin default none) (declaration (Config.origin default none) vars ++ js) ∧
          js.length = threeBlocks.length ∧
          (∀ i, ∃ t, compileBlock compileTemplate default (Site.top.place default) (threeBlocks.take i)
            (.ofModule threeBlocks) = .ok (js.take i) t ∧ t.context = (Session.ofModule threeBlocks).context) ∧
          ∀ (i : Nat) (stmt : Stmt), threeBlocks[i]? = some stmt → ∃ j t, js[i]? = some j ∧
            compileStmt compileTemplate default (Site.top.place default) stmt (.ofModule threeBlocks) = .ok j t := by
  have hbody : ∀ stmt ∈ threeBlocks, ∀ e, stmt ≠ .bare e := by simp [threeBlocks]
  obtain ⟨compiled, h⟩ : ∃ compiled, compileModule default (Site.top.place default) threeBlocks =
    .ok compiled := ⟨_, rfl⟩
  exact ⟨hbody, compiled, h, compileModule_eq_each hbody h⟩

end Transpiler.Compile
