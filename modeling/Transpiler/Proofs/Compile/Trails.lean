import Transpiler.Proofs.Compile.CollectsStmt

/-!
# Trails

A task succeeds where its parts do in order, and its result is computed from theirs (`Task.exists_run_eq_ok_iff`).
When tasks are carried out in order, a trail leads to one of them, to a part of one, to a part of a part,
and so on (`Trail`). What a task may change in the context is said once (`Effect`), so that what holds
along a trail is known from what holds at its start.
-/

namespace Transpiler.Compile

open Script (Js)
open Source (Expr Stmt)

variable {templates : Templates} {cfg : Config}

/-! ### Tasks and their parts -/

def Task.start (u : Task) (s : Session) : Session :=
  if u.isFramed then s.entered else s

def Task.finish (u : Task) (t : Session) : Session :=
  if u.isFramed then t.left else t

theorem inFrame_eq_ok_iff {α : Type} {x : Run α} {s s' : Session} {a : α} :
    inFrame x s = .ok a s' ↔ ∃ t, x s.entered = .ok a t ∧ s' = t.left := by
  have hmodify (g : Session → Session) (s s' : Session) : (modify g : Run Unit) s = .ok () s' ↔ s' = g s := by
    constructor
    · rintro ⟨⟩
      rfl
    · rintro rfl
      rfl
  simp only [inFrame, bind_eq_ok_iff, pure_eq_ok_iff, hmodify]
  constructor
  · rintro ⟨_, _, rfl, _, t, hx, _, _, rfl, rfl, rfl⟩
    exact ⟨t, hx, rfl⟩
  · rintro ⟨t, hx, rfl⟩
    exact ⟨(), _, rfl, a, t, hx, (), _, rfl, rfl, rfl⟩

theorem Task.exists_run_eq_ok_iff {u : Task} (hu : ∀ a, u ≠ .act a) :
    ∃ g : List Value → Option Value, ∀ s v s', u.run templates cfg s = .ok v s' ↔
      ∃ vs t, RunsTo templates cfg (u.parts cfg) (u.start s) vs t ∧ g vs = some v ∧ s' = u.finish t := by
  -- a step that does the parts, with or without a frame
  have hplain {x : Run Js} {ts : List Task} (hx : Does templates cfg x ts) :
      ∃ g : List Value → Option Value, ∀ s v s', (Value.tree <$> x) s = .ok v s' ↔
        ∃ vs t, RunsTo templates cfg ts s vs t ∧ g vs = some v ∧ s' = t := by
    obtain ⟨g, hg⟩ := hx.map Value.tree
    refine ⟨g, fun s v s' => ?_⟩
    rw [hg]
    constructor
    · rintro ⟨vs, hvs, hv⟩
      exact ⟨vs, s', hvs, hv, rfl⟩
    · rintro ⟨vs, _, hvs, hv, rfl⟩
      exact ⟨vs, hvs, hv⟩
  have hframed {x : Run Js} {ts : List Task} (hx : Does templates cfg x ts) :
      ∃ g : List Value → Option Value, ∀ s v s', (Value.tree <$> inFrame x) s = .ok v s' ↔
        ∃ vs t, RunsTo templates cfg ts s.entered vs t ∧ g vs = some v ∧ s' = t.left := by
    obtain ⟨g, hg⟩ := hplain hx
    refine ⟨g, fun s v _ => ?_⟩
    simp only [map_eq_ok_iff, inFrame_eq_ok_iff] at hg ⊢
    constructor
    · rintro ⟨j, ⟨t, hx, rfl⟩, hv⟩
      obtain ⟨vs, _, hvs, hv, rfl⟩ := (hg _ v t).mp ⟨j, hx, hv⟩
      exact ⟨vs, _, hvs, hv, rfl⟩
    · rintro ⟨vs, t, hvs, hv, rfl⟩
      obtain ⟨j, hx, hv⟩ := (hg _ v t).mpr ⟨vs, t, hvs, hv, rfl⟩
      exact ⟨j, ⟨t, hx, rfl⟩, hv⟩
  cases u with
  | act a => exact (hu a rfl).elim
  | expr _ e => exact hplain (does_compileExpr e)
  | decorators site h =>
    obtain ⟨x, hx, hcollects⟩ : ∃ x, (∀ cfg, compileClassDecorators cfg (site.place cfg) h = inFrame (x cfg)) ∧
        CollectsIn (.none templates cfg) _ x (exprTasks site h.decorators) _ :=
      exists_collects_compileClassDecorators _ h False.elim
    simp only [run, hx]
    exact hframed hcollects.does
  | stmt site s =>
    by_cases hs : (Task.stmt site s).isFramed = true
    · obtain ⟨x, hx, hdoes⟩ : ∃ x, compileStmt templates cfg (site.place cfg) s = inFrame x ∧
          Does templates cfg x (stmtParts site s) := exists_does_compileStmt s hs
      simp only [run, hx, start, finish, hs, if_true]
      exact hframed hdoes
    · cases s with
      | bare e =>
        simp only [run, compileStmt]
        exact hplain (Does.expr site e)
      | _ => simp [isFramed] at hs

theorem Task.runs_parts {u : Task} {v : Value} {s s' : Session} (hu : ∀ a, u ≠ .act a)
    (h : u.run templates cfg s = .ok v s') :
    ∃ vs t, RunsTo templates cfg (u.parts cfg) (u.start s) vs t ∧ s' = u.finish t := by
  obtain ⟨_, hg⟩ := Task.exists_run_eq_ok_iff hu
  obtain ⟨vs, t, hvs, -, ht⟩ := (hg s v s').mp h
  exact ⟨vs, t, hvs, ht⟩

/-! ### Visits -/

/-- A task that is come to: its place among the tasks that are carried out with it, and the session in
which it is carried out. -/
structure Visit where
  index : Nat
  task : Task
  session : Session

structure Visits (templates : Templates) (cfg : Config) (ts : List Task) (s : Session) (v : Visit) :
    Prop where
  task : ts[v.index]? = some v.task
  runs : ∃ vs, RunsTo templates cfg (ts.take v.index) s vs v.session

namespace Visits

variable {ts : List Task} {s s' : Session} {vs : List Value} {v w : Visit}

theorem mem (h : Visits templates cfg ts s v) : v.task ∈ ts :=
  List.mem_of_getElem? h.task

theorem split (h : Visits templates cfg ts s v) : ts = ts.take v.index ++ v.task :: ts.drop (v.index + 1) := by
  obtain ⟨_, htask⟩ := List.getElem?_eq_some_iff.mp h.task
  rw [← htask, List.getElem_cons_drop, List.take_append_drop]

theorem run (h : Visits templates cfg ts s v) (hrun : RunsTo templates cfg ts s vs s') :
    ∃ val t ws, v.task.run templates cfg v.session = .ok val t ∧
      RunsTo templates cfg (ts.drop (v.index + 1)) t ws s' := by
  rw [h.split] at hrun
  obtain ⟨vs₁, t₁, _, hbefore, hafter, -⟩ := runsTo_append.mp hrun
  obtain ⟨val, t, ws, hval, hws, -⟩ := runsTo_cons.mp hafter
  obtain ⟨vs, hvs⟩ := h.runs
  obtain ⟨-, rfl⟩ : vs = vs₁ ∧ v.session = t₁ := by
    simpa [RunsTo, hvs] using hvs.symm.trans hbefore
  exact ⟨val, t, ws, hval, hws⟩

theorem unique (hv : Visits templates cfg ts s v) (hw : Visits templates cfg ts s w)
    (hindex : v.index = w.index) : v = w := by
  obtain ⟨i, _, _⟩ := v
  obtain ⟨_, _, _⟩ := w
  obtain rfl : i = _ := hindex
  obtain ⟨_, hvs⟩ := hv.runs
  obtain ⟨_, hvs'⟩ := hw.runs
  have htask := hv.task.symm.trans hw.task
  have hsession := hvs.symm.trans hvs'
  simp_all

end Visits

/-! ### Trails -/

/-- A trail of a run of tasks, from the inside out: the visit of a task, the visit of the task that it is a
part of, and so on. -/
inductive Trail (templates : Templates) (cfg : Config) (ts : List Task) (s : Session) : List Visit → Prop
  | part {v : Visit} (h : Visits templates cfg ts s v) : Trail templates cfg ts s [v]
  | deeper {v w : Visit} {rest : List Visit} (htrail : Trail templates cfg ts s (w :: rest))
      (h : Visits templates cfg (w.task.parts cfg) (w.task.start w.session) v) :
      Trail templates cfg ts s (v :: w :: rest)

namespace Trail

variable {ts : List Task} {s s' : Session} {vs : List Value} {v w : Visit} {rest above : List Visit}

theorem ne_act (h : Visits templates cfg (w.task.parts cfg) (w.task.start w.session) v) (a : Action) :
    w.task ≠ .act a := by
  intro ha
  have := h.task
  simp [ha, Task.parts] at this

@[elab_as_elim]
theorem along {motive : ∀ v rest, Trail templates cfg ts s (v :: rest) → Prop}
    (part : ∀ v (h : Visits templates cfg ts s v), motive v [] (.part h))
    (deeper : ∀ v w rest (htrail : Trail templates cfg ts s (w :: rest))
      (h : Visits templates cfg (w.task.parts cfg) (w.task.start w.session) v),
      motive w rest htrail → motive v (w :: rest) (htrail.deeper h))
    (h : Trail templates cfg ts s (v :: rest)) : motive v rest h := by
  induction rest generalizing v with
  | nil =>
    cases h with
    | part hv => exact part v hv
  | cons w rest ih =>
    cases h with
    | deeper htrail hv => exact deeper v w rest htrail hv (ih htrail)

theorem of_append (h : Trail templates cfg ts s (above ++ v :: rest)) : Trail templates cfg ts s (v :: rest) := by
  induction above with
  | nil => exact h
  | cons _ above ih =>
    refine ih ?_
    cases above <;> cases h <;> assumption

end Trail

/-! ### What a task changes -/

def Task.isScope : Task → Bool
  | act (.scope ..) => true
  | _ => false

def Task.isCatching : Task → Bool
  | .act (.catching _) => true
  | _ => false

def Task.isConstruct : Task → Bool
  | stmt _ (.forLoop ..) | expr _ (.listComp ..) => true
  | _ => false

theorem not_scope_of_not_framed {u v : Task} (hu : u.isFramed = false) (hv : v ∈ u.parts cfg) :
    v.isScope = false ∧ v.isCatching = false := by
  cases u with
  | act => simp [Task.parts] at hv
  | expr => cases exprPart_of_mem hv <;> exact ⟨rfl, rfl⟩
  | decorators => simp [Task.isFramed] at hu
  | stmt _ s =>
    cases s with
    | bare =>
      obtain ⟨_, -, rfl⟩ := mem_exprTasks.mp hv
      exact ⟨rfl, rfl⟩
    | _ => simp [Task.isFramed] at hu

/-- The names that a function declares if it is compiled from a session: those that its body binds,
without the names that are taken and the variables around it. -/
def declaredNames (taken : List String) (body : List Stmt) (s : Session) : List String :=
  (Source.localNames body).filter fun x => !taken.contains x && !s.context.vars.contains x

theorem openScope_eq_ok {taken vars : List String} {body : List Stmt} {s s' : Session}
    (h : openScope taken body s = .ok vars s') : vars = declaredNames taken body s ∧
      s' = s.withEntry Context.varsKey (.names (s.context.vars ++ vars)) := by
  cases h
  exact ⟨rfl, rfl⟩

theorem useSnippet_eq_ok {f : Snippet} {s s' : Session} (h : useSnippet f s = .ok () s') :
    s.snippets.isSome = true ∧ ∃ fs, s' = { s with snippets := some fs } := by
  obtain ⟨_, snippets, _, _⟩ := s
  cases snippets with
  | none => cases h
  | some =>
    cases h
    exact ⟨rfl, _, rfl⟩

theorem RunsTo.relate (R : Session → Session → Prop) (hrefl : ∀ s, R s s)
    (htrans : ∀ {r s t}, R r s → R s t → R r t) {ts : List Task}
    (h : ∀ u ∈ ts, ∀ s v s', u.run templates cfg s = .ok v s' → R s s') {s s' : Session} {vs : List Value}
    (hrun : RunsTo templates cfg ts s vs s') : R s s' := by
  induction ts generalizing s vs with
  | nil =>
    obtain ⟨-, rfl⟩ := runsTo_nil.mp hrun
    exact hrefl _
  | cons u _ ih =>
    obtain ⟨val, t, _, hval, hws, -⟩ := runsTo_cons.mp hrun
    exact htrans (h u (by simp) s val t hval) (ih (fun w hw => h w (by simp [hw])) hws)

theorem addGlobals_eq_ok {names : List String} {s s' : Session} (h : addGlobals names s = .ok () s') :
    ∃ globals, s' = { s with globals } ∧ ∀ x, x ∈ globals ↔ x ∈ s.globals ∨ x ∈ names := by
  cases h
  refine ⟨_, rfl, fun x => ?_⟩
  generalize s.globals = globals
  induction names generalizing globals with
  | nil => simp
  | cons _ _ ih =>
    rw [List.foldl_cons, ih, Source.mem_insertName, List.mem_cons, or_assoc, or_left_comm]

@[simp]
theorem Task.globals_start (u : Task) (s : Session) : (u.start s).globals = s.globals := by
  unfold start
  split <;> rfl

@[simp]
theorem Task.globals_finish (u : Task) (s : Session) : (u.finish s).globals = s.globals := by
  unfold finish
  split <;> rfl

structure Effect (u : Task) (s s' : Session) : Prop where
  outer : s'.context.outer = s.context.outer
  number : s.lastNumber ≤ s'.lastNumber
  numbered : s.Numbered → s'.Numbered
  snippets : s'.snippets.isSome = s.snippets.isSome
  globals : s.globals ⊆ s'.globals
  vars : u.isScope = false → s'.context.vars = s.context.vars
  exception : u.isCatching = false → s'.context.exception? = s.context.exception?
  framed : u.isFramed = true → s'.context = s.context

namespace Effect

variable {u : Task} {s s' : Session} {v : Value}

theorem of_context (hcontext : s'.context = s.context) (hsnippets : s'.snippets.isSome = s.snippets.isSome)
    (hglobals : s.globals ⊆ s'.globals) : Effect u s s' :=
  ⟨by rw [hcontext], by simp [Session.lastNumber, hcontext], by simp [Session.Numbered, hcontext], hsnippets, hglobals,
    fun _ => by rw [hcontext], fun _ => by rw [hcontext], fun _ => hcontext⟩

theorem of_withEntry {a : Action} {key : String} {entry : Entry}
    (hnumber : s.lastNumber ≤ (s.withEntry key entry).lastNumber)
    (hnumbered : s.Numbered → (s.withEntry key entry).Numbered)
    (hvars : (Task.act a).isScope = false → key ≠ Context.varsKey)
    (hexception : (Task.act a).isCatching = false → key ≠ Context.exceptionKey) :
    Effect (.act a) s (s.withEntry key entry) := by
  refine ⟨rfl, hnumber, hnumbered, rfl, fun _ => id, fun ha => ?_,
    fun ha => (SameScope.withEntry s (hexception ha) _).exception, by simp [Task.isFramed]⟩
  rw [Context.vars, Session.withEntry, Context.get?_set_of_ne _ (hvars ha).symm, ← Context.vars]

theorem act {a : Action} (h : a.run s = .ok v s') : Effect (.act a) s s' := by
  cases a with
  | draw =>
    obtain ⟨name, hname, -⟩ := map_eq_ok_iff.mp h
    obtain ⟨-, rfl⟩ := ends_newName s name s' hname
    refine of_withEntry ?_ (fun hs => ?_) (fun _ => by decide) fun _ => by decide
    · rw [Session.lastNumber_withNumber]
      omega
    · rcases hs.newName with ⟨hlt, -⟩ | ⟨-, _, herror⟩
      · rintro entry hentry
        have := hs.bounds
        obtain rfl : .number (s.lastNumber + 1) = entry := by simpa [Session.withEntry] using hentry
        exact ⟨_, rfl, by omega, hlt⟩
      · simp [hname] at herror
  | scope =>
    obtain ⟨_, hvars, -⟩ := map_eq_ok_iff.mp h
    obtain ⟨-, rfl⟩ := openScope_eq_ok hvars
    exact of_withEntry (by simp) (·.withEntry (by decide) _) (by simp [Task.isScope]) fun _ => by decide
  | catching =>
    obtain ⟨_, hset, -⟩ := map_eq_ok_iff.mp h
    obtain rfl := ends_setEntry s _ _ _ _ hset
    refine of_withEntry ?_ (·.withEntry (by decide) _) (fun _ => by decide) (by simp [Task.isCatching])
    have hne : Context.nameKey ≠ Context.exceptionKey := by decide
    apply Int.le_of_eq
    rw [Session.lastNumber, Session.lastNumber, Session.withEntry, Context.get?_set_of_ne _ hne]
  | use =>
    obtain ⟨_, huse, -⟩ := map_eq_ok_iff.mp h
    obtain ⟨hsome, _, rfl⟩ := useSnippet_eq_ok huse
    exact of_context rfl hsome.symm fun _ => id
  | imports =>
    obtain ⟨_, hadd, -⟩ := map_eq_ok_iff.mp h
    obtain ⟨_, rfl, hglobals⟩ := addGlobals_eq_ok hadd
    exact of_context rfl rfl fun x hx => (hglobals x).mpr (.inl hx)
  | remark | caught =>
    obtain ⟨_, hstep, -⟩ := map_eq_ok_iff.mp h
    cases hstep
    exact of_context rfl rfl fun _ => id

theorem of_run (h : u.run templates cfg s = .ok v s') : Effect u s s' := by
  induction u using Task.induction cfg generalizing s v s' with
  | act => exact act h
  | node u hu ih =>
    obtain ⟨_, t, hvs, rfl⟩ := Task.runs_parts hu h
    have houter : t.context.outer = (u.start s).context.outer :=
      hvs.relate (fun s s' => s'.context.outer = s.context.outer) (fun _ => rfl)
        (fun h h' => h'.trans h) fun w hw _ _ _ h => (ih w hw h).outer
    have hsnippets : t.snippets.isSome = (u.start s).snippets.isSome :=
      hvs.relate (fun s s' => s'.snippets.isSome = s.snippets.isSome) (fun _ => rfl)
        (fun h h' => h'.trans h) fun w hw _ _ _ h => (ih w hw h).snippets
    have hglobals : (u.start s).globals ⊆ t.globals :=
      hvs.relate (fun s s' => s.globals ⊆ s'.globals) (fun _ _ => id)
        List.Subset.trans fun w hw _ _ _ h => (ih w hw h).globals
    cases hframed : u.isFramed with
    | true =>
      -- the frames around the task are those of its parts, without the innermost one
      simp only [Task.start, Task.finish, hframed, if_true] at houter hsnippets hglobals ⊢
      refine of_context ?_ hsnippets hglobals
      show t.context.pop = s.context
      simp [Context.pop, houter, Session.entered, Context.push]
    | false =>
      simp only [Task.start, Task.finish, hframed] at houter hsnippets hglobals hvs ⊢
      refine ⟨houter, ?_, ?_, hsnippets, hglobals, fun _ => ?_, fun _ => ?_, by simp [hframed]⟩
      · exact hvs.relate (fun s s' => s.lastNumber ≤ s'.lastNumber) (fun _ => Int.le_refl _)
          Int.le_trans fun w hw _ _ _ h => (ih w hw h).number
      · exact hvs.relate (fun s s' => s.Numbered → s'.Numbered) (fun _ => id)
          (fun h h' => h' ∘ h) fun w hw _ _ _ h => (ih w hw h).numbered
      · exact hvs.relate (fun s s' => s'.context.vars = s.context.vars) (fun _ => rfl)
          (fun h h' => h'.trans h) fun w hw _ _ _ h =>
            (ih w hw h).vars (not_scope_of_not_framed hframed hw).1
      · exact hvs.relate (fun s s' => s'.context.exception? = s.context.exception?) (fun _ => rfl)
          (fun h h' => h'.trans h) fun w hw _ _ _ h =>
            (ih w hw h).exception (not_scope_of_not_framed hframed hw).2

end Effect

theorem RunsTo.globals {ts : List Task} {s s' : Session} {vs : List Value}
    (h : RunsTo templates cfg ts s vs s') : s.globals ⊆ s'.globals :=
  h.relate (fun s s' => s.globals ⊆ s'.globals) (fun _ _ => id) List.Subset.trans
    fun _ _ _ _ _ hrun => (Effect.of_run hrun).globals

theorem Trail.run {ts : List Task} {s s' : Session} {vs : List Value} {v : Visit} {rest : List Visit}
    (h : Trail templates cfg ts s (v :: rest)) (hrun : RunsTo templates cfg ts s vs s') :
    ∃ val t, v.task.run templates cfg v.session = .ok val t ∧ t.globals ⊆ s'.globals := by
  induction h using Trail.along with
  | part _ hv =>
    obtain ⟨val, t, _, hval, hws⟩ := hv.run hrun
    exact ⟨val, t, hval, hws.globals⟩
  | deeper _ _ _ _ hv ih =>
    obtain ⟨val, _, hval, ht⟩ := ih
    obtain ⟨_, _, hvs, rfl⟩ := Task.runs_parts (ne_act hv) hval
    obtain ⟨val, t', _, hval', hws⟩ := hv.run hvs
    refine ⟨val, t', hval', List.Subset.trans hws.globals ?_⟩
    rwa [Task.globals_finish] at ht

end Transpiler.Compile
