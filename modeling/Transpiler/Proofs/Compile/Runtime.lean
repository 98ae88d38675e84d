import Transpiler.Proofs.Compile.Scopes
import Transpiler.Proofs.Compile.Trees

/-!
# References to run-time functions

A run-time function is noted in the session when a task uses it, and the tree of the task around refers to
it. So the functions that are noted after a run are those that the trees of the run refer to
(`exists_uses_iff`).
-/

namespace Transpiler.Compile

open Script (Js)
open Source (Expr Stmt)

variable {templates : Templates} {cfg : Config} {site : Site} {s s' t : Session} {u : Task} {v : Value} {f : Snippet}
  {ts : List Task} {vs : List Value} {w : Visit} {rest : List Visit} {outer : Site} {x : String} {j : Js}
  {body : List Stmt}

/-! ### What is noted -/

def Session.Uses (s : Session) (f : Snippet) : Prop :=
  f ∈ s.snippets.getD []

@[simp]
theorem Session.uses_start (u : Task) : (u.start s).Uses f ↔ s.Uses f := by
  unfold Task.start
  split <;> rfl

@[simp]
theorem Session.uses_finish (u : Task) : (u.finish s).Uses f ↔ s.Uses f := by
  unfold Task.finish
  split <;> rfl

theorem uses_useSnippet {g : Snippet} (h : useSnippet g s = .ok () s') : s'.Uses f ↔ s.Uses f ∨ g = f := by
  obtain ⟨_, snippets, _, _⟩ := s
  cases snippets with
  | none => cases h
  | some fs =>
    cases h
    simp only [Session.Uses, Option.getD_some]
    split
    next hg =>
      have hmem : g ∈ fs := by simpa using hg
      exact ⟨.inl, fun h => h.elim id fun h => h ▸ hmem⟩
    · simp [eq_comm]

theorem uses_act {a : Action} (h : a.run s = .ok v s') : s'.Uses f ↔ s.Uses f ∨ a = .use f := by
  cases a with
  | use =>
    obtain ⟨_, huse, -⟩ := map_eq_ok_iff.mp h
    rw [uses_useSnippet huse]
    simp
  | draw =>
    obtain ⟨name, hname, -⟩ := map_eq_ok_iff.mp h
    obtain ⟨-, rfl⟩ := ends_newName s name s' hname
    simp [Session.Uses, Session.withEntry]
  | imports | remark | scope | catching | caught =>
    obtain ⟨_, hstep, -⟩ := map_eq_ok_iff.mp h
    cases hstep
    simp [Session.Uses]

theorem Session.Uses.run (hs : s.Uses f) (h : u.run templates cfg s = .ok v s') : s'.Uses f := by
  induction u using Task.induction cfg generalizing s v s' with
  | act => exact (uses_act h).mpr (.inl hs)
  | node _ hu ih =>
    obtain ⟨_, _, hvs, rfl⟩ := Task.runs_parts hu h
    rw [Session.uses_finish]
    refine hvs.relate (fun s s' => s.Uses f → s'.Uses f) (fun _ => id) (fun h h' hs => h' (h hs))
      (fun w hw _ _ _ hrun hs => ih w hw hs hrun) ?_
    rwa [Session.uses_start]

section

variable (h : RunsTo templates cfg ts s vs s')

include h

theorem Session.Uses.runsTo (hs : s.Uses f) : s'.Uses f :=
  h.relate (fun s s' => s.Uses f → s'.Uses f) (fun _ => id) (fun h h' hs => h' (h hs))
    (fun _ _ _ _ _ hrun hs => hs.run hrun) hs

theorem RunsTo.uses (hf : .act (.use f) ∈ ts) : s'.Uses f := by
  obtain ⟨w, hw, htask⟩ := h.exists_visits hf
  obtain ⟨val, t, _, hval, hws⟩ := hw.run h
  have hact : (Action.use f).run w.session = .ok val t := by simpa only [htask, Task.run] using hval
  exact Session.Uses.runsTo hws ((uses_act hact).mpr (.inr rfl))

theorem RunsTo.exists_act {P : Session → Prop} (hstart : ∀ (u : Task) s, P (u.start s) → P s)
    (hfinish : ∀ (u : Task) s, P (u.finish s) → P s) (hs' : P s')
    (hs : ¬ P s) : ∃ w rest a val t, Trail templates cfg ts s (w :: rest) ∧ w.task = .act a ∧
      a.run w.session = .ok val t ∧ ¬ P w.session ∧ P t := by
  have htask {v : Visit} {above : List Visit} {val : Value} {t : Session}
      (htrail : Trail templates cfg ts s (v :: above)) (hrun : v.task.run templates cfg v.session = .ok val t)
      (hnot : ¬ P v.session) (ht : P t) : ∃ w rest a val t, Trail templates cfg ts s (w :: rest) ∧
        w.task = .act a ∧ a.run w.session = .ok val t ∧ ¬ P w.session ∧ P t := by
    generalize hu : v.task = u at hrun
    induction u using Task.induction cfg generalizing v above val t with
    | act a => exact ⟨v, above, a, val, t, htrail, hu, hrun, hnot, ht⟩
    | node _ hact ih =>
      subst hu
      obtain ⟨_, _, hus, rfl⟩ := Task.runs_parts hact hrun
      rcases hus.exists_visit (hfinish _ _ ht) with hr | ⟨w, _, _, hw, hwrun, hwnot, hwt⟩
      · exact (hnot (hstart _ _ hr)).elim
      · exact ih w.task hw.mem (htrail.deeper hw) hwnot hwt rfl hwrun
  rcases h.exists_visit hs' with hholds | ⟨_, _, _, hv, hrun, hnot, ht⟩
  · exact (hs hholds).elim
  · exact htask (.part hv) hrun hnot ht

/-! ### What is referred to -/

theorem RunsTo.exists_material {m : Material}
    (hm : m ∈ materials cfg ts vs) : ∃ w val t ws, Visits templates cfg ts s w ∧
      w.task.run templates cfg w.session = .ok val t ∧
      RunsTo templates cfg (ts.drop (w.index + 1)) t ws s' ∧ m ∈ w.task.material cfg val := by
  induction ts generalizing s vs with
  | nil =>
    obtain ⟨rfl, -⟩ := runsTo_nil.mp h
    simp at hm
  | cons u _ ih =>
    obtain ⟨v, t, ws, hv, hws, rfl⟩ := runsTo_cons.mp h
    rw [materials_cons, List.mem_append] at hm
    rcases hm with hm | hm
    · exact ⟨⟨0, u, s⟩, v, t, ws, ⟨rfl, [], by simp⟩, hv, hws, hm⟩
    · obtain ⟨w, val, t', ws', hw, hval, hrest, hm⟩ := ih hws hm
      obtain ⟨before, hbefore⟩ := hw.runs
      exact ⟨⟨w.index + 1, w.task, w.session⟩, val, t', ws',
        ⟨hw.task, v :: before, runsTo_cons.mpr ⟨v, t, before, hv, hbefore, rfl⟩⟩, hval, hrest, hm⟩

end

section

variable {header : ClassHeader}

theorem decorators_not_mem_exprTasks (es : List Expr) : Task.decorators site header ∉ exprTasks outer es := by
  simp [exprTasks]

theorem decorators_not_mem_stmtTasks (body : List Stmt) : Task.decorators site header ∉ stmtTasks outer body := by
  simp [stmtTasks]

theorem use_mem_stmtParts {stmt : Stmt} (h : .decorators site header ∈ stmtParts outer stmt) :
    .act (.use .setClassDecorators) ∈ stmtParts outer stmt := by
  cases stmtPart_of_mem h with
  | @decorators _ _ hs hclass _ =>
    rw [hs, stmtParts, if_neg (by simp [hclass])]
    simp_all [classTasks, classSnippets]

theorem use_mem_parts (h : .decorators site header ∈ u.parts cfg) : .act (.use .setClassDecorators) ∈ u.parts cfg := by
  cases u with
  | act => simp [Task.parts] at h
  | expr => cases exprPart_of_mem h
  | decorators => exact (decorators_not_mem_exprTasks _ h).elim
  | stmt => exact use_mem_stmtParts h

end

/-- The run-time functions that the tree of a task refers to are noted after it. The one that applies the
decorators of a class is noted with the class. -/
theorem Task.uses_of_refs (htemplates : TemplatesFit templates) (h : u.run templates cfg s = .ok v s')
    (hx : x ∈ refsOf (u.material cfg v)) : ∃ f : Snippet, f.name = x ∧
      (s'.Uses f ∨ f = .setClassDecorators ∧ ∃ site header, u = .decorators site header) := by
  induction u using Task.induction cfg generalizing s v s' with
  | act a =>
    obtain ⟨f, rfl, hf⟩ : ∃ f : Snippet, a = .use f ∧ f.name = x := by
      unfold material at hx
      split at hx <;> simp_all
    have huse : (Action.use f).run s = .ok v s' := h
    exact ⟨f, hf, .inl ((uses_act huse).mpr (.inr rfl))⟩
  | node u hact ih =>
    cases hformatted : u.isFormatted with
    | true =>
      obtain ⟨_, _, _, rfl, -⟩ := exists_quotes hformatted h
      simp [material_of_isFormatted hformatted] at hx
    | false =>
      obtain ⟨_, _, hvs, rfl, hrefs⟩ := exists_mem_refs_iff htemplates hact hformatted h
      rcases (hrefs x).mp hx with hx | hx
      · cases u with
        | decorators site header =>
          refine ⟨.setClassDecorators, ?_, .inr ⟨rfl, site, header, rfl⟩⟩
          simp_all [extra]
        | _ => simp [extra] at hx
      · obtain ⟨m, hm, hx⟩ := List.mem_flatMap.mp hx
        obtain ⟨w, _, _, _, hw, hval, hws, hm⟩ := hvs.exists_material hm
        obtain ⟨f, hf, huses⟩ := ih w.task hw.mem hval (List.mem_flatMap.mpr ⟨m, hm, hx⟩)
        refine ⟨f, hf, .inl ?_⟩
        rw [Session.uses_finish]
        rcases huses with huses | ⟨rfl, _, _, hdecorators⟩
        · exact huses.runsTo hws
        · exact hvs.uses (use_mem_parts (hdecorators ▸ hw.mem))

theorem Task.exists_refs_of_use (htemplates : TemplatesFit templates) (hremap : cfg.remap = none)
    (hf : .act (.use f) ∈ u.parts cfg) (h : u.run templates cfg s = .ok v s') :
    ∃ j, v = .tree j ∧ f.name ∈ j.refs := by
  have hact (a : Action) : u ≠ .act a := by
    rintro rfl
    simp [parts] at hf
  have hformatted : u.isFormatted = false := by
    unfold isFormatted
    split
    · exact (act_not_mem_exprTasks _ _ hf).elim
    · rfl
  obtain ⟨_, _, hvs, -, hrefs⟩ := exists_mem_refs_iff htemplates hact hformatted h
  obtain ⟨_, hw, htask⟩ := hvs.exists_visits hf
  obtain ⟨_, _, _, hmaterial⟩ := hw.material hvs
  have hname : f.name ∈ refsOf (u.material cfg v) := by
    refine (hrefs f.name).mpr (.inr (List.mem_flatMap.mpr ⟨.ref f.name, hmaterial ?_, by simp⟩))
    simp [htask, material, Snippet.material, hremap]
  cases u with
  | act a => exact (hact a rfl).elim
  | expr | stmt | decorators =>
    obtain ⟨j, -, rfl⟩ := map_eq_ok_iff.mp h
    exact ⟨j, rfl, by simpa [material] using hname⟩

/-! ### Along a trail -/

theorem Trail.uses (h : Trail templates cfg ts s (w :: rest)) (hrun : RunsTo templates cfg ts s vs s')
    (hval : w.task.run templates cfg w.session = .ok v t) (ht : t.Uses f) : s'.Uses f := by
  have hunique {val : Value} {r : Session} (hr : w.task.run templates cfg w.session = .ok val r) : r = t := by
    cases hr.symm.trans hval
    rfl
  induction h using Trail.along generalizing v t with
  | part _ hw =>
    obtain ⟨_, _, _, hr, hws⟩ := hw.run hrun
    exact Session.Uses.runsTo hws (hunique hr ▸ ht)
  | deeper _ _ _ hparent hw ih =>
    obtain ⟨_, _, hr, -⟩ := hparent.run hrun
    obtain ⟨_, q, hus, rfl⟩ := Task.runs_parts (ne_act hw) hr
    obtain ⟨_, _, _, hr', hws⟩ := hw.run hus
    have hq : q.Uses f := Session.Uses.runsTo hws (hunique hr' ▸ ht)
    refine ih hr ((Session.uses_finish _).mpr hq) fun hr' => ?_
    cases hr'.symm.trans hr
    rfl

theorem Task.material_tree (h : u.run templates cfg s = .ok (.tree j) s') :
    refsOf (u.material cfg (.tree j)) = j.refs ∧ nodesOf (u.material cfg (.tree j)) = j.nodes := by
  cases u with
  | act a => cases a <;> obtain ⟨_, -, heq⟩ := map_eq_ok_iff.mp h <;> cases heq
  | _ => simp [Task.material]

theorem exists_uses_iff (htemplates : TemplatesFit templates) (hremap : cfg.remap = none)
    (h : RunsTo templates cfg (stmtTasks site body) s vs s') (hs : ∀ f, ¬ s.Uses f) (x : String) :
    (∃ f : Snippet, s'.Uses f ∧ f.name = x) ↔ ∃ w rest j t, Trail templates cfg (stmtTasks site body) s (w :: rest) ∧
        w.task.run templates cfg w.session = .ok (.tree j) t ∧ x ∈ j.refs := by
  constructor
  · rintro ⟨f, hf, rfl⟩
    obtain ⟨_, _, _, _, t, htrail, hw, ha, hnot, ht⟩ := h.exists_act (P := (·.Uses f))
      (fun u s => (Session.uses_start u).mp) (fun u s => (Session.uses_finish u).mp) hf (hs f)
    obtain rfl := ((uses_act ha).mp ht).resolve_left hnot
    cases htrail with
    | part hvisit => exact (act_not_mem_stmtTasks _ _ (hw ▸ hvisit.mem)).elim
    | deeper hparent hvisit =>
      obtain ⟨_, t, hval, -⟩ := hparent.run h
      obtain ⟨j, rfl, hj⟩ := Task.exists_refs_of_use htemplates hremap (hw ▸ hvisit.mem) hval
      exact ⟨_, _, j, t, hparent, hval, hj⟩
  · rintro ⟨w, _, j, _, htrail, hval, _⟩
    have hx : x ∈ refsOf (w.task.material cfg (.tree j)) := by rwa [(Task.material_tree hval).1]
    obtain ⟨f, hf, ht | ⟨rfl, _, _, hw⟩⟩ := Task.uses_of_refs htemplates hval hx
    · exact ⟨f, htrail.uses h hval ht, hf⟩
    · -- the class around has noted the function
      cases htrail with
      | part hvisit => exact (decorators_not_mem_stmtTasks _ (hw ▸ hvisit.mem)).elim
      | deeper hparent hvisit =>
        obtain ⟨_, _, hr, -⟩ := hparent.run h
        obtain ⟨_, q, hus, rfl⟩ := Task.runs_parts (Trail.ne_act hvisit) hr
        have hq : q.Uses .setClassDecorators := hus.uses (use_mem_parts (hw ▸ hvisit.mem))
        exact ⟨_, hparent.uses h hr ((Session.uses_finish _).mpr hq), hf⟩

theorem Trail.refs_subset (htemplates : TemplatesFit templates) (h : Trail templates cfg ts s (w :: rest))
    (hrun : RunsTo templates cfg ts s vs s') (hplain : ∀ r ∈ rest, r.task.isFormatted = false) :
    ∃ val t, w.task.run templates cfg w.session = .ok val t ∧
      refsOf (w.task.material cfg val) ⊆ refsOf (materials cfg ts vs) := by
  induction h using Trail.along with
  | part _ hw =>
    obtain ⟨val, t, hval, hmaterial⟩ := hw.material hrun
    exact ⟨val, t, hval, flatMap_subset hmaterial _⟩
  | deeper _ _ _ _ hw ih =>
    obtain ⟨hr, hothers⟩ := List.forall_mem_cons.mp hplain
    obtain ⟨_, _, hval, hrefs⟩ := ih hothers
    obtain ⟨_, _, hus, -, hparts⟩ := Task.exists_mem_refs_iff htemplates (ne_act hw) hr hval
    obtain ⟨val', t', hval', hmaterial⟩ := hw.material hus
    exact ⟨val', t', hval', fun x hx => hrefs ((hparts x).mpr (.inr (flatMap_subset hmaterial _ hx)))⟩

theorem uses_of_mem_refs (htemplates : TemplatesFit templates)
    (h : compileBody templates cfg (site.place cfg) body s = .ok j s') (hx : x ∈ j.refs) :
    ∃ f : Snippet, s'.Uses f ∧ f.name = x := by
  obtain ⟨_, hrun, -, hrefs⟩ := exists_runsTo_compileBody h
  rw [hrefs, ← refsOf_stmts, ← hrun.materials_stmts] at hx
  obtain ⟨m, hm, hx⟩ := List.mem_flatMap.mp hx
  obtain ⟨_, _, _, _, hw, hval, hws, hm⟩ := hrun.exists_material hm
  obtain ⟨f, hf, ht | ⟨-, _, _, hdecorators⟩⟩ :=
    Task.uses_of_refs htemplates hval (List.mem_flatMap.mpr ⟨m, hm, hx⟩)
  · exact ⟨f, ht.runsTo hws, hf⟩
  · exact (decorators_not_mem_stmtTasks _ (hdecorators ▸ hw.mem)).elim

end Transpiler.Compile
