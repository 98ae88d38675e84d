import Mathlib.Data.List.Induction
import Transpiler.Proofs.Compile.Scopes

/-!
# Generated names do not clash

A loop or a comprehension generates its names before its parts are compiled, and the number of the last
name only grows until the statement is done. So the names of a construct differ from each other, from
those of the constructs around it, and from those of the others of its statement
(`hygienic_of_compileModule`).
-/

namespace Transpiler.Compile

open Source (Expr Stmt)

variable {templates : Templates} {cfg : Config} {site : Site} {vs : List Value} {c : Visit} {inner : List Visit}

/-! ### Names of a construct -/

theorem draws_first (cfg : Config) (u : Task) :
    ∃ k rest, u.parts cfg = List.replicate k (.act .draw) ++ rest ∧ Task.act .draw ∉ rest := by
  have hexprs (site : Site) (es : List Expr) : Task.act .draw ∉ exprTasks site es :=
    act_not_mem_exprTasks _ es
  have hstmts (site : Site) (body : List Stmt) : Task.act .draw ∉ stmtTasks site body :=
    act_not_mem_stmtTasks _ body
  by_cases hdraw : .act .draw ∈ u.parts cfg
  · have hu := isConstruct_of_draw_mem hdraw
    unfold Task.isConstruct at hu
    split at hu
    next target iter body orelse =>
      simp only [Task.parts, stmtParts]
      cases loopForm? target iter (!orelse.isEmpty) with
      | none => exact ⟨0, _, rfl, by simp [hstmts]⟩
      | some form =>
        cases form with
        | range | keys => exact ⟨1, _, rfl, by simp [hstmts, hexprs]⟩
        | elements => exact ⟨0, _, rfl, by simp [hstmts]⟩
        | array => exact ⟨3, _, rfl, by simp [hstmts]⟩
    · simp only [Task.parts, exprParts]
      unfold comprehensionTasks
      split
      · exact ⟨4, _, rfl, hexprs _ _⟩
      · exact ⟨0, [], rfl, by simp⟩
    · cases hu
  · exact ⟨0, _, rfl, hdraw⟩

structure Draws (templates : Templates) (cfg : Config) (v w : Visit) (x : String) : Prop where
  visits : Visits templates cfg (v.task.parts cfg) (v.task.start v.session) w
  task : w.task = .act .draw
  name : ∃ t, newName w.session = .ok x t

def Generates (templates : Templates) (cfg : Config) (v : Visit) (x : String) : Prop :=
  ∃ w, Draws templates cfg v w x

variable {ts : List Task} {s s' : Session} {u v w : Visit} {rest above : List Visit} {x y : String}

theorem Draws.isConstruct (h : Draws templates cfg v w x) : v.task.isConstruct = true := by
  have hmem := h.visits.mem
  rw [h.task] at hmem
  exact isConstruct_of_draw_mem hmem

theorem Draws.generatedName (h : Draws templates cfg v w x) :
    Context.generatedName? (w.session.lastNumber + 1) = some x := by
  obtain ⟨_, ht⟩ := h.name
  exact (ends_newName _ _ _ ht).1

theorem Draws.run (h : Draws templates cfg v w x) : ∃ val t, w.task.run templates cfg w.session = .ok val t ∧
    t.lastNumber = w.session.lastNumber + 1 := by
  obtain ⟨t, ht⟩ := h.name
  refine ⟨.text x, t, ?_, ?_⟩
  · rw [h.task]
    exact map_eq_ok_iff.mpr ⟨x, ht, rfl⟩
  · rw [(ends_newName _ _ _ ht).2, Session.lastNumber_withNumber]

/-! ### Numbers along a trail -/

theorem lastNumber_start (u : Task) (s : Session) : (u.start s).lastNumber = s.lastNumber := by
  unfold Task.start
  split
  · exact s.lastNumber_entered
  · rfl

theorem RunsTo.number (h : RunsTo templates cfg ts s vs s') : s.lastNumber ≤ s'.lastNumber :=
  h.relate (fun s s' => s.lastNumber ≤ s'.lastNumber) (fun _ => Int.le_refl _) Int.le_trans
    fun _ _ _ _ _ hrun => (Effect.of_run hrun).number

theorem Visits.number (h : Visits templates cfg ts s v) : s.lastNumber ≤ v.session.lastNumber := by
  obtain ⟨_, hvs⟩ := h.runs
  exact hvs.number

theorem Visits.numbered (h : Visits templates cfg ts s v) (hs : s.Numbered) : v.session.Numbered := by
  obtain ⟨_, hvs⟩ := h.runs
  exact hvs.relate (fun s s' => s.Numbered → s'.Numbered) (fun _ => id) (fun h h' => h' ∘ h)
    (fun _ _ _ _ _ hrun => (Effect.of_run hrun).numbered) hs

theorem Visits.number_after (hv : Visits templates cfg ts s v) (hw : Visits templates cfg ts s w)
    (hlt : v.index < w.index) : ∃ val t, v.task.run templates cfg v.session = .ok val t ∧
      t.lastNumber ≤ w.session.lastNumber := by
  obtain ⟨_, hvs⟩ := hw.runs
  have hbefore : Visits templates cfg (ts.take w.index) s v := by
    refine ⟨?_, ?_⟩
    · rw [List.getElem?_take_of_lt hlt]
      exact hv.task
    · rw [List.take_take, Nat.min_eq_left (Nat.le_of_lt hlt)]
      exact hv.runs
  obtain ⟨val, t, _, hrun, hws⟩ := hbefore.run hvs
  exact ⟨val, t, hrun, hws.number⟩

theorem Draws.number_after (h : Draws templates cfg v w x)
    (hu : Visits templates cfg (v.task.parts cfg) (v.task.start v.session) u) (hlt : w.index < u.index) :
    w.session.lastNumber + 1 ≤ u.session.lastNumber := by
  obtain ⟨val, t, hrun, _⟩ := h.visits.number_after hu hlt
  obtain ⟨val', t', hrun', _⟩ := h.run
  obtain ⟨-, rfl⟩ : val' = val ∧ t' = t := by simpa [hrun] using hrun'.symm
  omega

theorem Draws.number_before (h : Draws templates cfg v w x) : v.session.lastNumber ≤ w.session.lastNumber := by
  rw [← lastNumber_start v.task]
  exact h.visits.number

theorem Trail.number (h : Trail templates cfg ts s (v :: rest)) :
    s.lastNumber ≤ v.session.lastNumber ∧ ∀ w ∈ rest, w.session.lastNumber ≤ v.session.lastNumber := by
  induction h using Trail.along with
  | part _ hv =>
    exact ⟨hv.number, by simp⟩
  | deeper _ _ _ _ hv ih =>
    obtain ⟨hstart, hrest⟩ := ih
    have hstep := hv.number
    rw [lastNumber_start] at hstep
    refine ⟨Int.le_trans hstart hstep, fun u hu => ?_⟩
    rcases List.mem_cons.mp hu with rfl | hu
    · exact hstep
    · exact Int.le_trans (hrest u hu) hstep

theorem Trail.numbered (h : Trail templates cfg ts s (v :: rest)) (hs : s.Numbered) : v.session.Numbered := by
  induction h using Trail.along with
  | part _ hv =>
    exact hv.numbered hs
  | deeper _ _ _ _ hv ih =>
    refine hv.numbered ?_
    unfold Task.start
    split <;> exact ih

theorem Draws.index_lt (h : Draws templates cfg v w x)
    (hu : Visits templates cfg (v.task.parts cfg) (v.task.start v.session) u)
    (hact : ∀ a, u.task ≠ .act a) : w.index < u.index := by
  obtain ⟨k, _, hparts, hothers⟩ := draws_first cfg v.task
  have hw := h.visits.task
  have hu := hu.task
  rw [h.task, hparts] at hw
  rw [hparts] at hu
  have hlt : w.index < k := by
    refine Nat.lt_of_not_le fun hle => hothers ?_
    rw [List.getElem?_append_right (by simpa using hle)] at hw
    exact List.mem_of_getElem? hw
  have hle : k ≤ u.index := by
    refine Nat.le_of_not_lt fun hlt => hact .draw ?_
    rw [List.getElem?_append_left (by simpa using hlt), List.getElem?_replicate_of_lt hlt] at hu
    simpa using hu.symm
  omega

theorem Trail.number_below (h : Trail templates cfg ts s (v :: rest)) (hact : ∀ a, v.task ≠ .act a)
    (hu : u ∈ rest) (hw : Draws templates cfg u w x) :
    w.session.lastNumber + 1 ≤ v.session.lastNumber := by
  induction h using Trail.along with
  | part =>
    simp at hu
  | deeper _ _ _ _ hv ih =>
    have hstep := hv.number
    rw [lastNumber_start] at hstep
    rcases List.mem_cons.mp hu with rfl | hu
    · exact hw.number_after hv (hw.index_lt hv hact)
    · exact Int.le_trans (ih (ne_act hv) hu) hstep

theorem Draws.ne {v v' w w' : Visit} (h : Draws templates cfg v w x) (h' : Draws templates cfg v' w' y)
    (hw : -1 ≤ w.session.lastNumber) (hlt : w.session.lastNumber + 1 ≤ w'.session.lastNumber) : x ≠ y :=
  Context.ne_of_generatedName? (by omega) (by omega) (by omega) h.generatedName h'.generatedName

/-! ### Constructs of the same statement -/

def Task.isDecorators : Task → Bool
  | decorators .. => true
  | _ => false

theorem isDecorators_exprTasks {v : Task} {es : List Expr} (hv : v ∈ exprTasks site es) : v.isDecorators = false := by
  obtain ⟨_, -, rfl⟩ := mem_exprTasks.mp hv
  rfl

theorem isDecorators_stmtTasks {v : Task} {body : List Stmt} (hv : v ∈ stmtTasks site body) :
    v.isDecorators = false := by
  obtain ⟨_, -, rfl⟩ := mem_stmtTasks.mp hv
  rfl

theorem classTasks_eq (site : Site) (h : ClassHeader) (body : List Stmt) : ∃ before last,
    classTasks site h body = before ++ last ∧ (∀ v ∈ before, v.isDecorators = false) ∧ last.length ≤ 1 := by
  refine ⟨_, _, rfl, fun v hv => ?_, ?_⟩
  · simp only [List.mem_append, List.mem_map] at hv
    rcases hv with (((⟨f, -, rfl⟩ | hv) | hv) | hv) | hv
    · rfl
    · exact isDecorators_exprTasks hv
    · exact isDecorators_stmtTasks hv
    · exact isDecorators_exprTasks hv
    · obtain ⟨_, -, hv⟩ := List.mem_flatMap.mp hv
      exact isDecorators_exprTasks hv
  · split <;> simp

theorem isDecorators_stmtParts {v : Task} {s : Stmt} (hv : v ∈ stmtParts site s) (hdecorators : v.isDecorators = true) :
    ∃ h body, stmtParts site s = classTasks site h body := by
  cases stmtPart_of_mem hv with
  | @decorators h body hs hclass =>
    rw [hs, stmtParts]
    exact ⟨h, body, if_neg (by simp [hclass])⟩
  | _ => cases hdecorators

theorem decorators_last {u d : Task} {i : Nat} (hi : (u.parts cfg)[i]? = some d)
    (hd : d.isDecorators = true) : (u.parts cfg).length ≤ i + 1 := by
  have hmem := List.mem_of_getElem? hi
  cases u with
  | act => simp [Task.parts] at hi
  | expr =>
    cases exprPart_of_mem hmem <;> cases hd
  | decorators => simp [isDecorators_exprTasks hmem] at hd
  | stmt site =>
    obtain ⟨h, body, hparts⟩ := isDecorators_stmtParts hmem hd
    obtain ⟨before, _, hclass, hbefore, _⟩ := classTasks_eq site h body
    rw [Task.parts, hparts, hclass] at hi ⊢
    rw [List.length_append]
    by_cases hlt : i < before.length
    · rw [List.getElem?_append_left hlt] at hi
      simp [hbefore d (List.mem_of_getElem? hi)] at hd
    · omega

def Task.isStatement : Task → Bool
  | stmt _ (.bare _) => false
  | stmt .. => true
  | _ => false

theorem isFramed_of_not_statement {u : Task} (h : u.isStatement = false) (hd : u.isDecorators = false) :
    u.isFramed = false := by
  cases u with
  | act => rfl
  | expr => rfl
  | decorators => cases hd
  | stmt site s => cases s <;> first | rfl | cases h

theorem isDecorators_of_not_statement {u v : Task} (h : u.isStatement = false) (hv : v ∈ u.parts cfg) :
    v.isDecorators = false := by
  cases u with
  | act => simp [Task.parts] at hv
  | expr => cases exprPart_of_mem hv <;> rfl
  | decorators => exact isDecorators_exprTasks hv
  | stmt _ s =>
    cases s with
    | bare => exact isDecorators_exprTasks hv
    | _ => cases h

def statementOf (trail : List Visit) : List Visit :=
  trail.dropWhile fun v => !v.task.isStatement

theorem suffix_or_part {α : Type} (p q : List α) : p <:+ q ∨ q <:+ p ∨
    ∃ a c b d r, p = a ++ c :: r ∧ q = b ++ d :: r ∧ c ≠ d := by
  induction p using List.reverseRecOn generalizing q with
  | nil => exact .inl (List.nil_suffix)
  | append_singleton p c ih =>
    induction q using List.reverseRecOn with
    | nil => exact .inr (.inl List.nil_suffix)
    | append_singleton q d =>
      by_cases hcd : c = d
      · subst hcd
        rcases ih q with ⟨l, rfl⟩ | ⟨l, rfl⟩ | ⟨a, c', b, d', r, rfl, rfl, hne⟩
        · exact .inl ⟨l, by simp⟩
        · exact .inr (.inl ⟨l, by simp⟩)
        · exact .inr (.inr ⟨a, c', b, d', r ++ [c], by simp, by simp, hne⟩)
      · exact .inr (.inr ⟨p, c, q, d, [], rfl, rfl, hcd⟩)

theorem mem_of_suffix {α : Type} {a b : α} {p q : List α} (h : a :: p <:+ b :: q) (hne : a :: p ≠ b :: q) : a ∈ q := by
  rcases List.suffix_cons_iff.mp h with heq | h
  · exact absurd heq hne
  · exact h.subset (by simp)

theorem Trail.siblings {d : Visit} (hc : Trail templates cfg ts s (c :: rest))
    (hd : Trail templates cfg ts s (d :: rest)) : ∃ us r, Visits templates cfg us r c ∧
      Visits templates cfg us r d ∧ (us = ts ∨ ∃ w ∈ rest, us = w.task.parts cfg) := by
  cases hc with
  | part hc =>
    cases hd with
    | part hd => exact ⟨ts, s, hc, hd, .inl rfl⟩
  | @deeper _ w _ _ hc =>
    cases hd with
    | deeper _ hd => exact ⟨_, _, hc, hd, .inr ⟨w, by simp, rfl⟩⟩

theorem Visits.number_run {val val' : Value} {t t' : Session}
    (h : Visits templates cfg (w.task.parts cfg) (w.task.start w.session) v)
    (hframed : w.task.isFramed = false) (hw : w.task.run templates cfg w.session = .ok val t)
    (hv : v.task.run templates cfg v.session = .ok val' t') : t'.lastNumber ≤ t.lastNumber := by
  obtain ⟨_, _, hvs, rfl⟩ := Task.runs_parts (Trail.ne_act h) hw
  obtain ⟨val'', t'', _, hv', hws⟩ := h.run hvs
  obtain ⟨-, rfl⟩ : val'' = val' ∧ t'' = t' := by simpa [hv] using hv'.symm
  simpa [Task.finish, hframed] using hws.number

theorem Trail.number_outward (hrun : RunsTo templates cfg ts s vs s')
    (h : Trail templates cfg ts s (above ++ c :: rest))
    (hframed : ∀ w ∈ above ++ [c], w.task.isFramed = false) (hv : (above ++ [c]).head? = some v) :
    ∃ val t val' t', v.task.run templates cfg v.session = .ok val t ∧
      c.task.run templates cfg c.session = .ok val' t' ∧ t.lastNumber ≤ t'.lastNumber := by
  induction above generalizing v with
  | nil =>
    obtain rfl : c = v := by simpa using hv
    obtain ⟨val, t, hval, -⟩ := h.run hrun
    exact ⟨val, t, val, t, hval, hval, Int.le_refl _⟩
  | cons v' above ih =>
    obtain rfl : v' = v := by simpa using hv
    obtain ⟨val, t, hval, -⟩ := h.run hrun
    rw [List.cons_append] at h
    generalize htrail : above ++ c :: rest = around at h
    cases h with
    | part => simp at htrail
    | @deeper _ w _ htail hvisit =>
      have hhead : (above ++ [c]).head? = some w := by
        cases above <;> simp_all
      obtain ⟨_, _, val'', t'', hw, hc, hle⟩ :=
        ih (htrail ▸ htail) (fun u _ => hframed u (by simp_all)) hhead
      refine ⟨val, t, val'', t'', hval, hc, Int.le_trans ?_ hle⟩
      exact hvisit.number_run (hframed w (List.mem_cons_of_mem _ (List.mem_of_head? hhead))) hw hval

theorem Trail.number_part {v v' w : Visit} {d : Visit} (hrun : RunsTo templates cfg ts s vs s')
    (hp : Trail templates cfg ts s (above ++ c :: rest)) (hq : Trail templates cfg ts s (inner ++ d :: rest))
    (hlt : c.index < d.index) (hframed : ∀ w ∈ above ++ [c], w.task.isFramed = false)
    (hv : (above ++ [c]).head? = some v) (hv' : (inner ++ [d]).head? = some v')
    (hw : Draws templates cfg v w x) : w.session.lastNumber + 1 ≤ v'.session.lastNumber := by
  obtain ⟨_, t, val', t', hvrun, hcrun, _⟩ := hp.number_outward hrun hframed hv
  obtain ⟨_, r, hc, hd, -⟩ := hp.of_append.siblings hq.of_append
  -- the name is drawn before the task of its construct is done
  have hdraw : w.session.lastNumber + 1 ≤ t.lastNumber := by
    obtain ⟨_, _, hwrun, hr⟩ := hw.run
    rw [← hr]
    exact hw.visits.number_run (hframed v (List.mem_of_head? hv)) hvrun hwrun
  have hcd : t'.lastNumber ≤ d.session.lastNumber := by
    obtain ⟨val'', t'', hcrun', ht⟩ := hc.number_after hd hlt
    obtain ⟨-, rfl⟩ : val' = val'' ∧ t' = t'' := by simpa [hcrun] using hcrun'
    exact ht
  have hd : d.session.lastNumber ≤ v'.session.lastNumber := by
    cases inner with
    | nil =>
      obtain rfl : d = v' := by simpa using hv'
      exact Int.le_refl _
    | cons u =>
      obtain rfl : u = v' := by simpa using hv'
      exact hq.number.2 d (by simp)
  omega

theorem statementOf_append (above : List Visit) (c : Visit) (rest : List Visit) :
    (∃ inner, statementOf (above ++ c :: rest) = inner ++ c :: rest) ∨
      (∀ w ∈ above ++ [c], w.task.isStatement = false) ∧ (statementOf (above ++ c :: rest)).length ≤ rest.length := by
  induction above with
  | nil =>
    cases hc : c.task.isStatement with
    | true => exact .inl ⟨[], by simp [statementOf, hc]⟩
    | false =>
      refine .inr ⟨by simpa using hc, ?_⟩
      simpa [statementOf, hc] using (List.dropWhile_sublist _).length_le
  | cons w above ih =>
    cases hw : w.task.isStatement with
    | true => exact .inl ⟨w :: above, by simp [statementOf, hw]⟩
    | false =>
      have hdrop : statementOf (w :: above ++ c :: rest) = statementOf (above ++ c :: rest) := by
        simp [statementOf, hw]
      rw [hdrop]
      refine ih.imp_right fun ⟨hall, hlength⟩ => ⟨?_, hlength⟩
      simpa [hw] using hall

theorem not_statement_of_part {d : Visit} (hne : c ≠ d)
    (h : statementOf (above ++ c :: rest) = statementOf (inner ++ d :: rest)) :
    ∀ w ∈ above ++ [c], w.task.isStatement = false := by
  rcases statementOf_append above c rest with ⟨l, hl⟩ | ⟨hall, -⟩
  · rcases statementOf_append inner d rest with ⟨m, hm⟩ | ⟨-, _⟩
    · have heq : l ++ [c] ++ rest = m ++ [d] ++ rest := by simpa using hl.symm.trans (h.trans hm)
      have hlast : [c] = [d] := List.append_inj_right' (List.append_cancel_right heq) rfl
      exact absurd (List.cons.inj hlast).1 hne
    · have := congrArg List.length (hl.symm.trans h)
      simp at this
      omega
  · exact hall

theorem Trail.isDecorators (h : Trail templates cfg ts s (above ++ c :: rest))
    (hstmt : ∀ w ∈ above ++ [c], w.task.isStatement = false) : ∀ w ∈ above, w.task.isDecorators = false := by
  induction above with
  | nil => simp
  | cons _ above ih =>
    rw [List.cons_append] at h
    generalize htrail : above ++ c :: rest = around at h
    cases h with
    | part => simp at htrail
    | @deeper _ u _ htail hvisit =>
      have hu : u ∈ above ++ [c] := by
        cases above <;> simp_all
      refine List.forall_mem_cons.mpr ⟨?_, ih (htrail ▸ htail) fun w hw => hstmt w (.tail _ hw)⟩
      exact isDecorators_of_not_statement (hstmt u (.tail _ hu)) hvisit.mem

theorem Trail.isFramed_of_part {d : Visit} (hts : ∀ u ∈ ts, u.isDecorators = false)
    (hp : Trail templates cfg ts s (above ++ c :: rest)) (hq : Trail templates cfg ts s (inner ++ d :: rest))
    (hlt : c.index < d.index) (hstmt : ∀ w ∈ above ++ [c], w.task.isStatement = false) :
    ∀ w ∈ above ++ [c], w.task.isFramed = false := by
  have hc : c.task.isDecorators = false := by
    obtain ⟨_, _, hc, hd, rfl | ⟨_, -, rfl⟩⟩ := hp.of_append.siblings hq.of_append
    · exact hts _ hc.mem
    · refine Bool.eq_false_iff.mpr fun hdecorators => ?_
      have hlast := decorators_last hc.task hdecorators
      obtain ⟨_, -⟩ := List.getElem?_eq_some_iff.mp hd.task
      omega
  intro w hw
  refine isFramed_of_not_statement (hstmt w hw) ?_
  rcases List.mem_append.mp hw with hw | hw
  · exact hp.isDecorators hstmt w hw
  · rwa [List.mem_singleton.mp hw]

/-- How the names are kept apart that the loops and the comprehensions of a module generate. -/
structure Hygienic (cfg : Config) (site : Site) (body : List Stmt) : Prop where
  /-- Nothing but a loop or a comprehension generates names. -/
  constructs : ∀ v rest x, ModuleTrail cfg site body (v :: rest) → Generates compileTemplate cfg v x →
    v.task.isConstruct = true
  own : ∀ v rest w w' x y, ModuleTrail cfg site body (v :: rest) → Draws compileTemplate cfg v w x →
    Draws compileTemplate cfg v w' y → w.index ≠ w'.index → x ≠ y
  nested : ∀ v rest u x, ModuleTrail cfg site body (v :: rest) → u ∈ rest →
    Generates compileTemplate cfg u x → ¬ Generates compileTemplate cfg v x
  /-- Two constructs that belong to the same statement have no name in common. -/
  apart : ∀ v rest v' rest' x, ModuleTrail cfg site body (v :: rest) →
    ModuleTrail cfg site body (v' :: rest') → v :: rest ≠ v' :: rest' →
    statementOf (v :: rest) = statementOf (v' :: rest') →
    Generates compileTemplate cfg v x → ¬ Generates compileTemplate cfg v' x

section

variable {body : List Stmt} {compiled : Compiled}

theorem Draws.number_module (h : ModuleTrail cfg site body (v :: rest))
    (hw : Draws compileTemplate cfg v w x) : -1 ≤ w.session.lastNumber := by
  have hstart : (Session.ofModule body).lastNumber = -1 := rfl
  have htrail := h.number.1
  have hdraw := hw.number_before
  omega

theorem ModuleTrail.ne_below {w w' : Visit} (h : ModuleTrail cfg site body (v :: rest)) (hu : u ∈ rest)
    (hw : Draws compileTemplate cfg u w x) (hw' : Draws compileTemplate cfg v w' y) : x ≠ y := by
  have hbelow := h.number_below (Trail.ne_act hw'.visits) hu hw
  have hdraw := hw'.number_before
  obtain ⟨_, _, rfl⟩ := List.append_of_mem hu
  rw [← List.cons_append] at h
  have hmodule : -1 ≤ w.session.lastNumber := hw.number_module h.of_append
  exact hw.ne hw' hmodule (by omega)

theorem ModuleTrail.ne_part {rest' around : List Visit} {d v' w' : Visit}
    (hrun : RunsTo compileTemplate cfg (stmtTasks site body) (.ofModule body) vs s')
    (hp : ModuleTrail cfg site body (v :: rest)) (hq : ModuleTrail cfg site body (v' :: rest'))
    (hpe : v :: rest = above ++ c :: around) (hqe : v' :: rest' = inner ++ d :: around)
    (hlt : c.index < d.index) (hstmt : ∀ w ∈ above ++ [c], w.task.isStatement = false)
    (hw : Draws compileTemplate cfg v w x) (hw' : Draws compileTemplate cfg v' w' y) : x ≠ y := by
  have hhead {l l' : List Visit} {a b : Visit} (h : a :: l = l' ++ b :: around) : (l' ++ [b]).head? = some a := by
    cases l' <;> simp_all
  have hmodule := hw.number_module hp
  have hdraw := hw'.number_before
  rw [ModuleTrail, hpe] at hp
  rw [ModuleTrail, hqe] at hq
  have hframed := Trail.isFramed_of_part (fun _ => isDecorators_stmtTasks) hp hq hlt hstmt
  have hpart := Trail.number_part hrun hp hq hlt hframed (hhead hpe) (hhead hqe) hw
  exact hw.ne hw' hmodule (by omega)

theorem hygienic_of_compileModule (h : compileModule cfg (site.place cfg) body = .ok compiled) :
    Hygienic cfg site body := by
  obtain ⟨js, hjs, -⟩ := compileModule_eq_ok h
  have hruns := compileBlock_eq_ok_iff.mp hjs
  constructor
  case constructs =>
    rintro v rest x - ⟨w, hw⟩
    exact hw.isConstruct
  case own =>
    intro v rest w w' x y htrail hw hw' hne
    rcases Nat.lt_or_gt_of_ne hne with hlt | hlt
    · exact hw.ne hw' (hw.number_module htrail) (hw.number_after hw'.visits hlt)
    · exact (hw'.ne hw (hw'.number_module htrail) (hw'.number_after hw.visits hlt)).symm
  case nested =>
    rintro v rest u x htrail hu ⟨w, hw⟩ ⟨w', hw'⟩
    exact htrail.ne_below hu hw hw' rfl
  case apart =>
    rintro v rest v' rest' x hp hq hne hstmt ⟨w, hw⟩ ⟨w', hw'⟩
    -- either one construct is inside the other, or their trails part in the statement
    rcases suffix_or_part (v :: rest) (v' :: rest') with hsuffix | hsuffix | ⟨above, c, inner, d, around, hpe, hqe, hcd⟩
    · exact hq.ne_below (mem_of_suffix hsuffix hne) hw hw' rfl
    · exact hp.ne_below (mem_of_suffix hsuffix hne.symm) hw' hw rfl
    · obtain ⟨us, r, hc, hd, -⟩ := (Trail.of_append (hpe ▸ hp)).siblings (Trail.of_append (hqe ▸ hq))
      rw [hpe, hqe] at hstmt
      rcases Nat.lt_trichotomy c.index d.index with hlt | heq | hlt
      · exact hp.ne_part hruns hq hpe hqe hlt (not_statement_of_part hcd hstmt) hw hw' rfl
      · exact hcd (hc.unique hd heq)
      · exact hq.ne_part hruns hp hqe hpe hlt (not_statement_of_part hcd.symm hstmt.symm) hw' hw rfl

end

/-- **Running out of names.** Wherever a compilation has come to, the next name has a letter as long as not all
letters are used; after that the compilation fails, and never for the reason that there are no more names. -/
theorem newName_of_moduleTrail {body : List Stmt} (h : ModuleTrail cfg site body (v :: rest)) :
    (v.session.lastNumber + 1 < 52 ∧
      ∃ l ∈ Context.letters, ∃ s, newName v.session = .ok ("_pj_" ++ String.singleton l) s) ∨
    (v.session.lastNumber + 1 = 52 ∧ ∃ s, newName v.session = .error .outOfRange s) :=
  Session.Numbered.newName (h.numbered (by rintro _ ⟨⟩))

def comprehensions (count : Nat) : List Stmt :=
  [.expr none (.list none (List.replicate count
    (.listComp none (.name none "x") [.mk (.name none "x") (.name none "xs") []])))]

/-- A statement with 14 comprehensions needs more names than there are. -/
theorem compileModule_comprehensions : (compileModule default .top (comprehensions 13)).isOk = true ∧
    (compileModule default .top (comprehensions 14)).map (fun _ => ()) = .error .outOfRange := by
  decide +kernel

theorem newName_comprehensions : ∃ v, ModuleTrail default .top (comprehensions 14) [v] ∧
    ∃ l ∈ Context.letters, ∃ s, newName v.session = .ok ("_pj_" ++ String.singleton l) s := by
  have htrail : ModuleTrail default .top (comprehensions 14) [⟨0, _, .ofModule (comprehensions 14)⟩] :=
    .part ⟨rfl, [], rfl⟩
  refine ⟨_, htrail, ?_⟩
  rcases newName_of_moduleTrail htrail with ⟨-, h⟩ | ⟨h, -⟩
  · exact h
  · cases h

def nestedConstructs : List Stmt :=
  [.forLoop none false (.name none "x")
    (.listComp none (.listComp none (.name none "z") [.mk (.name none "z") (.name none "y") []])
      [.mk (.name none "y") (.name none "ys") []])
    [.forLoop none false (.name none "i") (.call none (.name none "range") [.name none "x"] [])
      [.pass none] []] []]

theorem hygienic_nestedConstructs :
    ∃ compiled, compileModule default (Site.top.place default) nestedConstructs = .ok compiled ∧
      Hygienic default .top nestedConstructs := by
  obtain ⟨compiled, h⟩ := exists_of_isOk
    (x := compileModule default (Site.top.place default) nestedConstructs) (by decide +kernel)
  exact ⟨compiled, h, hygienic_of_compileModule h⟩

end Transpiler.Compile
