import Transpiler.Proofs.Compile.Tasks
import Transpiler.Proofs.Compile.Written

/-!
# Steps made of tasks

A step does tasks (`Does`) if all that it needs of the session, and all that it changes there, is what
the tasks do in order: its result is computed from theirs. There is one rule for each way to build a
step, so that what a rule of the compiler does can be read off it. A check does no tasks: it succeeds or fails
whatever the session is, and leaves the session as it is.
-/

namespace Transpiler.Compile

open Source (Expr Keyword Ref Stmt)

variable {templates : Templates} {cfg : Config}

/-! ### Tasks in order -/

def RunsTo (templates : Templates) (cfg : Config) (ts : List Task) (s : Session) (vs : List Value)
    (s' : Session) : Prop :=
  ts.mapM (Task.run templates cfg) s = .ok vs s'

section

variable {ts us : List Task} {s s' : Session} {vs : List Value}

theorem pure_eq_ok_iff {α : Type} {a b : α} : (pure a : Run α) s = .ok b s' ↔ b = a ∧ s' = s := by
  constructor
  · rintro ⟨⟩
    exact ⟨rfl, rfl⟩
  · rintro ⟨rfl, rfl⟩
    rfl

theorem ofExcept_eq_ok_iff {α : Type} {x : Except Fault α} {a : α} :
    (ofExcept x : Run α) s = .ok a s' ↔ x = .ok a ∧ s' = s := by
  cases x with
  | error => exact ⟨nofun, fun h => nomatch h.1⟩
  | ok b =>
    show (pure b : Run α) s = .ok a s' ↔ _
    rw [pure_eq_ok_iff, Except.ok.injEq, eq_comm]

theorem map_eq_ok_iff {α β : Type} {x : Run α} {f : α → β} {b : β} :
    (f <$> x) s = .ok b s' ↔ ∃ a, x s = .ok a s' ∧ f a = b := by
  rw [← bind_pure_comp]
  simp only [bind_eq_ok_iff, pure_eq_ok_iff]
  constructor
  · rintro ⟨a, _, hx, rfl, rfl⟩
    exact ⟨a, hx, rfl⟩
  · rintro ⟨a, hx, rfl⟩
    exact ⟨a, s', hx, rfl, rfl⟩

theorem forall₂_of_mapM {α β : Type} {ys : List β} {f : β → Run α} {xs : List α}
    (h : ys.mapM f s = .ok xs s') : List.Forall₂ (fun y x => ∃ t t', f y t = .ok x t') ys xs := by
  induction ys generalizing s xs with
  | nil =>
    obtain ⟨rfl, -⟩ := pure_eq_ok_iff.mp h
    exact .nil
  | cons _ _ ih =>
    simp only [List.mapM_cons, bind_eq_ok_iff, pure_eq_ok_iff] at h
    obtain ⟨_, t, hx, _, _, hxs, rfl, rfl⟩ := h
    exact .cons ⟨s, t, hx⟩ (ih hxs)

@[simp]
theorem runsTo_nil : RunsTo templates cfg [] s vs s' ↔ vs = [] ∧ s' = s := by
  simp only [RunsTo, List.mapM_nil, pure_eq_ok_iff]

theorem runsTo_cons {u : Task} : RunsTo templates cfg (u :: us) s vs s' ↔ ∃ v t ws,
    u.run templates cfg s = .ok v t ∧ RunsTo templates cfg us t ws s' ∧ vs = v :: ws := by
  simp only [RunsTo, List.mapM_cons, bind_eq_ok_iff, pure_eq_ok_iff]
  constructor
  · rintro ⟨v, t, hv, ws, _, hws, rfl, rfl⟩
    exact ⟨v, t, ws, hv, hws, rfl⟩
  · rintro ⟨v, t, ws, hv, hws, rfl⟩
    exact ⟨v, t, hv, ws, s', hws, rfl, rfl⟩

theorem runsTo_append : RunsTo templates cfg (ts ++ us) s vs s' ↔ ∃ vs₁ t vs₂,
    RunsTo templates cfg ts s vs₁ t ∧ RunsTo templates cfg us t vs₂ s' ∧ vs = vs₁ ++ vs₂ := by
  induction ts generalizing s vs with
  | nil => simp
  | cons _ _ ih =>
    simp only [List.cons_append, runsTo_cons, ih]
    constructor
    · rintro ⟨v, t, _, hv, ⟨vs₁, t', vs₂, h₁, h₂, rfl⟩, rfl⟩
      exact ⟨v :: vs₁, t', vs₂, ⟨v, t, vs₁, hv, h₁, rfl⟩, h₂, rfl⟩
    · rintro ⟨_, t', vs₂, ⟨v, t, vs₁, hv, h₁, rfl⟩, h₂, rfl⟩
      exact ⟨v, t, vs₁ ++ vs₂, hv, ⟨vs₁, t', vs₂, h₁, h₂, rfl⟩, rfl⟩

theorem RunsTo.length_eq (h : RunsTo templates cfg ts s vs s') : vs.length = ts.length := by
  induction ts generalizing s vs with
  | nil => simp [(runsTo_nil.mp h).1]
  | cons _ _ ih =>
    obtain ⟨_, _, _, -, hws, rfl⟩ := runsTo_cons.mp h
    simp [ih hws]

end

/-! ### Steps -/

/-- A step succeeds where the tasks do in order, its result is computed from theirs, and the session after
it is the one after the tasks. -/
def Does (templates : Templates) (cfg : Config) {α : Type} (x : Run α) (ts : List Task) : Prop :=
  ∃ g : List Value → Option α, ∀ s a s', x s = .ok a s' ↔ ∃ vs, RunsTo templates cfg ts s vs s' ∧ g vs = some a

namespace Does

variable {α β : Type} {x : Run α} {f : α → Run β} {ts us : List Task}

theorem pure (a : α) : Does templates cfg (pure a : Run α) [] :=
  ⟨fun _ => some a, fun s b _ => by simp [pure_eq_ok_iff, eq_comm, and_comm]⟩

theorem throw (e : Fault) (ts : List Task) : Does templates cfg (MonadExcept.throw e : Run α) ts := by
  refine ⟨fun _ => none, fun s a _ => ⟨?_, ?_⟩⟩
  · rintro ⟨⟩
  · rintro ⟨_, -, ⟨⟩⟩

theorem throwBind (e : Fault) (ts : List Task) : Does templates cfg ((MonadExcept.throw e : Run α) >>= f) ts :=
  throw e ts

theorem bindOf {R : α → Prop} (hx : Does templates cfg x ts) (hR : Yields x R)
    (hf : ∀ a, R a → Does templates cfg (f a) us) : Does templates cfg (x >>= f) (ts ++ us) := by
  classical
  obtain ⟨g, hg⟩ := hx
  choose k hk using hf
  refine ⟨fun vs => (g (vs.take ts.length)).bind fun a =>
    if ha : R a then k a ha (vs.drop ts.length) else none, fun s b s' => ?_⟩
  simp only [bind_eq_ok_iff, runsTo_append, Option.bind_eq_some_iff]
  constructor
  · rintro ⟨a, t, hxa, hfb⟩
    have hRa := hR s a t hxa
    obtain ⟨vs, hvs, _⟩ := (hg s a t).mp hxa
    obtain ⟨ws, hws, _⟩ := (hk a hRa t b s').mp hfb
    refine ⟨_, ⟨vs, t, ws, hvs, hws, rfl⟩, a, ?_, ?_⟩
    · rwa [← hvs.length_eq, List.take_left]
    · rwa [dif_pos hRa, ← hvs.length_eq, List.drop_left]
  · rintro ⟨_, ⟨vs, t, ws, hvs, hws, rfl⟩, a, ha, hb⟩
    rw [← hvs.length_eq, List.take_left] at ha
    have hxa := (hg s a t).mpr ⟨vs, hvs, ha⟩
    have hRa := hR s a t hxa
    rw [dif_pos hRa, ← hvs.length_eq, List.drop_left] at hb
    exact ⟨a, t, hxa, (hk a hRa t b s').mpr ⟨ws, hws, hb⟩⟩

theorem bind (hx : Does templates cfg x ts) (hf : ∀ a, Does templates cfg (f a) us) :
    Does templates cfg (x >>= f) (ts ++ us) :=
  hx.bindOf (.any x) fun a _ => hf a

theorem check (hx : Does templates cfg x []) (hf : ∀ a, Does templates cfg (f a) us) :
    Does templates cfg (x >>= f) us :=
  hx.bind hf

theorem map (hx : Does templates cfg x ts) (f : α → β) : Does templates cfg (f <$> x) ts := by
  obtain ⟨g, hg⟩ := hx
  refine ⟨fun vs => (g vs).map f, fun s b _ => ?_⟩
  simp only [map_eq_ok_iff, hg, Option.map_eq_some_iff]
  constructor
  · rintro ⟨a, ⟨vs, hvs, ha⟩, rfl⟩
    exact ⟨vs, hvs, a, ha, rfl⟩
  · rintro ⟨vs, hvs, a, ha, rfl⟩
    exact ⟨a, ⟨vs, hvs, ha⟩, rfl⟩

theorem andPure (hx : Does templates cfg x ts) (g : α → β) :
    Does templates cfg (x >>= fun a => Pure.pure (g a)) ts := by
  rw [bind_pure_comp]
  exact hx.map g

theorem ofExcept (e : Except Fault α) : Does templates cfg (ofExcept e) [] := by
  cases e with
  | error fault => exact throw fault []
  | ok a => exact pure a

theorem task (u : Task) (read : Value → Option α)
    (h : ∀ s a s', x s = .ok a s' ↔ ∃ v, u.run templates cfg s = .ok v s' ∧ read v = some a) :
    Does templates cfg x [u] := by
  refine ⟨fun vs => vs.head?.bind read, fun s a s' => ?_⟩
  rw [h]
  constructor
  · rintro ⟨v, hv, ha⟩
    exact ⟨[v], runsTo_cons.mpr ⟨v, s', [], hv, by simp, rfl⟩, ha⟩
  · rintro ⟨_, hvs, ha⟩
    obtain ⟨v, _, _, hv, hws, rfl⟩ := runsTo_cons.mp hvs
    obtain ⟨rfl, rfl⟩ := runsTo_nil.mp hws
    exact ⟨v, hv, ha⟩

theorem taskMap (u : Task) (f : α → Value) (read : Value → Option α)
    (hread : ∀ a, read (f a) = some a) (h : u.run templates cfg = f <$> x) :
    Does templates cfg x [u] := by
  refine task u read fun s a _ => ?_
  rw [h]
  simp only [map_eq_ok_iff]
  constructor
  · intro hx
    exact ⟨f a, ⟨a, hx, rfl⟩, hread a⟩
  · rintro ⟨_, ⟨b, hx, rfl⟩, ha⟩
    obtain rfl : b = a := by simpa [hread] using ha
    exact hx

theorem expr (site : Site) (e : Expr) : Does templates cfg (compileExpr cfg (site.place cfg) e) [.expr site e] :=
  taskMap _ .tree (fun | .tree j => some j | _ => none) (fun _ => rfl) rfl

theorem stmt (site : Site) (s : Stmt) :
    Does templates cfg (compileStmt templates cfg (site.place cfg) s) [.stmt site s] :=
  taskMap _ .tree (fun | .tree j => some j | _ => none) (fun _ => rfl) rfl

theorem decorators (site : Site) (h : ClassHeader) :
    Does templates cfg (compileClassDecorators cfg (site.place cfg) h) [.decorators site h] :=
  taskMap _ .tree (fun | .tree j => some j | _ => none) (fun _ => rfl) rfl

theorem newName : Does templates cfg newName [.act .draw] :=
  taskMap _ .text (fun | .text s => some s | _ => none) (fun _ => rfl) rfl

theorem openScope (taken : List String) (body : List Stmt) :
    Does templates cfg (openScope taken body) [.act (.scope taken body)] :=
  taskMap _ .names (fun | .names ns => some ns | _ => none) (fun _ => rfl) rfl

theorem useSnippet (f : Snippet) : Does templates cfg (useSnippet f) [.act (.use f)] :=
  taskMap _ (fun _ => .done) (fun _ => some ()) (fun _ => rfl) rfl

theorem addGlobals (names : List String) : Does templates cfg (addGlobals names) [.act (.imports names)] :=
  taskMap _ (fun _ => .done) (fun _ => some ()) (fun _ => rfl) rfl

theorem warn (node : Ref) (text : String) : Does templates cfg (warn node text) [.act (.remark node text)] :=
  taskMap _ (fun _ => .done) (fun _ => some ()) (fun _ => rfl) rfl

theorem setCaught (name : String) :
    Does templates cfg (setEntry Context.exceptionKey (.name name)) [.act (.catching name)] :=
  taskMap _ (fun _ => .done) (fun _ => some ()) (fun _ => rfl) rfl

theorem caught : Does templates cfg ((fun s => s.context.exception?) <$> (get : Run Session)) [.act .caught] :=
  task _ (fun | .caught c => some c | _ => none) fun s a _ => by
    simp [Task.run, Action.run, map_eq_ok_iff]

theorem refuseIf (cond : Bool) (node : Ref) (why : Refusal) : Does templates cfg (refuseIf cond node why) [] := by
  unfold Compile.refuseIf
  split
  · exact throw _ _
  · exact pure ()

theorem guardFeature (on : Bool) (node : Ref) (what : Requirement) :
    Does templates cfg (guardFeature on node what) [] := by
  unfold Compile.guardFeature
  split
  · exact pure ()
  · exact throw _ _

theorem demand (cond : Bool) : Does templates cfg (demand cond) [] := by
  unfold Compile.demand
  split
  · exact pure ()
  · exact throw _ _

theorem checks {ι : Type} {is : List ι} {x : ι → Run Unit}
    (h : ∀ i ∈ is, Does templates cfg (x i) []) : Does templates cfg (is.forM x) [] := by
  induction is with
  | nil => exact pure ()
  | cons i rest ih =>
    show Does templates cfg (x i >>= fun _ => rest.forM x) []
    exact (h i (by simp)).check fun _ => ih fun j hj => h j (by simp [hj])

theorem eachCheck {ι : Type} {is : List ι} {x : ι → Run α}
    (h : ∀ i ∈ is, Does templates cfg (x i) []) : Does templates cfg (is.mapM x) [] := by
  induction is with
  | nil => exact pure []
  | cons i _ ih =>
    rw [List.mapM_cons]
    exact (h i (by simp)).check fun _ => (ih fun j hj => h j (by simp [hj])).andPure _

theorem checkIf {x : Run Unit} {cond : Bool} (hx : Does templates cfg x []) {k : Unit → Run α}
    (hk : Does templates cfg (k ()) us) : Does templates cfg (if cond = true then x >>= k else k ()) us := by
  cases cond with
  | true => exact hx.check fun _ => hk
  | false => exact hk

end Does

section

variable {α : Type} {x : Run α} {a : α} {s s' : Session} (hx : Does templates cfg x []) (h : x s = .ok a s')

include hx h

theorem Does.session_eq : s' = s := by
  obtain ⟨_, hg⟩ := hx
  obtain ⟨_, hvs, -⟩ := (hg s a s').mp h
  exact (runsTo_nil.mp hvs).2

theorem Does.run_eq_ok (t : Session) : x t = .ok a t := by
  obtain ⟨_, hg⟩ := hx
  obtain ⟨_, hvs, ha⟩ := (hg s a s').mp h
  obtain ⟨rfl, -⟩ := runsTo_nil.mp hvs
  exact (hg t a t).mpr ⟨[], by simp, ha⟩

end

variable {site : Site} {here : Place}

/-! ### Sites and places -/

theorem Site.owner_place (cfg : Config) (site : Site) : (site.place cfg).owner =
    site.owner?.map fun base => ⟨base.map fun b => compileExpr cfg (b.1.place cfg) b.2⟩ := by
  cases site with
  | member base => cases base <;> rfl
  | top | inner outer | inside name isAsync outer => rfl

def SiteMethod.toMethod (cfg : Config) (m : SiteMethod) : Method :=
  ⟨m.isInit, m.isAsync, m.superclass.map fun b => compileExpr cfg (b.1.place cfg) b.2⟩

theorem Site.method_place (cfg : Config) (site : Site) :
    (site.place cfg).method = site.method?.map (SiteMethod.toMethod cfg) := by
  induction site with
  | top => rfl
  | member _ _ ih => exact ih
  | inner _ ih => exact ih
  | inside _ _ outer =>
    show (outer.place cfg).owner.map _ = (outer.owner?.map _).map _
    rw [owner_place, Option.map_map, Option.map_map]
    rfl

theorem Site.isSome_owner_place (cfg : Config) (site : Site) : (site.place cfg).owner.isSome = site.owner?.isSome := by
  rw [owner_place, Option.isSome_map]

theorem Site.underClass_place (site : Site) (cfg cfg' : Config) :
    (site.place cfg').underClass = (site.place cfg).underClass := by
  induction site with
  | top | member => rfl
  | inner outer ih | inside name isAsync outer ih => exact ih

/-! ### Parts as lists -/

theorem compileRuns_eq_map (es : List Expr) : compileRuns cfg here es = es.map (compileExpr cfg here) := by
  induction es with
  | nil => rfl
  | cons _ _ ih => rw [compileRuns, ih, List.map_cons]

theorem args_compileParts (e : Expr) : (compileParts cfg here e).args = (pieces e).map (compileExpr cfg here) := by
  cases e <;> first | rfl | exact compileRuns_eq_map _

theorem compileOperands_eq_map (es : List Expr) : compileOperands cfg here es =
    es.map fun e => ⟨e, compileExpr cfg here e, compileParts cfg here e⟩ := by
  induction es with
  | nil => rfl
  | cons _ _ ih => rw [compileOperands, ih, List.map_cons]

theorem compileValues_eq_mapM (keywords : List Keyword) : compileValues cfg here keywords =
    keywords.mapM fun k => compileExpr cfg here k.value := by
  induction keywords with
  | nil => rfl
  | cons k _ ih =>
    obtain ⟨_, _, _⟩ := k
    rw [compileValues, ih, List.mapM_cons]
    rfl

@[simp]
theorem exprTasks_cons (e : Expr) (es : List Expr) : exprTasks site (e :: es) = .expr site e :: exprTasks site es :=
  rfl

@[simp]
theorem exprTasks_append (es fs : List Expr) : exprTasks site (es ++ fs) = exprTasks site es ++ exprTasks site fs :=
  List.map_append

theorem exprTasks_flatMap {ι : Type} (is : List ι) (f : ι → List Expr) :
    exprTasks site (is.flatMap f) = is.flatMap fun i => exprTasks site (f i) :=
  List.map_flatMap

@[simp]
theorem stmtTasks_cons (s : Stmt) (rest : List Stmt) :
    stmtTasks site (s :: rest) = .stmt site s :: stmtTasks site rest :=
  rfl

/-! ### Steps that only check -/

theorem does_refuseSuper (node : Ref) (value : Expr) : Does templates cfg (refuseSuper here node value) [] := by
  unfold refuseSuper
  split
  · exact (Does.refuseIf _ _ _).check fun _ => .throw _ _
  · exact .pure ()

theorem does_demandText (a : Operand) : Does templates cfg (demandText a) [] :=
  (Does.demand _).andPure _

theorem does_checkFunction (h : Header) : Does templates cfg (checkFunction cfg here h) [] := by
  unfold checkFunction
  refine .checkIf (.guardFeature _ _ _) ?_
  refine (Does.refuseIf _ _ _).check fun _ => (Does.refuseIf _ _ _).check fun _ => ?_
  exact .checkIf (.guardFeature _ _ _) ((Does.refuseIf _ _ _).check fun _ => .refuseIf _ _ _)

theorem does_afterAccessor {α : Type} {k : Option Script.Member × Bool → Run α} {decorator : Option Expr}
    {fault : Fault} (hk : ∀ found, Does templates cfg (k found) []) :
    Does templates cfg (match decorator with
      | none => pure (none, false) >>= k
      | some d => match accessor? d with
        | some found => pure found >>= k
        | none => throw fault >>= k) [] := by
  split
  · exact hk _
  · split
    · exact hk _
    · exact .throwBind _ _

theorem does_formOf (h : Header) (generator : Bool) (count : Nat) :
    Does templates cfg (formOf here h generator count) [] := by
  unfold formOf
  dsimp only
  split
  · split <;> exact .pure _
  · refine does_afterAccessor fun _ => ?_
    split
    · exact .pure _
    · split
      · exact .pure _
      · exact .pure _
      · exact .pure _
      · exact (Does.refuseIf _ _ _).check fun _ => .pure _
      · exact .pure _

theorem does_loopForm (node : Ref) (target iter : Expr) (hasElse : Bool) :
    Does templates cfg (loopForm cfg node target iter hasElse) [] := by
  have harray : Does templates cfg (arrayForm node target) [] := by
    unfold arrayForm
    split
    · exact .pure _
    · exact .throw _ _
  unfold loopForm
  split
  · split
    · exact .pure _
    · exact .pure _
    · exact .pure _
    · split
      · exact harray
      · split
        · exact .throw _ _
        · exact .throw _ _
        · exact .pure _
    · exact (Does.guardFeature _ _ _).andPure _
    · exact harray
  · exact harray

theorem does_checkClass (h : ClassHeader) (body : List Stmt) : Does templates cfg (checkClass cfg h body) [] := by
  refine (Does.guardFeature _ _ _).check fun _ => (Does.refuseIf _ _ _).check fun _ =>
    (Does.checks fun s _ => ?_).check fun _ => ?_
  · exact (Does.refuseIf _ _ _).check fun _ => .refuseIf _ _ _
  · split
    · exact .throw _ _
    · exact .pure ()

theorem does_checkMembers (body : List Stmt) : Does templates cfg (checkMembers body) [] := by
  refine (Does.checks fun s _ => ?_).check fun _ => ?_
  · split
    · exact .refuseIf _ _ _
    · exact .pure ()
  · dsimp only
    split
    · exact .throw _ _
    · exact .pure ()

end Transpiler.Compile
