import Transpiler.Proofs.Compile.Kept

/-!
# Exceptions that are raised again

A `raise` without an argument throws the variable of a `catch`. Which one is known from the `try` statements around
it: the name is noted for a whole statement that has clauses, so that it is in force in the block that is tried and
in the last block too (`Trail.exception?_eq`). The statement with clauses that is nearest gives the name
(`rethrows_of_standsUnder`).
-/

namespace Transpiler.Compile

open Script (Js)
open Source (At Expr Handler Ref Stmt)

variable {templates : Templates} {cfg : Config} {site site' : Site} {body block : List Stmt} {stmt : Stmt}
  {s s' : Session} {handlers : List Handler} {p : At} {guards : List Guard} {v : Visit} {u : Task}
  {ts : List Task} {vs : List Value} {node : Ref} {rest : List Visit} {star : Bool}
  {finalbody inner orelse : List Stmt} {js : List Js} {g : Guard}

/-! ### The exception that is handled -/

theorem RunsTo.exception? (hts : ∀ u ∈ ts, u.isCatching = false)
    (h : RunsTo templates cfg ts s vs s') : s'.context.exception? = s.context.exception? :=
  h.relate (fun s s' => s'.context.exception? = s.context.exception?) (fun _ => rfl)
    (fun h h' => h'.trans h) fun u hu _ _ _ hrun => (Effect.of_run hrun).exception (hts u hu)

theorem exception?_start (u : Task) (s : Session) : (u.start s).context.exception? = s.context.exception? := by
  unfold Task.start
  split <;> rfl

theorem exists_parts_eq_beginTry (cfg : Config) {name : String} (h : u.caught? = some name) :
    ∃ node handlers tail, u.parts cfg = beginTryTasks node handlers ++ tail ∧ caught? handlers = some name ∧
      ∀ w ∈ tail, w.isCatching = false := by
  unfold Task.caught? at h
  split at h
  next handlers orelse finalbody =>
    refine ⟨_, handlers, _, by rw [Task.parts, stmtParts, List.append_assoc, List.append_assoc], h, ?_⟩
    intro w hw
    cases w with
    | act => simp [act_not_mem_stmtTasks, act_not_mem_handlerTasks] at hw
    | _ => rfl
  · cases h

theorem act_of_mem_beginTryTasks (h : u ∈ beginTryTasks node handlers) : ∃ a, u = .act a := by
  rcases List.mem_append.mp h with h | h
  · obtain ⟨_, -, h⟩ := List.mem_flatMap.mp h
    split at h
    · simp at h
    · exact ⟨_, List.mem_singleton.mp h⟩
  · split at h
    · simp at h
    · exact ⟨_, List.mem_singleton.mp h⟩

theorem isCatching_of_caught?_eq_none {v : Task} (hu : u.caught? = none) (hv : v ∈ u.parts cfg) :
    v.isCatching = false := by
  cases v with
  | act a =>
    cases a with
    | catching =>
      rw [caught?_of_catching_mem hv] at hu
      cases hu
    | _ => rfl
  | _ => rfl

theorem exception?_beginTry (h : RunsTo templates cfg (beginTryTasks node handlers) s vs s') :
    s'.context.exception? = (caught? handlers).or s.context.exception? := by
  obtain ⟨_, t, _, hremarks, hname, -⟩ := runsTo_append.mp h
  have ht : t.context.exception? = s.context.exception? := by
    refine hremarks.exception? fun u hu => ?_
    obtain ⟨_, -, hu⟩ := List.mem_flatMap.mp hu
    split at hu
    · simp at hu
    · rw [List.mem_singleton.mp hu]; rfl
  unfold caught?
  split
  next hempty =>
    rw [if_pos hempty] at hname
    obtain ⟨-, rfl⟩ := runsTo_nil.mp hname
    exact ht
  next hempty =>
    rw [if_neg hempty] at hname
    obtain ⟨_, _, _, hset, hend, -⟩ := runsTo_cons.mp hname
    obtain ⟨-, rfl⟩ := runsTo_nil.mp hend
    obtain ⟨_, hset, -⟩ := map_eq_ok_iff.mp hset
    obtain rfl := ends_setEntry t _ _ _ _ hset
    simp [Session.withEntry, Context.exception?, caughtName_ne_empty]

theorem Visits.exception? {w : Visit}
    (h : Visits templates cfg (w.task.parts cfg) (w.task.start w.session) v) (hv : v.task = .stmt site stmt) :
    v.session.context.exception? = w.task.caught?.or w.session.context.exception? := by
  obtain ⟨_, hvs⟩ := h.runs
  cases hcaught : w.task.caught? with
  | none =>
    rw [hvs.exception? fun u hu => isCatching_of_caught?_eq_none hcaught (List.mem_of_mem_take hu), exception?_start]
    rfl
  | some =>
    obtain ⟨node, handlers, _, hparts, hname, htail⟩ := exists_parts_eq_beginTry cfg hcaught
    have hindex : (beginTryTasks node handlers).length ≤ v.index := by
      -- before that there are only actions
      by_contra hlt
      have htask := h.task
      rw [hparts, List.getElem?_append_left (by omega)] at htask
      obtain ⟨_, ha⟩ := act_of_mem_beginTryTasks (List.mem_of_getElem? htask)
      rw [hv] at ha
      cases ha
    rw [hparts, List.take_append, List.take_of_length_le hindex] at hvs
    obtain ⟨_, _, _, hbegin, hrest, -⟩ := runsTo_append.mp hvs
    rw [hrest.exception? fun u hu => htail u (List.mem_of_mem_take hu), exception?_beginTry hbegin, hname]
    rfl

theorem Trail.exception?_eq (hts : ∀ u ∈ ts, u.isCatching = false) (h : Trail templates cfg ts s (v :: rest))
    (hv : v.task = .stmt site stmt) :
    v.session.context.exception? = (rest.findSome? (·.task.caught?)).or s.context.exception? := by
  induction h using Trail.along generalizing site stmt with
  | part _ hvisit =>
    obtain ⟨_, hvs⟩ := hvisit.runs
    exact hvs.exception? fun u hu => hts u (List.mem_of_mem_take hu)
  | deeper _ w _ _ hvisit ih =>
    obtain ⟨_, _, hw⟩ := hvisit.exists_stmt hv
    rw [hvisit.exception? hv, ih hw, List.findSome?_cons]
    cases w.task.caught? <;> rfl

theorem isCatching_stmtTasks : ∀ u ∈ stmtTasks site body, u.isCatching = false := by
  intro _ hu
  obtain ⟨_, -, rfl⟩ := mem_stmtTasks.mp hu
  rfl

/-! ### The statements around a statement -/

inductive TryPart where
  | attempted
  | handling
  | finishing
  deriving DecidableEq

/-- A `try` statement around a statement, and the part of it that the statement stands in. -/
structure Guard where
  part : TryPart
  node : Ref
  handlers : List Handler

def tryBlocks (body : List Stmt) (handlers : List Handler) (finalbody : List Stmt) : List (TryPart × List Stmt) :=
  (.attempted, body) :: (reachedHandlers handlers).map (fun h => (.handling, h.body)) ++ [(.finishing, finalbody)]

def isTry : Stmt → Bool
  | .tryBlock .. => true
  | _ => false

/-- A statement stands among those of a module, or in a statement that does; with the `try` statements around it,
the nearest first. -/
inductive StandsUnder (site : Site) (body : List Stmt) : List Guard → Site → Stmt → Prop
  | module {stmt : Stmt} (h : stmt ∈ body) : StandsUnder site body [] site stmt
  | inner {guards : List Guard} {outer inside : Site} {around stmt : Stmt} {block : List Stmt}
      (haround : StandsUnder site body guards outer around) (htry : isTry around = false)
      (hblock : (inside, block) ∈ innerBlocks outer around) (hstmt : stmt ∈ block) :
      StandsUnder site body guards inside stmt
  | tried {guards : List Guard} {outer : Site} {p : At} {star : Bool} {handlers : List Handler}
      {inner orelse finalbody block : List Stmt} {part : TryPart} {stmt : Stmt}
      (haround : StandsUnder site body guards outer (.tryBlock p star inner handlers orelse finalbody))
      (hpart : (part, block) ∈ tryBlocks inner handlers finalbody) (hstmt : stmt ∈ block) :
      StandsUnder site body
        (⟨part, (Stmt.tryBlock p star inner handlers orelse finalbody).ref, handlers⟩ :: guards) outer.inner stmt

theorem mem_innerBlocks_of_mem_tryBlocks {part : TryPart} (h : (part, block) ∈ tryBlocks inner handlers finalbody) :
    (site.inner, block) ∈ innerBlocks site (.tryBlock p star inner handlers orelse finalbody) := by
  simp only [tryBlocks, List.cons_append, List.mem_cons, List.mem_append, List.mem_map, Prod.mk.injEq,
    List.not_mem_nil, or_false] at h
  simp only [innerBlocks, List.cons_append, List.mem_map, List.mem_cons, List.mem_append]
  grind

def caughtUnder (guards : List Guard) : Option String :=
  guards.findSome? fun g => caught? g.handlers

theorem exists_trail_of_standsUnder (hrun : RunsTo templates cfg (stmtTasks site body) s (js.map .tree) s')
    (h : StandsUnder site body guards site' stmt) :
    ∃ v rest, Trail templates cfg (stmtTasks site body) s (v :: rest) ∧ v.task = .stmt site' stmt ∧
      rest.findSome? (·.task.caught?) = caughtUnder guards := by
  have habove {above : List Visit} (h : ∀ r ∈ above, r.task.function?.isSome = true) :
      above.findSome? (·.task.caught?) = none := by
    rw [List.findSome?_eq_none_iff]
    intro r hr
    have := h r hr
    unfold Task.function? at this
    split at this
    next heq => rw [heq]; rfl
    · cases this
  induction h with
  | module hstmt =>
    obtain ⟨v, hv, htask⟩ := hrun.exists_visits (mem_stmtTasks.mpr ⟨_, hstmt, rfl⟩)
    exact ⟨v, [], .part hv, htask, rfl⟩
  | @inner _ _ _ around _ _ _ htry hblock hstmt ih =>
    obtain ⟨w, _, htrail, hw, hrest⟩ := ih
    obtain ⟨v, _, htrail', hv, hfunctions⟩ := htrail.exists_inner hrun hw hblock hstmt
    refine ⟨v, _, htrail', hv, ?_⟩
    have hcaught : w.task.caught? = none := by
      rw [hw]
      cases around with
      | tryBlock => cases htry
      | _ => rfl
    rw [List.findSome?_append, habove hfunctions, List.findSome?_cons, hcaught]
    exact hrest
  | tried _ hpart hstmt ih =>
    obtain ⟨_, _, htrail, hw, hrest⟩ := ih
    obtain ⟨v, _, htrail', hv, hfunctions⟩ :=
      htrail.exists_inner hrun hw (mem_innerBlocks_of_mem_tryBlocks hpart) hstmt
    refine ⟨v, _, htrail', hv, ?_⟩
    rw [List.findSome?_append, habove hfunctions, caughtUnder, List.findSome?_cons, List.findSome?_cons, hw, hrest]
    rfl

/-! ### Raising again -/

def nearest? (guards : List Guard) : Option Guard :=
  guards.find? (!·.handlers.isEmpty)

theorem nearest?_cons (g : Guard) (rest : List Guard) :
    nearest? (g :: rest) = if g.handlers.isEmpty then nearest? rest else some g := by
  rw [nearest?, List.find?_cons]
  cases g.handlers.isEmpty <;> rfl

theorem caughtUnder_eq (guards : List Guard) : caughtUnder guards = (nearest? guards).map (caughtName ·.handlers) := by
  induction guards with
  | nil => rfl
  | cons g _ ih =>
    rw [caughtUnder, List.findSome?_cons, ← caughtUnder, nearest?_cons, ih, caught?]
    cases g.handlers.isEmpty <;> rfl

theorem StandsUnder.exists_nearest (h : StandsUnder site body guards site' stmt)
    (hg : nearest? guards = some g) : ∃ outer above below p star inner orelse finalbody,
      g.node = (Stmt.tryBlock p star inner g.handlers orelse finalbody).ref ∧
      StandsUnder site body above outer (.tryBlock p star inner g.handlers orelse finalbody) ∧
      StandsUnder outer [.tryBlock p star inner g.handlers orelse finalbody] below site' stmt ∧
      nearest? below = some g := by
  induction h with
  | module => cases hg
  | inner _ htry hblock hstmt ih =>
    obtain ⟨outer, above, below, p, star, inner, orelse, finalbody, hnode, habove, hbelow, hnearest⟩ := ih hg
    exact ⟨outer, above, below, p, star, inner, orelse, finalbody, hnode, habove,
      hbelow.inner htry hblock hstmt, hnearest⟩
  | @tried guards outer p star handlers inner orelse finalbody _ _ _ haround hpart hstmt ih =>
    rw [nearest?_cons] at hg
    cases hempty : handlers.isEmpty with
    | false =>
      -- this is the statement
      obtain rfl : _ = g := by simpa [hempty] using hg
      exact ⟨outer, guards, _, p, star, inner, orelse, finalbody, rfl, haround,
        .tried (.module (List.mem_singleton_self _)) hpart hstmt, by simp [nearest?_cons, hempty]⟩
    | true =>
      obtain ⟨outer', above, _, p', star', inner', orelse', finalbody', hnode, habove, hbelow, hnearest⟩ :=
        ih (by simpa [hempty] using hg)
      exact ⟨outer', above, _, p', star', inner', orelse', finalbody', hnode, habove, hbelow.tried hpart hstmt,
        by simpa [nearest?_cons, hempty] using hnearest⟩

theorem inFrame_of_error {α : Type} {x : Run α} {e : Fault} {t : Session} (h : x s.entered = .error e t) :
    inFrame x s = .error e t := by
  have hframe : (modify fun s => { s with context := s.context.push [] } : Run Unit) s = .ok () s.entered := rfl
  exact (bind_of_ok hframe).trans (bind_of_error h)

theorem compileStmt_bareRaise (templates : Templates) (cfg : Config) (here : Place) (p : At) (cause : Expr)
    (s : Session) : compileStmt templates cfg here (.raise p .absent cause) s =
      match s.context.exception? with
      | some x => .ok (.command (cfg.origin (some (Stmt.raise p .absent cause).ref)) .throw
          (.name (cfg.origin none) (.text x))) s
      | none => .error (.unsupported (some (Stmt.raise p .absent cause).ref) .bareRaise) s.entered := by
  have hget : (get : Run Session) s.entered = .ok s.entered s.entered := rfl
  have hentered : s.entered.context.exception? = s.context.exception? := rfl
  rw [compileStmt]
  cases hs : s.context.exception? with
  | some =>
    refine inFrame_eq_ok_iff.mpr ⟨s.entered, (bind_of_ok hget).trans ?_, rfl⟩
    rw [hentered, hs]
    rfl
  | none =>
    refine inFrame_of_error ((bind_of_ok hget).trans ?_)
    rw [hentered, hs]
    rfl

theorem compileBlock_bareRaise {cause : Expr} {before : List Stmt} (after : List Stmt)
    (hs : s.context.exception? = none) (h : compileBlock templates cfg (site.place cfg) before s = .ok js s') :
    compileBlock templates cfg (site.place cfg) (before ++ .raise p .absent cause :: after) s =
      .error (.unsupported (some (Stmt.raise p .absent cause).ref) .bareRaise) s'.entered := by
  induction before generalizing s js with
  | nil =>
    rw [compileBlock] at h
    obtain ⟨-, rfl⟩ := pure_eq_ok_iff.mp h
    rw [List.nil_append, compileBlock]
    apply bind_of_error
    rw [compileStmt_bareRaise, hs]
  | cons stmt _ ih =>
    rw [compileBlock] at h
    obtain ⟨j, t, hj, hrest⟩ := bind_eq_ok_iff.mp h
    obtain ⟨_, _, hjs', hend⟩ := bind_eq_ok_iff.mp hrest
    obtain ⟨-, rfl⟩ := pure_eq_ok_iff.mp hend
    have ht : t.context.exception? = s.context.exception? :=
      (Effect.of_run (u := .stmt site stmt) (map_eq_ok_iff.mpr ⟨j, hj, rfl⟩)).exception rfl
    rw [List.cons_append, compileBlock]
    exact (bind_of_ok hj).trans (bind_of_error (ih (ht.trans hs) hjs'))

theorem Trail.exists_node (h : Trail compileTemplate cfg (stmtTasks site body) s (v :: rest))
    (hrun : RunsTo compileTemplate cfg (stmtTasks site body) s (js.map .tree) s') (hv : v.task = .stmt site' stmt)
    (hstmt : ∀ e, stmt ≠ .bare e) :
    ∃ j t, compileStmt compileTemplate cfg (site'.place cfg) stmt v.session = .ok j t ∧ j ∈ Script.nodesAll js := by
  have hnodes : nodesOf (materials cfg (stmtTasks site body) (js.map .tree)) = Script.nodesAll js := by
    rw [hrun.materials_stmts, nodesOf_stmts]
  have hplain := h.not_formatted hv
  obtain ⟨_, t, hval, hnode⟩ := h.forall_nodes templatesFit_compileTemplate hrun
    (by rintro ⟨r, hr, hformatted⟩; simp [hplain r hr] at hformatted) (fun _ => id)
  rw [hv] at hval hnode
  obtain ⟨j, hj, rfl⟩ := map_eq_ok_iff.mp hval
  have hself := self_mem_nodes_of_compileStmt hstmt hj
  exact ⟨j, t, hj, hnodes ▸ hnode j (by simpa [Task.material] using hself)⟩

theorem exists_tryStmt {here : Place} {j : Js} (hne : handlers.isEmpty = false)
    (h : compileStmt templates cfg here (.tryBlock p star inner handlers orelse finalbody) s = .ok j s') :
    ∃ js catching finishing,
      j = .tryStmt (cfg.origin (some (Stmt.tryBlock p star inner handlers orelse finalbody).ref)) js
        (.text (caughtName handlers)) catching finishing ∧
      ∃ t₀ t₁ t₂,
        beginTry (Stmt.tryBlock p star inner handlers orelse finalbody).ref handlers orelse finalbody s.entered =
          .ok (caughtName handlers) t₀ ∧
        compileBlock templates cfg here.inner inner t₀ = .ok js t₁ ∧
        compileHandlers templates cfg here.inner (caughtName handlers) handlers t₁ = .ok catching t₂ := by
  rw [compileStmt] at h
  obtain ⟨_, hstep, -⟩ := inFrame_eq_ok_iff.mp h
  dsimp only at hstep
  split at hstep
  · cases hstep
  · obtain ⟨_, t₀, hbegin, hstep⟩ := bind_eq_ok_iff.mp hstep
    obtain rfl := yields_beginTry _ _ _ _ _ _ _ hbegin
    obtain ⟨js, t₁, hjs, catching, t₂, hcatching, finishing, _, -, hstep⟩ := by
      simpa only [bind_eq_ok_iff] using hstep
    rw [if_neg (by simp [hne])] at hstep
    obtain ⟨rfl, rfl⟩ := pure_eq_ok_iff.mp hstep
    exact ⟨js, catching, finishing, rfl, t₀, t₁, t₂, hbegin, hjs, hcatching⟩

/-- The script has the tree of a `try` statement, and in it throws the variable of its `catch` for a node. -/
def Rethrows (cfg : Config) (script : Js) (g : Guard) (node : Ref) : Prop :=
  ∃ tree js catching finishing, tree ∈ script.nodes ∧
    tree = .tryStmt (cfg.origin (some g.node)) js (.text (caughtName g.handlers)) catching finishing ∧
    .command (cfg.origin (some node)) .throw (.name (cfg.origin none) (.text (caughtName g.handlers))) ∈ tree.nodes

theorem StandsUnder.handlers_ne_nil (h : StandsUnder site body guards site' stmt) :
    ∀ g ∈ guards, g.part = .handling → g.handlers.isEmpty = false := by
  induction h with
  | module => simp
  | inner _ _ _ _ ih => exact ih
  | @tried _ _ _ _ handlers _ _ _ _ _ _ _ hpart _ ih =>
    refine List.forall_mem_cons.mpr ⟨?_, ih⟩
    rintro rfl
    cases handlers with
    | nil => simp [tryBlocks, reachedHandlers] at hpart
    | cons => rfl

theorem find?_handling (h : ∀ g ∈ guards, g.part = .handling → g.handlers.isEmpty = false)
    (hg : nearest? guards = some g) (hpart : g.part = .handling) :
    guards.find? (·.part == .handling) = some g := by
  induction guards with
  | nil => cases hg
  | cons first _ ih =>
    rw [nearest?_cons] at hg
    by_cases hfirst : first.part = .handling
    · rw [if_neg (by simp [h first (by simp) hfirst])] at hg
      cases hg
      simp [hfirst]
    · split at hg
      · simpa [hfirst] using ih (fun g hg => h g (by simp [hg])) hg
      · cases hg
        exact absurd hpart hfirst

theorem exception?_ofModule (body : List Stmt) : (Session.ofModule body).context.exception? = none :=
  (SameScope.withEntry Session.start (by decide) _).exception

/-- Where a statement raises an exception again, the nearest statement with clauses around it names the exception,
whichever part of that statement it stands in. A module in which there is no such statement around it is refused,
for the reason that the block around it gives. -/
theorem rethrows_of_standsUnder {guards : List Guard} {p : At} {cause : Expr}
    (h : StandsUnder site body guards site' (.raise p .absent cause)) :
    (nearest? guards = none → (∀ compiled, compileModule cfg (site.place cfg) body ≠ .ok compiled) ∧
      ∀ before after js s s', s.context.exception? = none →
        compileBlock compileTemplate cfg (site'.place cfg) before s = .ok js s' →
        compileBlock compileTemplate cfg (site'.place cfg) (before ++ .raise p .absent cause :: after) s =
          .error (.unsupported (some (Stmt.raise p .absent cause).ref) .bareRaise) s'.entered) ∧
    ∀ g, nearest? guards = some g → (g.part = .handling → guards.find? (·.part == .handling) = some g) ∧
      ∀ compiled script, compileModule cfg (site.place cfg) body = .ok compiled →
        compiled.withLibrary cfg = .ok script → Rethrows cfg script g (Stmt.raise p .absent cause).ref := by
  constructor
  · intro hnone
    refine ⟨?_, fun before after js s s' hs hbefore => compileBlock_bareRaise after hs hbefore⟩
    intro compiled hcompiled
    obtain ⟨js, hjs, -⟩ := compileModule_eq_ok hcompiled
    have hrun := compileBlock_eq_ok_iff.mp hjs
    obtain ⟨v, rest, htrail, hv, hrest⟩ := exists_trail_of_standsUnder hrun h
    obtain ⟨j, t, hj, -⟩ := htrail.exists_node hrun hv (by simp)
    have hexception := htrail.exception?_eq isCatching_stmtTasks hv
    rw [hrest, caughtUnder_eq, hnone, exception?_ofModule] at hexception
    rw [compileStmt_bareRaise, hexception] at hj
    cases hj
  · intro g hg
    refine ⟨find?_handling h.handlers_ne_nil hg, ?_⟩
    intro compiled script hcompiled hscript
    obtain ⟨js, hjs, hitems⟩ := compileModule_eq_ok hcompiled
    have hrun := compileBlock_eq_ok_iff.mp hjs
    obtain ⟨o, front, hfront⟩ := exists_eq_front hitems hscript
    obtain ⟨outer, above, below, q, star, inner, orelse, finalbody, hnode, habove, hbelow, hnearest⟩ :=
      h.exists_nearest hg
    -- first to the statement with clauses, and from there on in the run of that statement alone
    obtain ⟨w, _, htrail, hw, -⟩ := exists_trail_of_standsUnder hrun habove
    obtain ⟨tree, t, htree, hmem⟩ := htrail.exists_node hrun hw (by simp)
    have hsub : RunsTo compileTemplate cfg
        (stmtTasks outer [.tryBlock q star inner g.handlers orelse finalbody]) w.session ([tree].map .tree) t :=
      runsTo_cons.mpr ⟨_, t, [], map_eq_ok_iff.mpr ⟨tree, htree, rfl⟩, runsTo_nil.mpr ⟨rfl, rfl⟩, rfl⟩
    obtain ⟨v, rest, htrail', hv, hrest⟩ := exists_trail_of_standsUnder hsub hbelow
    obtain ⟨j, t', hj, hjmem⟩ := htrail'.exists_node hsub hv (by simp)
    have hexception := htrail'.exception?_eq isCatching_stmtTasks hv
    rw [hrest, caughtUnder_eq, hnearest] at hexception
    rw [compileStmt_bareRaise, hexception] at hj
    cases hj
    obtain ⟨js', catching, finishing, rfl, -⟩ :=
      exists_tryStmt (by simpa using List.find?_some hg) htree
    refine ⟨_, js', catching, finishing, ?_, by rw [hnode], by simpa using hjmem⟩
    simp [hfront, hmem]

def finishingRaise : Stmt :=
  .tryBlock none false [callStmt "b"] [] [] [.raise none .absent .absent]

def raisingHandler : Stmt :=
  .tryBlock none false [callStmt "a"] [.mk none (.name none "A") (some "x") [finishingRaise]] [] []

theorem standsUnder_raisingHandler : StandsUnder .top [raisingHandler] [⟨.finishing, finishingRaise.ref, []⟩,
      ⟨.handling, raisingHandler.ref, [.mk none (.name none "A") (some "x") [finishingRaise]]⟩]
    (.inner (.inner .top)) (.raise none .absent .absent) := by
  have houter : StandsUnder .top [raisingHandler]
      [⟨.handling, raisingHandler.ref, [.mk none (.name none "A") (some "x") [finishingRaise]]⟩]
      (.inner .top) finishingRaise :=
    .tried (.module (List.mem_singleton_self _)) (by simp [tryBlocks, reachedHandlers, Handler.body])
      (List.mem_singleton_self _)
  exact houter.tried (by simp [tryBlocks, reachedHandlers]) (List.mem_singleton_self _)

/-- The exception of the clause is raised again. -/
theorem rethrows_raisingHandler : ∃ guards g compiled script,
    StandsUnder .top [raisingHandler] guards (.inner (.inner .top)) (.raise none .absent .absent) ∧
      nearest? guards = some g ∧ g.part = .handling ∧ caughtName g.handlers = "x" ∧
      compileModule (.standard false false) (Site.top.place (.standard false false)) [raisingHandler] = .ok compiled ∧
      compiled.withLibrary (.standard false false) = .ok script ∧
      Rethrows (.standard false false) script g (Stmt.raise none .absent .absent).ref := by
  refine ⟨_, _, _, _, standsUnder_raisingHandler, rfl, rfl, rfl, rfl, rfl, ?_⟩
  exact ((rethrows_of_standsUnder standsUnder_raisingHandler).2 _ rfl).2 _ _ rfl rfl

def raisingTry : Stmt :=
  .tryBlock none false [.raise none .absent .absent] [.mk none (.name none "A") (some "e") [.pass none]] [] []

/-- No clause is around what is tried. It throws the variable of the `catch` all the same. -/
theorem compileModule_raisingTry :
    (∃ guards, StandsUnder .top [raisingTry] guards (.inner .top) (.raise none .absent .absent) ∧
      guards.find? (·.part == .handling) = none) ∧
    ∃ o o₁ o₂ o₃ catching t, compileModule (.standard false false) .top [raisingTry] =
        .ok ⟨.statements o [.tryStmt o₁ [.command o₂ .throw (.name o₃ (.text "e"))] (.text "e") catching []], t⟩ := by
  refine ⟨⟨[⟨.attempted, raisingTry.ref, [.mk none (.name none "A") (some "e") [.pass none]]⟩], ?_, rfl⟩,
    _, _, _, _, _, _, rfl⟩
  exact .tried (.module (List.mem_singleton_self _)) List.mem_cons_self (List.mem_singleton_self _)

end Transpiler.Compile
