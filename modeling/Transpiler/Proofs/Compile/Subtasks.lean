import Transpiler.Proofs.Compile.Tasks
import Transpiler.Proofs.Source.Unbracketed

/-!
# What the parts of a task are

The parts of an expression are expressions inside it, at the same site, the superclass that a method names, and
notes of generated names and run-time functions (`ExprPart`). The parts of a statement are the expressions that
occur in it, the statements of its bodies, the decorators of a class, and notes (`StmtPart`).

This gives an induction over tasks (`Task.induction`), and conditions on the source that go over to expressions,
operands and bodies go over to the parts of tasks (`Task.All.parts`). One is that the words hold no bracket
(`hereditary_unbracketed`), and the spelling of a name in the output brings none in.
-/

namespace Transpiler.Compile

open Script (bracketFree)
open Source (At CmpOp Expr Generator Handler Keyword Params Ref Stmt)

variable {cfg : Config} {site : Site} {body : List Stmt} {e : Expr} {args call es : List Expr} {p : At}
  {a b : String × Expr × Expr} {as : List (String × Expr × Expr)} {iter target : Expr} {form : LoopForm}
  {orelse : List Stmt} {handlers : List Handler} {P : Site → Expr → Prop}

theorem mem_exprTasks {v : Task} : v ∈ exprTasks site es ↔ ∃ x ∈ es, v = .expr site x := by
  simp [exprTasks, eq_comm]

theorem mem_stmtTasks {v : Task} : v ∈ stmtTasks site body ↔ ∃ s ∈ body, v = .stmt site s := by
  simp [stmtTasks, eq_comm]

/-! ### Parts of expressions -/

inductive ExprPart (site : Site) (e : Expr) : Task → Prop
  | inside {x : Expr} (h : x.Inside e) : ExprPart site e (.expr site x)
  | superclass {m : SiteMethod} {b : Site × Expr} (hm : site.method? = some m) (hb : m.superclass = some b) :
      ExprPart site e (.expr b.1 b.2)
  | draw {p : At} {elt : Expr} {generators : List Generator} (he : e = .listComp p elt generators) :
      ExprPart site e (.act .draw)
  | use (f : Snippet) : ExprPart site e (.act (.use f))

section

variable {x : Expr}

theorem mem_evaluated_of_pieces (h : x ∈ pieces e) : x ∈ e.evaluated ++ e.deferred := by
  cases e <;> simp_all [pieces, Expr.evaluated] <;> grind

theorem occurs_attrExprs {inMethod : Bool} {value : Expr} {field : String}
    (h : x ∈ attrExprs inMethod value field) : x.Occurs true value := by
  have hvalue (h : x ∈ [value]) : x.Occurs true value := by
    obtain rfl := List.mem_singleton.mp h
    exact .here
  unfold attrExprs at h
  split at h
  next p q called args keywords =>
    split at h
    · cases h
    next item =>
      split at h
      · exact .of_mem (mem_evaluated_of_pieces (e := .call p (.name q "list") [item] keywords) h)
      · exact hvalue h
    · exact hvalue h
  · exact hvalue h

theorem mem_instanceExprs {target : List Expr} {cls : Expr} (h : x ∈ instanceExprs target cls) :
    x ∈ target ∨ x.Occurs true cls := by
  have hself : cls.Occurs true cls := .here
  unfold instanceExprs at h
  split at h
  · obtain ⟨c, hc, hx⟩ := List.mem_flatMap.mp h
    rcases List.mem_append.mp hx with hx | hx
    · exact .inl hx
    · obtain rfl : x = c := by simpa using hx
      exact .inr (.of_mem (mem_evaluated_of_pieces hc))
  · grind

theorem occurs_newExprs (h : x ∈ newExprs e) : x.Occurs true e := by
  unfold newExprs at h
  split at h
  · exact .of_mem (by simpa [callExprs, Expr.evaluated, Expr.deferred] using h)
  · cases h

theorem mem_builtinExprs {f : Builtin} (h : x ∈ builtinExprs f args call) : x ∈ call ∨ ∃ a ∈ args, x.Occurs true a := by
  have hself : x.Occurs true x := .here
  have hpieces (e : Expr) (hx : x ∈ pieces e) : x.Occurs true e := .of_mem (mem_evaluated_of_pieces hx)
  have hinstance (target cls : Expr) (hx : x ∈ instanceExprs [target] cls) := mem_instanceExprs hx
  have hnew (e : Expr) (hx : x ∈ newExprs e) := occurs_newExprs hx
  unfold builtinExprs at h
  split at h <;> grind

theorem mem_chainExprs {left : Expr} {ops : List CmpOp} {rights : List Expr}
    (h : x ∈ chainExprs left ops rights) : x = left ∨ x ∈ rights := by
  induction rights generalizing left ops with
  | nil => cases ops <;> simp [chainExprs] at h
  | cons _ _ ih =>
    cases ops with
    | nil => simp [chainExprs] at h
    | cons =>
      rw [chainExprs, List.mem_cons, List.mem_cons] at h
      rcases h with rfl | rfl | h
      · simp
      · simp
      · rcases ih h with rfl | h <;> simp [*]

end

theorem ExprPart.of_exprTasks (h : ∀ x ∈ es, x.Inside e) {v : Task}
    (hv : v ∈ exprTasks site es) : ExprPart site e v := by
  obtain ⟨x, hx, rfl⟩ := mem_exprTasks.mp hv
  exact .inside (h x hx)

theorem exprPart_methodTasks {called field : String} {inner : List Expr}
    (hinner : ∀ x ∈ inner, x.Inside e) (hargs : ∀ x ∈ args, x.Inside e) (hcall : ∀ x ∈ call, x.Inside e)
    {v : Task} (hv : v ∈ methodTasks site called inner field args call) : ExprPart site e v := by
  unfold methodTasks at hv
  split at hv
  next hm =>
    rcases List.mem_append.mp hv with hv | hv
    · split at hv
      · cases hv
      · obtain ⟨_, hb, rfl⟩ := Option.map_eq_some_iff.mp (Option.mem_toList.mp hv)
        exact .superclass hm hb
    · exact .of_exprTasks hargs hv
  · exact .of_exprTasks (by grind) hv
  · exact .of_exprTasks hcall hv

theorem exprPart_callTasks {func : Expr} {keywords : List Keyword} {v : Task}
    (hv : v ∈ callTasks site func args keywords) : ExprPart site (.call p func args keywords) v := by
  have hcall (x : Expr) (hx : x ∈ callExprs func args keywords) : x.Inside (.call p func args keywords) :=
    .of_mem (by simpa [callExprs, Expr.evaluated, Expr.deferred] using hx)
  have hargs (x : Expr) (hx : x ∈ args) : x.Inside (.call p func args keywords) :=
    hcall x (by simp [callExprs, hx])
  unfold callTasks at hv
  dsimp only at hv
  split at hv
  · split at hv
    · refine .of_exprTasks (fun x hx => ?_) hv
      rcases mem_builtinExprs hx with hx | ⟨a, ha, hx⟩
      · exact hcall x hx
      · exact ⟨a, by simp [Expr.evaluated, ha], hx⟩
    · exact .of_exprTasks hcall hv
  next q r t called inner keywords' field =>
    split at hv
    · exact .of_exprTasks hcall hv
    · refine exprPart_methodTasks (fun x hx => ?_) hargs hcall hv
      -- what the name is called with is in the receiver of the method
      have hreceiver : x.Occurs true (.call r (.name t called) inner keywords') :=
        .of_mem (by simp [Expr.evaluated, hx])
      exact ⟨.attr q (.call r (.name t called) inner keywords') field, by simp [Expr.evaluated],
        .evaluated (by simp [Expr.evaluated]) hreceiver⟩
  · exact .of_exprTasks hcall hv

theorem exprPart_of_mem {v : Task} (hv : v ∈ exprParts cfg site e) : ExprPart site e v := by
  cases e with
  | call => exact exprPart_callTasks hv
  | attr _ value =>
    exact .of_exprTasks (fun x hx => ⟨value, by simp [Expr.evaluated], occurs_attrExprs hx⟩) hv
  | subscript _ _ slice =>
    refine .of_exprTasks (fun x hx => ?_) hv
    rcases List.mem_cons.mp hx with rfl | hx
    · exact .of_mem (by simp [Expr.evaluated])
    · exact ⟨slice, by simp [Expr.evaluated], .of_mem (mem_evaluated_of_pieces hx)⟩
  | compare p left ops rights =>
    have hinside (x : Expr) (hx : x = left ∨ x ∈ rights) : x.Inside (.compare p left ops rights) :=
      .of_mem (by simpa [Expr.evaluated, Expr.deferred] using hx)
    simp only [exprParts, compareTasks] at hv
    split at hv
    · cases hv
    · split at hv
      · rcases List.mem_cons.mp hv with rfl | hv
        · exact .use _
        · refine .of_exprTasks (fun x hx => hinside x ?_) hv
          exact (List.mem_cons.mp hx).imp_right List.mem_of_mem_take
      · exact .of_exprTasks (fun x hx => hinside x (mem_chainExprs hx)) hv
  | listComp =>
    simp only [exprParts, comprehensionTasks] at hv
    split at hv
    · rcases List.mem_append.mp hv with hv | hv
      · rw [List.eq_of_mem_replicate hv]
        exact .draw rfl
      · refine .of_exprTasks (fun x hx => .of_mem ?_) hv
        simp only [List.mem_cons, List.mem_append, List.not_mem_nil, or_false] at hx
        simp only [Expr.evaluated, Generator.exprs, List.flatMap_cons, List.flatMap_nil]
        grind
    · cases hv
  | joinedStr =>
    refine .of_exprTasks (fun x hx => ?_) hv
    obtain ⟨value, hvalue, hx⟩ := List.mem_filterMap.mp hx
    refine ⟨value, by simpa [Expr.evaluated, Expr.deferred] using hvalue, ?_⟩
    unfold formatted? at hx
    split at hx
    · cases hx
      exact .of_mem (by simp [Expr.evaluated])
    · cases hx
  | dict | boolOp | list | tuple | binOp | unaryOp | ifExp | lambda | await | yield | yieldFrom | starred =>
    exact .of_exprTasks (fun x _ => .of_mem (by grind [Expr.evaluated, Expr.deferred])) hv
  | absent | name | constant | set | setComp | generatorExp | dictComp | namedExpr | formattedValue
  | slice | index | extSlice => cases hv

/-! ### Parts of statements -/

inductive StmtAction (site : Site) : Stmt → Action → Prop
  | draw {p : At} {isAsync : Bool} {target iter : Expr} {body orelse : List Stmt} :
      StmtAction site (.forLoop p isAsync target iter body orelse) .draw
  | use {s : Stmt} (f : Snippet) : StmtAction site s (.use f)
  | importNames {p : At} {names : List Source.Alias} :
      StmtAction site (.importNames p names) (.imports (names.map Alias.bound))
  | importFrom {p : At} {module : Option String} {names : List Source.Alias} {level : Option Int} :
      StmtAction site (.importFrom p module names level) (.imports (names.map Alias.bound))
  | remark {s : Stmt} (node : Ref) (text : String) : StmtAction site s (.remark node text)
  | scope {h : Header} {body : List Stmt} {returns : Expr} :
      StmtAction site (.functionDef h.pos h.isAsync h.name h.params body h.decorators returns)
        (.scope (site.parameters h) body)
  | catching {p : At} {star : Bool} {body orelse finalbody : List Stmt} {handlers : List Handler}
      (h : handlers.isEmpty = false) :
      StmtAction site (.tryBlock p star body handlers orelse finalbody) (.catching (caughtName handlers))
  | caught {s : Stmt} : StmtAction site s .caught

/-- A part of a statement at a site may stand at another site: in a block, in a function or in a class with a
superclass that is an operand of the statement. -/
inductive LeadsTo (site : Site) (s : Stmt) : Site → Prop
  | here : LeadsTo site s site
  | inner {dest : Site} (h : LeadsTo site s dest) : LeadsTo site s dest.inner
  | inside {dest : Site} (name : String) (isAsync : Bool) (h : LeadsTo site s dest) :
      LeadsTo site s (dest.inside name isAsync)
  | member {dest : Site} {base : Option Expr} (hbase : ∀ b ∈ base, b ∈ s.operands) (h : LeadsTo site s dest) :
      LeadsTo site s (dest.member base)

inductive StmtPart (site : Site) (s : Stmt) : Task → Prop
  | act {a : Action} (h : StmtAction site s a) : StmtPart site s (.act a)
  | expr {dest : Site} {x : Expr} (hto : LeadsTo site s dest) (hx : x.OccursIn s) : StmtPart site s (.expr dest x)
  /-- What stands for the target of an assignment without targets. -/
  | absent : StmtPart site s (.expr site .absent)
  | stmt {dest : Site} {body : List Stmt} {t : Stmt} (hto : LeadsTo site s dest) (hbody : body ∈ s.bodies)
      (ht : t ∈ body) : StmtPart site s (.stmt dest t)
  | undecorated {dest : Site} {body : List Stmt} {t : Stmt} (hto : LeadsTo site s dest) (hbody : body ∈ s.bodies)
      (ht : t ∈ body) : StmtPart site s (.stmt dest t.undecorated)
  | decorators {h : ClassHeader} {body : List Stmt}
      (hs : s = .classDef h.pos h.name h.bases h.keywords body h.decorators)
      (hclass : isExceptionClass h body = false) (hds : h.decorators.isEmpty = false) :
      StmtPart site s (.decorators site h)

section

variable {s : Stmt} {v : Task} {dest : Site}

theorem StmtPart.of_exprTasks (hto : LeadsTo site s dest) (h : ∀ x ∈ es, x.OccursIn s)
    (hv : v ∈ exprTasks dest es) : StmtPart site s v := by
  obtain ⟨x, hx, rfl⟩ := mem_exprTasks.mp hv
  exact .expr hto (h x hx)

theorem StmtPart.of_stmtTasks (hto : LeadsTo site s dest) (hbody : body ∈ s.bodies)
    (hv : v ∈ stmtTasks dest body) : StmtPart site s v := by
  obtain ⟨_, ht, rfl⟩ := mem_stmtTasks.mp hv
  exact .stmt hto hbody ht

theorem mem_defaults_of_mem_withDefaults {names : List String} {ps : Params} {p : String × Default}
    (hp : p ∈ withDefaults names ps) (he : p.2 = .value e) : e ∈ ps.defaults := by
  have hsnd : p.2 ∈ List.replicate (names.length - (ps.defaults.map Default.value).length) Default.none ++
      ps.defaults.map Default.value ++ [Default.emptyDict] := by
    unfold withDefaults at hp
    dsimp only at hp
    split at hp
    · exact (List.of_mem_zip hp).2
    · exact List.mem_append_left _ (List.of_mem_zip hp).2
  simpa [he] using hsnd

theorem Arity.mem_of_mem_select {α : Type} {params : List α} {arity : Arity} {p : α}
    (h : p ∈ arity.select params) : p ∈ params := by
  cases arity with
  | none => simp [select] at h
  | one => exact List.mem_of_mem_take h
  | all => exact h

theorem mem_defaultExprs {h : Header} {generator : Bool} {x : Expr}
    (hx : x ∈ (defaultExprs site h generator).1 ∨ x ∈ (defaultExprs site h generator).2) :
    x ∈ h.params.defaults ∨ x ∈ h.params.kwDefaults := by
  have hgiven (hx : x ∈ ((site.params h).map (·.2.exprs)).flatten) : x ∈ h.params.defaults := by
    obtain ⟨p, hp, hx⟩ := List.mem_flatMap.mp (List.flatMap_def ▸ hx)
    refine mem_defaults_of_mem_withDefaults hp ?_
    cases hd : p.2 <;> simp_all [Default.exprs]
  have hnamed (hx : x ∈ namedDefaults h.params) : x ∈ h.params.kwDefaults := by
    obtain ⟨p, hp, hx⟩ := List.mem_flatMap.mp hx
    obtain rfl : x = p.2 := by grind
    exact (List.of_mem_zip hp).2
  unfold defaultExprs at hx
  dsimp only at hx
  split at hx
  · exact hx.imp hgiven hnamed
  · refine hx.imp (fun hx => hgiven ?_) fun hx => ?_
    · obtain ⟨es, hes, hx⟩ := List.mem_flatten.mp hx
      exact List.mem_flatten.mpr ⟨es, Arity.mem_of_mem_select hes, hx⟩
    · split at hx
      · exact hnamed hx
      · cases hx

theorem stmtPart_functionTasks {h : Header} {returns : Expr} (hv : v ∈ functionTasks site h body) :
    StmtPart site (.functionDef h.pos h.isAsync h.name h.params body h.decorators returns) v := by
  have hinside : LeadsTo site (.functionDef h.pos h.isAsync h.name h.params body h.decorators returns)
      (site.inside h.name h.isAsync) := .inside _ _ .here
  have hdefaults (x : Expr) (hx : x ∈ (defaultExprs site h (isGenerator body)).1 ∨
      x ∈ (defaultExprs site h (isGenerator body)).2) :
      x.OccursIn (.functionDef h.pos h.isAsync h.name h.params body h.decorators returns) :=
    .of_mem (by simp [Stmt.operands, ← or_assoc, mem_defaultExprs hx])
  simp only [functionTasks, List.mem_cons, List.mem_append] at hv
  rcases hv with rfl | (hv | hv) | hv
  · exact .act .scope
  · exact .of_exprTasks hinside (fun x hx => hdefaults x (.inl hx)) hv
  · exact .of_stmtTasks hinside (by simp [Stmt.bodies]) hv
  · exact .of_exprTasks hinside (fun x hx => hdefaults x (.inr hx)) hv

theorem insertAssign_perm (a : String × Expr × Expr) (as : List (String × Expr × Expr)) :
    (insertAssign a as).Perm (a :: as) := by
  fun_induction insertAssign a as with
  | case1 | case2 => exact .refl _
  | case3 b rest _ ih => exact (ih.cons b).trans (.swap a b rest)

theorem sortAssigns_perm (as : List (String × Expr × Expr)) : (sortAssigns as).Perm as := by
  have hfold (acc : List (String × Expr × Expr)) :
      (as.foldl (fun acc a => insertAssign a acc) acc).Perm (acc ++ as) := by
    induction as generalizing acc with
    | nil => simp
    | cons a rest ih => exact (ih _).trans (((insertAssign_perm a acc).append_right rest).trans List.perm_middle.symm)
  exact hfold []

theorem occursIn_of_mem_classAssigns (ha : a ∈ classAssigns body) :
    ∃ t ∈ body, (a.2.1 = .absent ∨ a.2.1 ∈ t.operands) ∧ a.2.2 ∈ t.operands := by
  obtain ⟨t, ht, hsome⟩ := List.mem_filterMap.mp ha
  refine ⟨t, ht, ?_⟩
  split at hsome
  next targets value =>
    cases hsome
    cases targets <;> simp [Stmt.operands]
  · cases hsome
    simp [Stmt.operands]
  · cases hsome

theorem decorators_of_mem_decoratedMethods {m : String × Header} (hm : m ∈ decoratedMethods body) :
    ∃ t ∈ body, ∀ d ∈ m.2.decorators, d ∈ t.operands := by
  obtain ⟨_, -, hfind⟩ := List.mem_filterMap.mp hm
  obtain ⟨t, ht, hsome⟩ := List.mem_filterMap.mp (List.mem_reverse.mp (List.mem_of_find?_eq_some hfind))
  refine ⟨t, ht, ?_⟩
  split at hsome
  · split at hsome
    · cases hsome
      simp +contextual [Stmt.operands]
    · cases hsome
  · cases hsome

theorem stmtPart_methodStmts (hto : LeadsTo site s dest) (hbody : body ∈ s.bodies)
    (hv : v ∈ stmtTasks dest (methodStmts body)) : StmtPart site s v := by
  obtain ⟨_, ht, rfl⟩ := mem_stmtTasks.mp hv
  obtain ⟨_, hm, ht⟩ := List.mem_filterMap.mp ht
  split at ht
  · cases ht
    split
    · exact .undecorated hto hbody hm
    · exact .stmt hto hbody hm
  · cases ht

theorem stmtPart_classTasks {h : ClassHeader} (hclass : isExceptionClass h body = false)
    (hv : v ∈ classTasks site h body) :
    StmtPart site (.classDef h.pos h.name h.bases h.keywords body h.decorators) v := by
  generalize hs : Stmt.classDef h.pos h.name h.bases h.keywords body h.decorators = s
  have hbody : body ∈ s.bodies := by simp [← hs, Stmt.bodies]
  have hbase (b : Expr) (hb : b ∈ h.bases.head?) : b ∈ s.operands := by
    simp [← hs, Stmt.operands, List.mem_of_mem_head? hb]
  have hmember : LeadsTo site s (site.member h.bases.head?) := .member hbase .here
  simp only [classTasks, List.mem_append, List.mem_map] at hv
  rcases hv with ((((⟨f, -, rfl⟩ | hv) | hv) | hv) | hv) | hv
  · exact .act (.use f)
  · exact .of_exprTasks .here (fun x hx => .of_mem (hbase x (by simpa using hx))) hv
  · exact stmtPart_methodStmts hmember hbody hv
  · obtain ⟨x, hx, rfl⟩ := mem_exprTasks.mp hv
    obtain ⟨a, ha, hx⟩ : ∃ a ∈ classAssigns body, x = a.2.1 ∨ x = a.2.2 := by
      simp only [classAssignExprs, List.mem_append, List.mem_flatMap, List.mem_map] at hx
      rcases hx with ⟨a, ha, _⟩ | ⟨a, ha, rfl⟩
      · exact ⟨a, (sortAssigns_perm _).subset ha, .inl (by grind)⟩
      · exact ⟨a, (sortAssigns_perm _).subset ha, .inr rfl⟩
    obtain ⟨_, ht, htarget, hvalue⟩ := occursIn_of_mem_classAssigns ha
    rcases hx with rfl | rfl
    · rcases htarget with htarget | htarget
      · rw [htarget]
        exact .absent
      · exact .expr .here (.body hbody ht (.of_mem htarget))
    · exact .expr .here (.body hbody ht (.of_mem hvalue))
  · obtain ⟨_, hm, hv⟩ := List.mem_flatMap.mp hv
    obtain ⟨_, ht, hds⟩ := decorators_of_mem_decoratedMethods hm
    exact .of_exprTasks (.inside _ _ hmember) (fun x hx => .body hbody ht (.of_mem (hds x hx))) hv
  · split at hv
    · cases hv
    next hds =>
      rw [List.mem_singleton.mp hv]
      exact .decorators hs.symm hclass (by simpa using hds)

def LoopForm.exprs : LoopForm → List Expr
  | .range _ start bound step => start.toList ++ bound.toList ++ step.toList
  | .keys _ object _ | .elements object => [object]
  | .array _ => []

def LoopForm.Binds (target : Expr) : LoopForm → Prop
  | .range var _ _ _ | .keys var _ _ | .array var => target.name? = some var
  | .elements _ => True

theorem binds_of_loopForm {hasElse : Bool} (h : loopForm? target iter hasElse = some form) :
    form.Binds target ∧ ∀ x ∈ form.exprs, x ∈ pieces iter := by
  have harray (h : target.name?.map LoopForm.array = some form) :
      form.Binds target ∧ ∀ x ∈ form.exprs, x ∈ pieces iter := by
    obtain ⟨_, hvar, rfl⟩ := Option.map_eq_some_iff.mp h
    exact ⟨hvar, by simp [LoopForm.exprs]⟩
  unfold loopForm? at h
  dsimp only at h
  split at h
  · split at h
    next hvar => cases h; exact ⟨hvar, by simp [LoopForm.exprs, pieces]⟩
    next hvar => cases h; exact ⟨hvar, by simp [LoopForm.exprs, pieces]⟩
    next hvar => cases h; exact ⟨hvar, by simp [LoopForm.exprs, pieces]⟩
    · split at h
      · exact harray h
      · split at h
        next hvar _ => cases h; exact ⟨hvar, by simp [LoopForm.exprs, pieces]⟩
        · cases h
    · cases h; exact ⟨trivial, by simp [LoopForm.exprs, pieces]⟩
    · exact harray h
  · exact harray h

theorem stmtPart_loopTasks {isAsync : Bool} (hform : loopForm? target iter (!orelse.isEmpty) = some form)
    (hv : v ∈ loopTasks site target iter form) :
    StmtPart site (.forLoop p isAsync target iter body orelse) v := by
  generalize hs : Stmt.forLoop p isAsync target iter body orelse = s
  have hdraw : StmtPart site s (.act .draw) := hs ▸ .act .draw
  have htarget : target.OccursIn s := .of_mem (by simp [← hs, Stmt.operands])
  have hiter : iter ∈ s.operands := by simp [← hs, Stmt.operands]
  have hpieces (x : Expr) (hx : x ∈ form.exprs) : x.OccursIn s :=
    .operand hiter (.of_mem (mem_evaluated_of_pieces ((binds_of_loopForm hform).2 x hx)))
  cases form with
  | range | keys =>
    rcases List.mem_cons.mp hv with rfl | hv
    · exact hdraw
    · exact .of_exprTasks .here hpieces hv
  | elements => exact .of_exprTasks .here (List.forall_mem_cons.mpr ⟨htarget, hpieces⟩) hv
  | array =>
    rcases List.mem_append.mp hv with hv | hv
    · rw [List.eq_of_mem_replicate hv]
      exact hdraw
    · exact .of_exprTasks .here (by simpa using .of_mem hiter) hv

theorem stmtPart_handlerTasks (hto : LeadsTo site s dest)
    (h : ∀ c ∈ handlers, c.type ∈ s.operands ∧ c.body ∈ s.bodies) (hv : v ∈ handlerTasks dest handlers) :
    StmtPart site s v := by
  induction handlers with
  | nil => cases hv
  | cons handler _ ih =>
    obtain ⟨_, _, _, _⟩ := handler
    rw [List.forall_mem_cons] at h
    obtain ⟨⟨htype, hbody⟩, hrest⟩ := h
    rw [handlerTasks] at hv
    split at hv
    · exact .of_stmtTasks hto hbody hv
    · simp only [List.mem_append] at hv
      rcases hv with (hv | hv) | hv
      · refine .of_exprTasks hto (fun x hx => ?_) hv
        exact .operand htype ((mem_instanceExprs hx).resolve_left (by simp))
      · exact .of_stmtTasks hto hbody hv
      · exact ih hrest hv

theorem stmtPart_beginTryTasks {star : Bool} {finalbody : List Stmt}
    {node : Ref} (hv : v ∈ beginTryTasks node handlers) :
    StmtPart site (.tryBlock p star body handlers orelse finalbody) v := by
  simp only [beginTryTasks, List.mem_append, List.mem_flatMap] at hv
  rcases hv with ⟨_, -, hv⟩ | hv
  · split at hv
    · cases hv
    · rw [List.mem_singleton.mp hv]
      exact .act (.remark _ _)
  · split at hv
    · cases hv
    next hne =>
      rw [List.mem_singleton.mp hv]
      exact .act (.catching (by simpa using hne))

theorem stmtPart_of_mem (hv : v ∈ stmtParts site s) : StmtPart site s v := by
  have hexprs {es : List Expr} (h : ∀ x ∈ es, x ∈ s.operands) (hv : v ∈ exprTasks site es) :
      StmtPart site s v := .of_exprTasks .here (fun x hx => .of_mem (h x hx)) hv
  have hblock {body : List Stmt} (h : body ∈ s.bodies) (hv : v ∈ stmtTasks site.inner body) :
      StmtPart site s v := .of_stmtTasks (.inner .here) h hv
  cases s with
  | functionDef p isAsync name params _ ds =>
    exact stmtPart_functionTasks (h := ⟨p, isAsync, name, params, ds⟩) hv
  | classDef p name bases keywords _ ds =>
    rw [stmtParts] at hv
    split at hv
    · cases hv
    next hclass => exact stmtPart_classTasks (h := ⟨p, name, bases, keywords, ds⟩) (by simpa using hclass) hv
  | forLoop _ _ target iter _ orelse =>
    simp only [stmtParts, List.mem_append] at hv
    rcases hv with hv | hv
    · cases hform : loopForm? target iter (!orelse.isEmpty) with
      | none => simp [hform] at hv
      | some => exact stmtPart_loopTasks hform (by simpa [hform] using hv)
    · exact hblock (by simp [Stmt.bodies]) hv
  | whileLoop =>
    simp only [stmtParts, List.mem_append] at hv
    rcases hv with hv | hv
    · exact hexprs (by simp [Stmt.operands]) hv
    · exact hblock (by simp [Stmt.bodies]) hv
  | ifElse =>
    simp only [stmtParts, List.mem_append] at hv
    rcases hv with (hv | hv) | hv
    · exact hexprs (by simp [Stmt.operands]) hv
    · exact hblock (by simp [Stmt.bodies]) hv
    · exact hblock (by simp [Stmt.bodies]) hv
  | raise =>
    simp only [stmtParts, raiseTasks] at hv
    split at hv
    · rw [List.mem_singleton.mp hv]
      exact .act .caught
    · refine .of_exprTasks .here (fun x hx => .operand (List.mem_cons_self ..) ?_) hv
      exact .of_mem (by simp [Expr.evaluated, List.mem_singleton.mp hx])
    · exact hexprs (by simp [Stmt.operands]) hv
  | tryBlock =>
    simp only [stmtParts, List.mem_append] at hv
    rcases hv with ((hv | hv) | hv) | hv
    · exact stmtPart_beginTryTasks hv
    · exact hblock (by simp [Stmt.bodies]) hv
    · refine stmtPart_handlerTasks (.inner .here) (fun c hc => ?_) hv
      exact ⟨List.mem_map_of_mem hc, by simp [Stmt.bodies, List.mem_map_of_mem hc]⟩
    · exact hblock (by simp [Stmt.bodies]) hv
  | assertion =>
    rcases List.mem_cons.mp hv with rfl | hv
    · exact .act (.use _)
    · exact hexprs (by simp [Stmt.operands]) hv
  | importNames =>
    rw [List.mem_singleton.mp hv]
    exact .act .importNames
  | importFrom =>
    rw [List.mem_singleton.mp hv]
    exact .act .importFrom
  | expr =>
    rw [stmtParts] at hv
    split at hv
    · cases hv
    · exact hexprs (by simp [Stmt.operands]) hv
  | assign =>
    refine hexprs (fun x hx => ?_) hv
    unfold assignExprs at hx
    split at hx <;> grind [Stmt.operands]
  | bare | ret | delete | augAssign | annAssign => exact hexprs (by simp [Stmt.operands]) hv
  | withBlock | global | nonlocal | pass | breakLoop | continueLoop | matchBlock => cases hv

end

/-! ### Induction over tasks -/

def Site.All (P : Site → Expr → Prop) : Site → Prop
  | top => True
  | member base outer => (∀ b ∈ base, P outer b) ∧ outer.All P
  | inner outer | inside _ _ outer => outer.All P

theorem Site.All.top : Site.top.All P :=
  trivial

theorem Site.All.superclass (h : site.All P) {m : SiteMethod}
    (hm : site.method? = some m) {b : Site × Expr} (hb : m.superclass = some b) : P b.1 b.2 ∧ b.1.All P := by
  induction site with
  | top => cases hm
  | member _ _ ih => exact ih h.2 hm
  | inner _ ih => exact ih h hm
  | inside name isAsync outer =>
    cases outer with
    | member =>
      simp only [method?, owner?, Option.map_some, Option.some.injEq] at hm
      subst hm
      obtain ⟨e, rfl, rfl⟩ := Option.map_eq_some_iff.mp hb
      exact ⟨h.1 e rfl, h.2⟩
    | top | inner outer | inside name isAsync outer => cases hm

theorem Task.induction {motive : Task → Prop} (cfg : Config) (act : ∀ a, motive (.act a))
    (node : ∀ u, (∀ a, u ≠ .act a) → (∀ v ∈ u.parts cfg, motive v) → motive u) (u : Task) : motive u := by
  -- expressions, if it holds of the superclasses around their site
  have hexpr (e : Expr) (site : Site) (hsite : site.All fun outer b => motive (.expr outer b)) :
      motive (.expr site e) := by
    induction hn : sizeOf e using Nat.strongRecOn generalizing e with
    | ind _ ih =>
      refine node _ (by simp) fun v hv => ?_
      cases exprPart_of_mem hv with
      | inside hx => exact ih _ (hn ▸ hx.sizeOf_lt) _ rfl
      | superclass hm hb => exact (hsite.superclass hm hb).1
      | draw | use => exact act _
  have hsite (site : Site) : site.All fun outer b => motive (.expr outer b) := by
    induction site with
    | top => trivial
    | member _ outer ih => exact ⟨fun b _ => hexpr b outer ih, ih⟩
    | inner outer ih | inside name isAsync outer ih => exact ih
  have hdecorators (site : Site) (h : ClassHeader) : motive (.decorators site h) := by
    refine node _ (by simp) fun v hv => ?_
    obtain ⟨x, -, rfl⟩ := mem_exprTasks.mp hv
    exact hexpr x site (hsite site)
  have hstmt (s : Stmt) (site : Site) : motive (.stmt site s) := by
    induction hn : sizeOf s using Nat.strongRecOn generalizing s site with
    | ind n ih =>
      have hlt {body : List Stmt} {t : Stmt} (hbody : body ∈ s.bodies) (ht : t ∈ body) : sizeOf t < n :=
        hn ▸ Nat.lt_trans (List.sizeOf_lt_of_mem ht) (Source.sizeOf_body hbody)
      refine node _ (by simp) fun v hv => ?_
      cases stmtPart_of_mem hv with
      | act => exact act _
      | expr | absent => exact hexpr _ _ (hsite _)
      | stmt _ hbody ht => exact ih _ (hlt hbody ht) _ _ rfl
      | undecorated _ hbody ht =>
        exact ih _ (Nat.lt_of_le_of_lt (Stmt.sizeOf_undecorated _) (hlt hbody ht)) _ _ rfl
      | decorators => exact hdecorators _ _
  cases u with
  | act a => exact act a
  | expr site e => exact hexpr e site (hsite site)
  | stmt site s => exact hstmt s site
  | decorators site h => exact hdecorators site h

/-! ### Conditions on the source -/

/-- Conditions on expressions, statements and actions that go over from a node to its parts. -/
structure Hereditary (E : Expr → Prop) (S : Stmt → Prop) (A : Action → Prop) : Prop where
  part : ∀ e, ∀ x ∈ e.evaluated ++ e.deferred, E e → E x
  absent : E .absent
  operand : ∀ s, ∀ e ∈ s.operands, S s → E e
  body : ∀ s, ∀ body ∈ s.bodies, S s → ∀ t ∈ body, S t
  undecorated : ∀ s, S s → S s.undecorated
  draw : A .draw
  use : ∀ f, A (.use f)
  act : ∀ site s a, StmtAction site s a → S s → A a

def Task.All (E : Expr → Prop) (S : Stmt → Prop) (A : Action → Prop) : Task → Prop
  | act a => A a
  | expr site e => site.All (fun _ => E) ∧ E e
  | stmt site s => site.All (fun _ => E) ∧ S s
  | decorators site h => site.All (fun _ => E) ∧
    ∃ body, S (.classDef h.pos h.name h.bases h.keywords body h.decorators)

section

variable {E : Expr → Prop} {S : Stmt → Prop} {A : Action → Prop} (h : Hereditary E S A)

include h

theorem Hereditary.occursIn {x : Expr} {s : Stmt} (hx : x.OccursIn s) (hs : S s) : E x := by
  induction hx with
  | operand he hx => exact hx.of_closed h.part (h.operand _ _ he hs)
  | body hbody ht _ ih => exact ih (h.body _ _ hbody hs _ ht)

theorem Hereditary.leadsTo {s : Stmt} {dest : Site} (hto : LeadsTo site s dest) (hs : S s)
    (hsite : site.All fun _ => E) : dest.All fun _ => E := by
  induction hto with
  | here => exact hsite
  | inner _ ih | inside _ _ _ ih => exact ih
  | member hbase _ ih => exact ⟨fun b hb => h.operand _ _ (hbase b hb) hs, ih⟩

theorem Task.All.parts {u v : Task} (hu : u.All E S A) (hv : v ∈ u.parts cfg) : v.All E S A := by
  cases u with
  | act => cases hv
  | expr =>
    obtain ⟨hsite, he⟩ := hu
    cases exprPart_of_mem hv with
    | inside hx => exact ⟨hsite, hx.occurs.of_closed h.part he⟩
    | superclass hm hb => exact (hsite.superclass hm hb).symm
    | draw => exact h.draw
    | use f => exact h.use f
  | stmt site s =>
    obtain ⟨hsite, hs⟩ := hu
    cases stmtPart_of_mem hv with
    | act ha => exact h.act site s _ ha hs
    | expr hto hx => exact ⟨h.leadsTo hto hs hsite, h.occursIn hx hs⟩
    | absent => exact ⟨hsite, h.absent⟩
    | stmt hto hbody ht => exact ⟨h.leadsTo hto hs hsite, h.body _ _ hbody hs _ ht⟩
    | undecorated hto hbody ht =>
      exact ⟨h.leadsTo hto hs hsite, h.undecorated _ (h.body _ _ hbody hs _ ht)⟩
    | @decorators _ body heq => exact ⟨hsite, body, heq ▸ hs⟩
  | decorators =>
    obtain ⟨hsite, _, hs⟩ := hu
    obtain ⟨x, hx, rfl⟩ := mem_exprTasks.mp hv
    exact ⟨hsite, h.operand _ x (by simp [Stmt.operands, hx]) hs⟩

end

/-! ### Words without brackets -/

theorem mem_replaceChars {old new cs : List Char} {fuel : Nat} {c : Char}
    (h : c ∈ replaceChars old new fuel cs) : c ∈ new ∨ c ∈ cs := by
  fun_induction replaceChars old new fuel cs with
  | case1 => exact .inr h
  | case2 => simp at h
  | case3 _ _ _ _ ih =>
    rcases List.mem_append.mp h with h | h
    · exact .inl h
    · exact (ih h).imp_right List.mem_of_mem_drop
  | case4 _ d _ _ ih =>
    rcases List.mem_cons.mp h with rfl | h
    · simp
    · exact (ih h).imp_right (List.mem_cons_of_mem d)

theorem mem_normalizeChars {cs : List Char} {c : Char} (h : c ∈ normalizeChars cs) : c = '$' ∨ c ∈ cs := by
  unfold normalizeChars at h
  split at h
  · simpa using mem_replaceChars h
  · split at h
    · simpa using mem_replaceChars h
    · split at h
      · exact .inr (List.dropLast_subset _ h)
      · exact .inr h

theorem bracketFree_normalizeName {name : String} (h : bracketFree name = true) :
    bracketFree (normalizeName name) = true := by
  simp only [bracketFree, normalizeName, String.toList_ofList, List.all_eq_true] at h ⊢
  intro c hc
  rcases mem_normalizeChars hc with rfl | hc
  · decide
  · exact h c hc

theorem bracketFree_caughtName {handlers : List Handler}
    (h : Source.unbracketedHandlers handlers = true) : bracketFree (caughtName handlers) = true := by
  unfold caughtName
  split
  next handler hlast =>
    have hhandler := Source.unbracketedHandlers_iff.mp h handler (List.mem_of_getLast? hlast)
    split
    next s hs =>
      split
      · decide
      · exact hhandler.2.1 s hs
    · decide
  · decide

abbrev Site.Unbracketed : Site → Prop :=
  Site.All fun _ e => e.unbracketed = true

def Action.Unbracketed : Action → Prop
  | scope _ body => Source.unbracketedBlock body = true
  | catching name => bracketFree name = true
  | _ => True

abbrev Task.Unbracketed : Task → Prop :=
  Task.All (·.unbracketed = true) (·.unbracketed = true) Action.Unbracketed

theorem Action.unbracketed_of_stmt {site : Site} {s : Stmt} {a : Action} (ha : StmtAction site s a)
    (hs : s.unbracketed = true) : a.Unbracketed := by
  cases ha with
  | scope => exact Stmt.unbracketed_body (by simp [Stmt.bodies]) hs
  | catching =>
    simp only [Stmt.unbracketed, Bool.and_eq_true] at hs
    exact bracketFree_caughtName hs.1.1.2
  | _ => trivial

theorem hereditary_unbracketed : Hereditary (·.unbracketed = true) (·.unbracketed = true) Action.Unbracketed where
  part _ _ hx := Expr.unbracketed_part hx
  absent := by decide
  operand _ _ he := Stmt.unbracketed_operand he
  body _ _ hbody hs := Source.unbracketedBlock_iff.mp (Stmt.unbracketed_body hbody hs)
  undecorated s hs := by cases s <;> simp_all [Stmt.undecorated, Stmt.unbracketed]
  draw := trivial
  use _ := trivial
  act _ _ _ ha := Action.unbracketed_of_stmt ha

end Transpiler.Compile
