import Transpiler.Proofs.Compile.Prologue
import Transpiler.Proofs.Meaning.Loop
import Transpiler.Proofs.Meaning.Realm

/-!
# What the run-time functions for decorators do

The library has a function that decorates a class and one that decorates its members. Both fold an array of
decorators from its first element on, starting from what is not decorated yet (`callFunction_setClassDecorators`,
`callFunction_setDecorators`).
-/

namespace Transpiler.Meaning

open Compile
open Script (Js Origin)
open Source (Stmt)
open Source.Build

variable {σ ν : Type} (m : Realm σ ν) {a b c o : Origin} {kwargs : Js} {args : List (Datum ν)}
  {f : Env (Datum ν) → List (Datum ν) → Act σ (Option ν)}

/-! ### Decorating -/

namespace Realm

/-- Applies decorators one after the other. Each gets what the one before it gave, and further arguments. -/
def apply (more : List (Datum ν)) (start : ν) (ds : List ν) : Act σ ν :=
  ds.foldlM (fun v d => m.call d (.object v :: more)) start

/-- Whether a value describes a member: it is an object with a value or a getter, and neither a function nor a map. -/
def describes (v : ν) : Act σ Bool :=
  (notM (.anyOf (["Function", "Map", "WeakMap"].map (m.isInstance v))) <&&> m.isInstance v "Object") <&&>
    (m.hasField v "value" <||> m.hasField v "get")

def install (cls : ν) (k : String) (v : ν) : Act σ Unit := do
  if ← m.describes v then
    m.removeMember cls k
    m.defineMember cls k v
  else m.setMember cls k v

def decorateMember (cls : ν) (k : String) (ds : List ν) : Act σ Unit := do
  let v ← m.apply [.object cls, .key k] (← m.member cls k) ds
  m.install cls k v

end Realm

/-! ### Functions and blocks -/

section

variable {templates : Templates} {cfg : Config} {s s' : Session} {j : Js} {js : List Js} {r : Scope σ ν}

theorem execAll_declaring (n : Origin) (vars : List String) : m.execAll (declaring n vars js) r = m.execAll js r := by
  unfold declaring
  split
  · rfl
  · rw [execAll_singleton, exec_statements, execAll_cons_of_on m (exec_declare_absent m n .var true vars)]

theorem paramNames_positional (params : List String) :
    paramNames ((positional false (plainParams params)).map .text) = positional false (plainParams params) := by
  simp [paramNames, List.filterMap_map]

theorem compileBlock_cons_eq_ok {here : Place} {stmt : Stmt} {body : List Stmt}
    (h : compileBlock templates cfg here (stmt :: body) s = .ok js s') :
    ∃ j t rest, compileStmt templates cfg here stmt s = .ok j t ∧
      compileBlock templates cfg here body t = .ok rest s' ∧ js = j :: rest := by
  simp only [compileBlock, bind_eq_ok_iff, pure_eq_ok_iff] at h
  obtain ⟨j, t, hj, rest, _, hrest, rfl, rfl⟩ := h
  exact ⟨j, t, rest, hj, hrest, rfl⟩

variable {name : String} {params : List String} {body : List Stmt}

theorem exists_define (hbody : isGenerator body = false)
    (h : compileStmt templates cfg .top (define name params body) s = .ok j s') :
    ∃ js t t', compileBlock templates cfg .top body t = .ok js t' ∧
      (∀ args, m.callFunction j args =
        m.execAll js ⟨.bind (positional false (plainParams params)) args .empty, .empty⟩ >>= Flow.result) ∧
      ∀ r, m.exec j r = pure (.on (r.define (normalizeName name) fun vars args =>
        m.execAll js ⟨.bind (positional false (plainParams params)) args vars, r.functions⟩ >>= Flow.result)) := by
  obtain ⟨_, js, t, t', hjs, rfl⟩ := compileStmt_define_eq_ok hbody h
  refine ⟨js, t, t', hjs, fun _ => ?_, fun r => ?_⟩
  · rw [Realm.callFunction, execAll_declaring, paramNames_positional]
  · simp only [Realm.exec, execAll_declaring, paramNames_positional]

/-! ### Reducers -/

variable {cls : ν} {k : String} {rows : List (String × List ν)} {ds : List ν} {xs : List String}

def Reduces (f : Env (Datum ν) → List (Datum ν) → Act σ (Option ν)) (xs : List String) : Prop :=
  ∀ vars v d args, xs.mapM vars = some args → f vars [.object v, .object d] = some <$> m.call d (.object v :: args)

theorem execAll_call {names : List Js} {v d : ν}
    (hdeco : r.vars "deco" = some (.object d)) (hval : r.vars "val" = some (.object v))
    (hnames : m.evalData r names = pure args) :
    m.execAll [.ret o (.call a "" (.name b (.text "deco")) (.name c (.text "val") :: names) kwargs)] r >>=
      Flow.result = some <$> m.call d (.object v :: args) := by
  simp [Realm.execAll, Realm.exec, Realm.evalDatum, Realm.evalData, hdeco, hval, hnames, Datum.object?,
    Flow.andThen, Flow.result]

theorem exists_reduces (hxs : xs = ["cls"] ∨ xs = ["cls", "p"])
    (h : compileStmt templates cfg .top (define "reducer" ["val", "deco"]
      [give (call (var "deco") (var "val" :: xs.map var))]) s = .ok j s') :
    ∃ f, Reduces m f xs ∧ m.exec j r = pure (.on (r.define "reducer" f)) := by
  rcases hxs with rfl | rfl
  · obtain ⟨_, _, _, hjs, -, hexec⟩ := exists_define m (by decide) h
    refine ⟨_, fun vars v d args hargs => ?_, hexec r⟩
    cases hjs
    refine execAll_call m rfl rfl ?_
    obtain ⟨a, ha, rfl⟩ : ∃ a, vars "cls" = some a ∧ [a] = args := by
      simpa [Option.bind_eq_some_iff] using hargs
    show m.evalData _ [.name _ (.text "cls")] = _
    simp [Realm.evalData, Realm.evalDatum, positional, plainParams, Env.bind, Env.set, ha]
  · obtain ⟨_, _, _, hjs, -, hexec⟩ := exists_define m (by decide) h
    refine ⟨_, fun vars v d args hargs => ?_, hexec r⟩
    cases hjs
    refine execAll_call m rfl rfl ?_
    obtain ⟨a, ha, b, hb, rfl⟩ : ∃ a, vars "cls" = some a ∧ ∃ b, vars "p" = some b ∧ [a, b] = args := by
      simpa [Option.bind_eq_some_iff] using hargs
    show m.evalData _ [.name _ (.text "cls"), .name _ (.text "p")] = _
    simp [Realm.evalData, Realm.evalDatum, positional, plainParams, Env.bind, Env.set, ha, hb]

theorem evalDatum_reduce {start : Js} {e : Act σ ν} (hf : r.functions "reducer" = some f) (hreduces : Reduces m f xs)
    (hxs : xs.mapM r.vars = some args) (hdecos : r.vars "decos" = some (.array ds))
    (hstart : m.evalDatum r start = Datum.object <$> e) :
    m.evalDatum r (.call o "" (.dot a (.name b (.text "decos")) "reduce") [.name c (.text "reducer"), start] kwargs) =
      Datum.object <$> (e >>= fun v => m.apply args v ds) := by
  simp [Realm.evalDatum, hdecos, hf, hstart, hreduces _ _ _ _ hxs, Realm.apply, Datum.array?, Datum.object?]

theorem callFunction_setClassDecorators
    (h : compileStmt templates cfg .top Snippet.setClassDecorators.source s = .ok j s') :
    m.callFunction j [.object cls, .array ds] = some <$> m.apply [.object cls] cls ds := by
  obtain ⟨_, _, _, hjs, hcall, -⟩ := exists_define m (by decide) h
  obtain ⟨_, _, _, hreducer, hrest, rfl⟩ := compileBlock_cons_eq_ok hjs
  rw [hcall]
  obtain ⟨_, hreduces, hexec⟩ := exists_reduces m (.inl rfl) hreducer
  rw [execAll_cons_of_on m hexec]
  cases hrest
  show m.execAll [.ret _ (.call _ "" (.dot _ (.name _ (.text "decos")) "reduce")
    [.name _ (.text "reducer"), .name _ (.text "cls")] _)] _ >>= Flow.result = _
  rw [Realm.execAll, Realm.exec, evalDatum_reduce m (e := pure cls) rfl hreduces rfl rfl rfl]
  simp [Flow.andThen, Flow.result]

/-! ### Decorating members -/

def installation : Stmt :=
  branch (allOf [neg (isA (var "deco") ["Function", "Map", "WeakMap"]), isA (var "deco") ["Object"],
      anyOf [test (text "value") .isIn (var "deco"), test (text "get") .isIn (var "deco")]])
    [.delete none [item (field (var "cls") "prototype") (var "p")],
      run (method (var "Object") "defineProperty" [field (var "cls") "prototype", var "p", var "deco"])]
    [Source.Build.set (item (field (var "cls") "prototype") (var "p")) (var "deco")]

theorem exec_install {v : ν} (hcfg : cfg.snippets = false) (hcls : r.vars "cls" = some (.object cls))
    (hp : r.vars "p" = some (.key k)) (hdeco : r.vars "deco" = some (.object v))
    (h : compileStmt templates cfg .top installation s = .ok j s') :
    m.exec j r = do
      m.install cls k v
      return .on r := by
  obtain ⟨_, _, _, _, _⟩ := cfg
  subst hcfg
  cases h
  -- the tree, whatever its origins are
  show m.exec (.ifStmt _ (.binOp _ (.binOp _
        (.unaryOp _ (.op _ .not) (.tests _ (.op _ .or) [.op _ .instanceOf, .op _ .instanceOf, .op _ .instanceOf]
          [.name _ (.text "deco"), .name _ (.text "deco"), .name _ (.text "deco")]
          [.name _ (.text "Function"), .name _ (.text "Map"), .name _ (.text "WeakMap")]))
        (.op _ .and) (.binOp _ (.name _ (.text "deco")) (.op _ .instanceOf) (.name _ (.text "Object"))))
      (.op _ .and)
      (.binOp _ (.binOp _ (.json _ (.str "value")) (.op _ .isIn) (.name _ (.text "deco"))) (.op _ .or)
        (.binOp _ (.json _ (.str "get")) (.op _ .isIn) (.name _ (.text "deco")))))
    [.statements _ [.command _ .delete
        (.subscript _ (.dot _ (.name _ (.text "cls")) "prototype") (.name _ (.text "p")))],
      .exprStmt _ (.call _ "" (.dot _ (.name _ (.text "Object")) "defineProperty")
        [.dot _ (.name _ (.text "cls")) "prototype", .name _ (.text "p"), .name _ (.text "deco")] _)]
    [.exprStmt _ (.assign _ (.subscript _ (.dot _ (.name _ (.text "cls")) "prototype") (.name _ (.text "p")))
      (.name _ (.text "deco")))]) r = _
  simp only [Realm.exec, Realm.execAll, Realm.evalTest, Realm.evalRelation, Realm.evalDatum, hdeco, hp, hcls,
    Datum.object?, Datum.members?, Datum.key?, Realm.install, Realm.describes, Flow.andThen, List.zip_cons_cons,
    List.zip_nil_left, List.map_cons, List.map_nil, Act.of_some, pure_bind, bind_assoc]
  congr 1
  funext b
  cases b <;> simp

def turn : List Stmt :=
  [Source.Build.set (var "decos") (item (var "props") (var "p")),
    define "reducer" ["val", "deco"] [give (call (var "deco") [var "val", var "cls", var "p"])],
    Source.Build.set (var "deco")
      (method (var "decos") "reduce" [var "reducer", item (field (var "cls") "prototype") (var "p")]),
    installation]

theorem exec_setDecos (hprops : r.vars "props" = some (.table rows)) (hp : r.vars "p" = some (.key k))
    (hk : rows.lookup k = some ds)
    (h : compileStmt templates cfg .top (Source.Build.set (var "decos") (item (var "props") (var "p"))) s =
      .ok j s') : m.exec j r = pure (.on (r.set "decos" (.array ds))) := by
  cases h
  show m.exec (.exprStmt _ (.assign _ (.name _ (.text "decos"))
    (.subscript _ (.name _ (.text "props")) (.name _ (.text "p"))))) r = _
  simp [Realm.exec, Realm.evalDatum, hprops, hp, Realm.field, hk]

theorem exec_setDeco (hcls : r.vars "cls" = some (.object cls)) (hp : r.vars "p" = some (.key k))
    (hdecos : r.vars "decos" = some (.array ds)) (hf : r.functions "reducer" = some f)
    (hreduces : Reduces m f ["cls", "p"])
    (h : compileStmt templates cfg .top (Source.Build.set (var "deco")
      (method (var "decos") "reduce" [var "reducer", item (field (var "cls") "prototype") (var "p")])) s =
        .ok j s') :
    m.exec j r = do
      let v ← m.apply [.object cls, .key k] (← m.member cls k) ds
      return .on (r.set "deco" (.object v)) := by
  cases h
  show m.exec (.exprStmt _ (.assign _ (.name _ (.text "deco")) (.call _ ""
    (.dot _ (.name _ (.text "decos")) "reduce") [.name _ (.text "reducer"),
      .subscript _ (.dot _ (.name _ (.text "cls")) "prototype") (.name _ (.text "p"))] _))) r = _
  have hmember (o a b c : Origin) : m.evalDatum r (.subscript o (.dot a (.name b (.text "cls")) "prototype")
      (.name c (.text "p"))) = Datum.object <$> m.member cls k := by
    simp [Realm.evalDatum, hcls, hp, Realm.field, Datum.object?]
  have hargs : ["cls", "p"].mapM r.vars = some [.object cls, .key k] := by
    simp [hcls, hp]
  rw [Realm.exec, Realm.exec, evalDatum_reduce m hf hreduces hargs hdecos (hmember _ _ _ _)]
  simp

theorem exists_execAll_turn (hcfg : cfg.snippets = false) (hcls : r.vars "cls" = some (.object cls))
    (hprops : r.vars "props" = some (.table rows)) (hp : r.vars "p" = some (.key k)) (hk : rows.lookup k = some ds)
    (h : compileBlock templates cfg .top turn s = .ok js s') :
    ∃ after : ν → Scope σ ν, (∀ v x, x ≠ "decos" → x ≠ "deco" → (after v).vars x = r.vars x) ∧
      m.execAll js r = do
        let v ← m.apply [.object cls, .key k] (← m.member cls k) ds
        m.install cls k v
        return .on (after v) := by
  obtain ⟨_, _, _, h₁, hrest₁, rfl⟩ := compileBlock_cons_eq_ok h
  obtain ⟨_, _, _, h₂, hrest₂, rfl⟩ := compileBlock_cons_eq_ok hrest₁
  obtain ⟨_, _, _, h₃, hrest₃, rfl⟩ := compileBlock_cons_eq_ok hrest₂
  obtain ⟨j₄, _, _, h₄, hrest₄, rfl⟩ := compileBlock_cons_eq_ok hrest₃
  obtain ⟨rfl, -⟩ := pure_eq_ok_iff.mp hrest₄
  rw [execAll_cons_of_on m (exec_setDecos m hprops hp hk h₁)]
  set r₁ := r.set "decos" (.array ds) with hr₁
  obtain ⟨f, hreduces, hexec⟩ := exists_reduces (r := r₁) m (.inr rfl) h₂
  rw [execAll_cons_of_on m hexec]
  set r₂ := r₁.define "reducer" f with hr₂
  have hbranch (v : ν) : m.execAll [j₄] (r₂.set "deco" (.object v)) = do
      m.install cls k v
      return .on (r₂.set "deco" (.object v)) := by
    rw [Realm.execAll, exec_install m hcfg (by exact hcls) (by exact hp) rfl h₄]
    simp [execAll_nil, Flow.andThen]
  refine ⟨fun v => r₂.set "deco" (.object v), fun v x hdecos hdeco => ?_, ?_⟩
  · simp [Scope.set, Scope.define, hr₂, hr₁, Env.set, hdecos, hdeco]
  · rw [Realm.execAll, exec_setDeco (r := r₂) m (by exact hcls) (by exact hp) rfl rfl hreduces h₃]
    simp [Flow.andThen, hbranch]

theorem compileStmt_each_eq_ok
    (h : compileStmt templates cfg .top (each "p" (call (var "dict") [var "props"]) body) s = .ok j s') :
    ∃ x js t t' o n a, isGenerated x = true ∧ compileBlock templates cfg .top body t = .ok js t' ∧
      j = .statements o [.declare n .var false [x] [.name a (.text "props")],
        .forEach o .keys (.text "p") (.name n (.text x))
          [.ifStmt n (plainCall n (.dot n (.name n (.text x)) "hasOwnProperty") [.name n (.text "p")]) js []]] := by
  rw [each, compileStmt, inFrame_eq_ok_iff] at h
  obtain ⟨_, h, rfl⟩ := h
  simp only [Bool.false_eq_true, if_false, compileLoop, bind_eq_ok_iff] at h
  obtain ⟨_, _, hform, hkeys⟩ := h
  cases hform
  simp only [bind_eq_ok_iff, pure_eq_ok_iff] at hkeys
  obtain ⟨x, _, hx, _, _, hprops, js, _, hjs, rfl, rfl⟩ := hkeys
  cases hprops
  exact ⟨x, js, _, _, _, _, _, isGenerated_of_generatedName? (ends_newName _ _ _ hx).1, hjs, rfl⟩

structure Ready (r : Scope σ ν) (x : String) (cls : ν) (rows : List (String × List ν)) : Prop where
  cls : r.vars "cls" = some (.object cls)
  props : r.vars "props" = some (.table rows)
  source : r.vars x = some (.table rows)

variable {x : String} {n : Origin}

def Decorates (turn : Scope σ ν → Act σ (Flow σ ν)) (x : String) (cls : ν) (rows : List (String × List ν)) : Prop :=
  ∀ r k ds, Ready r x cls rows → rows.lookup k = some ds →
    ∃ after : ν → Scope σ ν, (∀ v, Ready (after v) x cls rows) ∧ turn (r.set "p" (.key k)) = do
      let v ← m.apply [.object cls, .key k] (← m.member cls k) ds
      m.install cls k v
      return .on (after v)

theorem evalTest_hasOwnProperty (hx : isGenerated x = true) (hr : Ready r x cls rows) (k : String) :
    m.evalTest (r.set "p" (.key k))
      (plainCall n (.dot n (.name n (.text x)) "hasOwnProperty") [.name n (.text "p")]) =
        if (rows.lookup "hasOwnProperty").isSome then failure else pure (rows.lookup k).isSome := by
  have hne : x ≠ "p" := by
    rintro rfl
    cases hx
  have hsource : (r.set "p" (.key k)).vars x = some (.table rows) := (r.vars_set_of_ne _ hne).trans hr.source
  simp only [plainCall, Realm.evalTest, Realm.evalDatum, Scope.vars_set_self, hsource, Datum.table?, Datum.key?,
    Act.of_some, pure_bind]
  split <;> rfl

theorem decorates_turn (hcfg : cfg.snippets = false) (hx : isGenerated x = true)
    (h : compileBlock templates cfg .top turn s = .ok js s') (hown : rows.lookup "hasOwnProperty" = none) :
    Decorates m (m.execAll
      [.ifStmt n (plainCall n (.dot n (.name n (.text x)) "hasOwnProperty") [.name n (.text "p")]) js []])
      x cls rows := by
  have hne {y : String} (hy : isGenerated y = false) : x ≠ y := by
    rintro rfl
    rw [hx] at hy
    cases hy
  intro r k _ hr hk
  have hvars {y : String} (hy : y ≠ "p") : (r.set "p" (.key k)).vars y = r.vars y :=
    r.vars_set_of_ne _ hy
  obtain ⟨after, hafter, hexec⟩ := exists_execAll_turn (r := r.set "p" (.key k)) m hcfg
    (by rw [hvars (by decide), hr.cls]) (by rw [hvars (by decide), hr.props]) (r.vars_set_self _ _) hk h
  refine ⟨after, fun v => ⟨?_, ?_, ?_⟩, ?_⟩
  · rw [hafter v _ (by decide) (by decide), hvars (by decide), hr.cls]
  · rw [hafter v _ (by decide) (by decide), hvars (by decide), hr.props]
  · rw [hafter v _ (hne (by decide)) (hne (by decide)), hvars (hne (by decide)), hr.source]
  · simp [Realm.execAll, Realm.exec, evalTest_hasOwnProperty m hx hr, hown, hk, hexec, Flow.andThen]

theorem Decorates.eachKey {turn : Scope σ ν → Act σ (Flow σ ν)} (hturn : Decorates m turn x cls rows)
    {more : List (String × List ν)} (hmore : ∀ row ∈ more, rows.lookup row.1 = some row.2)
    (hr : Ready r x cls rows) :
    eachKey "p" turn (more.map (·.1)) r >>= Flow.result = do
      more.forM fun row => m.decorateMember cls row.1 row.2
      return none := by
  induction more generalizing r with
  | nil => simp [Meaning.eachKey, Flow.result]
  | cons row _ ih =>
    obtain ⟨_, hready, hexec⟩ := hturn r row.1 row.2 hr (hmore row List.mem_cons_self)
    have hrest := fun v => ih (fun row hrow => hmore row (List.mem_cons_of_mem _ hrow)) (hready v)
    simp [Meaning.eachKey, hexec, Flow.andThen, Realm.decorateMember, hrest]

theorem exec_each {body : List Js} (hprops : r.vars "props" = some (.table rows)) :
    m.exec (.statements o [.declare n .var false [x] [.name a (.text "props")],
      .forEach o .keys (.text "p") (.name n (.text x)) body]) r =
        eachKey "p" (m.execAll body) (rows.map (·.1)) (r.set x (.table rows)) := by
  have hdeclare : m.exec (.declare n .var false [x] [.name a (.text "props")]) r =
      pure (.on (r.set x (.table rows))) := by
    simp [Realm.exec, Realm.declareVars, Js.isAbsent, Realm.evalDatum, hprops]
  rw [Realm.exec, execAll_cons_of_on m hdeclare, Realm.execAll, Realm.exec]
  simp [Realm.evalDatum, Datum.table?, execAll_nil, Flow.andThen_on]

theorem exists_callFunction_setDecorators (cls : ν) (rows : List (String × List ν))
    (h : compileStmt templates cfg .top Snippet.setDecorators.source s = .ok j s') :
    ∃ x js t t' n, isGenerated x = true ∧ compileBlock templates cfg .top turn t = .ok js t' ∧
      ∃ r : Scope σ ν, Ready r x cls rows ∧ m.callFunction j [.object cls, .table rows] = eachKey "p" (m.execAll
          [.ifStmt n (plainCall n (.dot n (.name n (.text x)) "hasOwnProperty") [.name n (.text "p")]) js []])
          (rows.map (·.1)) r >>= Flow.result := by
  obtain ⟨js, t, t', hjs, hcall, -⟩ := exists_define m (by decide) h
  obtain ⟨_, _, _, hglobals, hrest, rfl⟩ := compileBlock_cons_eq_ok hjs
  obtain ⟨_, _, _, hloop, hnil, rfl⟩ := compileBlock_cons_eq_ok hrest
  obtain ⟨rfl, -⟩ := pure_eq_ok_iff.mp hnil
  cases hglobals
  obtain ⟨x, js, t, t', _, n, _, hx, hturn, rfl⟩ := compileStmt_each_eq_ok hloop
  have hne {y : String} (hy : isGenerated y = false) : y ≠ x := by
    rintro rfl
    rw [hx] at hy
    cases hy
  set r : Scope σ ν := ⟨.bind (positional false (plainParams ["cls", "props"])) [.object cls, .table rows] .empty,
    .empty⟩ with hr
  have hcls : r.vars "cls" = some (.object cls) := rfl
  have hprops : r.vars "props" = some (.table rows) := rfl
  refine ⟨x, js, t, t', n, hx, hturn, r.set x (.table rows), ⟨?_, ?_, r.vars_set_self _ _⟩, ?_⟩
  · exact (r.vars_set_of_ne _ (hne (by decide))).trans hcls
  · exact (r.vars_set_of_ne _ (hne (by decide))).trans hprops
  · rw [hcall, execAll_cons_of_on m rfl, Realm.execAll, exec_each m hprops]
    simp [execAll_nil, Flow.andThen_on]

omit m in
theorem lookup_eq_some_of_mem (hkeys : (rows.map (·.1)).Nodup) {row : String × List ν} (hrow : row ∈ rows) :
    rows.lookup row.1 = some row.2 := by
  obtain ⟨front, back, rfl⟩ := List.append_of_mem hrow
  refine List.lookup_eq_some_iff.mpr ⟨front, back, rfl, fun _ hother => ?_⟩
  rw [bne_iff_ne]
  intro heq
  rw [List.map_append, List.map_cons, List.nodup_append] at hkeys
  exact hkeys.2.2 _ (List.mem_map_of_mem hother) _ List.mem_cons_self heq.symm

theorem callFunction_setDecorators (hcfg : cfg.snippets = false) (hkeys : (rows.map (·.1)).Nodup)
    (h : compileStmt templates cfg .top Snippet.setDecorators.source s = .ok j s') :
    m.callFunction j [.object cls, .table rows] =
      if (rows.lookup "hasOwnProperty").isSome then failure
      else do
        rows.forM fun row => m.decorateMember cls row.1 row.2
        return none := by
  obtain ⟨_, _, _, _, _, hx, hturn, _, hr, hcall⟩ := exists_callFunction_setDecorators m cls rows h
  rw [hcall]
  split
  next hown =>
    -- the first turn asks whether its key is a field of the table
    obtain ⟨_, _, rfl⟩ := List.exists_cons_of_ne_nil (l := rows) (by rintro rfl; simp at hown)
    simp [eachKey, Realm.execAll, Realm.exec, evalTest_hasOwnProperty m hx hr, hown]
  next hown =>
    exact (decorates_turn m hcfg hx hturn (Option.not_isSome_iff_eq_none.mp hown)).eachKey m
      (fun _ => lookup_eq_some_of_mem hkeys) hr

end

end Transpiler.Meaning
