import Transpiler.Proofs.Compile.Kept
import Transpiler.Proofs.Compile.Prologue

/-!
# Calls of the superclass

`super().m(…)` in a method is compiled to a call of the superclass (`CallsSuper`). In a constructor it always becomes
a call of the constructor of the superclass, whatever `m` is; a capitalised `m` is taken for a class and called with
`new`; and keyword arguments are left out. So the call keeps the method that it names exactly if none of this is the
case (`callsSuper_iff`).
-/

namespace Transpiler.Compile

open Script (Js Origin)
open Source (At Expr Keyword Stmt)

/-! ### Methods around a site -/

namespace Site

/-- The nearest function around a site is a method of a class with the superclass `base`. -/
inductive InMethod (name : String) (isAsync : Bool) (base : Option Expr) (outer : Site) : Site → Prop
  | body : InMethod name isAsync base outer (.inside name isAsync (.member base outer))
  | block {site : Site} (h : InMethod name isAsync base outer site) : InMethod name isAsync base outer site.inner
  | nested {site : Site} (inner : Option Expr) (h : InMethod name isAsync base outer site) :
      InMethod name isAsync base outer (.member inner site)

theorem InMethod.method_place {name : String} {isAsync : Bool} {base : Option Expr} {outer site : Site}
    (h : InMethod name isAsync base outer site) (cfg : Config) : (site.place cfg).method =
      some ⟨name == "__init__", isAsync, base.map fun e => compileExpr cfg (outer.place cfg) e⟩ := by
  induction h with
  | body => rfl
  | block _ ih | nested _ _ ih => exact ih

end Site

/-! ### Calls -/

inductive Called where
  | constructor
  | method (name : String)
  deriving DecidableEq

def calledIn (name field : String) : Called :=
  if name = "__init__" ∧ field = "__init__" then .constructor else .method (normalizeName field)

def superCall (p q r u : At) (field : String) (args : List Expr) (keywords : List Keyword) : Expr :=
  .call p (.attr q (.call r (.name u "super") [] []) field) args keywords

/-- A tree calls the constructor or a method of the superclass with some arguments, and maybe with an object of
keyword arguments after them. A method is found in `super` or in the prototype of the class. -/
inductive CallsSuper (isBase : Js → Prop) : Called → List Js → Bool → Js → Prop
  | constructor {o n : Origin} {js : List Js} {kwargs : Js} {b : Bool} (h : kwargs.isAbsent = !b) :
      CallsSuper isBase .constructor js b (.call o "" (.atom n .super) js kwargs)
  | method {o n n' : Origin} {name : String} {js : List Js} {kwargs : Js} {b : Bool} (h : kwargs.isAbsent = !b) :
      CallsSuper isBase (.method name) js b (.call o "" (.dot n (.atom n' .super) name) js kwargs)
  | prototype {o n m k u v : Origin} {cls : Js} {name : String} {js : List Js} {kwargs : Js} {b : Bool}
      (hcls : isBase cls) (h : kwargs.isAbsent = !b) : CallsSuper isBase (.method name) js b
        (.call o "" (.dot n (.dot m (.dot k (.name u cls) "prototype") name) "call") (.atom v .this :: js) kwargs)

section

variable {isBase : Js → Prop} {called : Called} {js args : List Js} {b : Bool} {o n m k : Origin} {name : String}

theorem callsSuper_constructor_iff :
    CallsSuper isBase called js b (plainCall o (.atom n .super) js) ↔ called = .constructor ∧ b = false := by
  constructor
  · generalize hj : plainCall o (.atom n .super) js = j
    intro h
    cases h <;> cases hj
    next h => exact ⟨rfl, by simpa using h⟩
  · rintro ⟨rfl, rfl⟩
    exact .constructor rfl

theorem callsSuper_method_iff : CallsSuper isBase called js b (plainCall o (.dot n (.atom m .super) name) js) ↔
    called = .method name ∧ b = false := by
  constructor
  · generalize hj : plainCall o _ js = j
    intro h
    cases h <;> cases hj
    next h => exact ⟨rfl, by simpa using h⟩
  · rintro ⟨rfl, rfl⟩
    exact .method rfl

theorem callsSuper_prototype_iff {u v : Origin} {cls : Js} (hcls : isBase cls) :
    CallsSuper isBase called js b (plainCall o (.dot n (.dot m (.dot k (.name u cls) "prototype") name) "call")
      (.atom v .this :: js)) ↔ called = .method name ∧ b = false := by
  constructor
  · generalize hj : plainCall o _ _ = j
    intro h
    cases h <;> cases hj
    next h => exact ⟨rfl, by simpa using h⟩
  · rintro ⟨rfl, rfl⟩
    exact .prototype hcls rfl

theorem not_callsSuper_new {func kwargs : Js} : ¬ CallsSuper isBase called js b (.call o "new " func args kwargs) := by
  generalize hj : Js.call o "new " func args kwargs = j
  intro h
  cases h <;> simp at hj

end

/-! ### What is compiled -/

section

variable {cfg : Config} {p q r u : At} {field : String} {args : List Expr} {keywords : List Keyword}

theorem compileExpr_superCall (p q r u : At) (field : String) (args : List Expr) (keywords : List Keyword)
    {here : Place} {m : Method} (hm : here.method = some m) :
    ∃ o node func, compileExpr cfg here (superCall p q r u field args keywords) =
      if makesObject field then
        callNode cfg o node "new " func (compileExprs cfg here args) keywords (compileValues cfg here keywords)
      else superRule cfg o m field (compileExprs cfg here args) := by
  have hargs : inOrder ((compileOperands cfg here args).map (·.whole)) = compileExprs cfg here args := by
    rw [compileExprs, compileRuns_eq_map, compileOperands_eq_map, List.map_map]
    rfl
  rw [superCall, compileExpr, callRule, hargs]
  simp only [compileReceiver, compileParts, compileRuns, methodRule, hm]
  exact ⟨_, _, _, rfl⟩

variable {all values : Run (List Js)} {func : Run Js} {o : Origin} {node : Source.Ref} {operator : String}
  {s s' : Session} {j : Js}

theorem exists_call_of_callNode (h : callNode cfg o node operator func all keywords values s = .ok j s') :
    ∃ js t t' f kwargs, all t = .ok js t' ∧ j = .call o operator f js kwargs := by
  simp only [callNode, bind_eq_ok_iff] at h
  obtain ⟨_, _, -, f, t, -, js, t', hjs, h⟩ := h
  split at h
  · obtain ⟨rfl, -⟩ := pure_eq_ok_iff.mp h
    exact ⟨js, t, t', f, _, hjs, rfl⟩
  · obtain ⟨_, _, -, h⟩ := bind_eq_ok_iff.mp h
    obtain ⟨rfl, -⟩ := pure_eq_ok_iff.mp h
    exact ⟨js, t, t', f, _, hjs, rfl⟩

theorem callsSuper_superRule {isBase : Js → Prop} {m : Method} (h : superRule cfg o m field all s = .ok j s')
    (hbase : ∀ superclass ∈ m.superclass, ∀ cls t t', superclass t = .ok cls t' → isBase cls) :
    ∃ js t t', all t = .ok js t' ∧ (∃ f as, j = plainCall o f as) ∧ ∀ called b, CallsSuper isBase called js b j ↔
      called = (if m.isInit then .constructor else .method (normalizeName field)) ∧ b = false := by
  rw [superRule] at h
  cases hinit : m.isInit with
  | true =>
    simp only [hinit, if_true, bind_eq_ok_iff, pure_eq_ok_iff] at h
    obtain ⟨js, _, hjs, rfl, rfl⟩ := h
    exact ⟨js, _, _, hjs, ⟨_, _, rfl⟩, fun _ _ => callsSuper_constructor_iff⟩
  | false =>
    cases hasync : m.isAsync with
    | false =>
      simp only [hinit, hasync, Bool.false_eq_true, if_false, Bool.not_false, if_true, bind_eq_ok_iff,
        pure_eq_ok_iff] at h
      obtain ⟨js, _, hjs, rfl, rfl⟩ := h
      exact ⟨js, _, _, hjs, ⟨_, _, rfl⟩, fun _ _ => callsSuper_method_iff⟩
    | true =>
      cases hclass : m.superclass with
      | none =>
        simp only [hinit, hasync, hclass] at h
        cases h
      | some superclass =>
        simp only [hinit, hasync, hclass, Bool.false_eq_true, if_false, Bool.not_true, bind_eq_ok_iff,
          pure_eq_ok_iff] at h
        obtain ⟨_, _, hcls, js, _, hjs, rfl, rfl⟩ := h
        exact ⟨js, _, _, hjs, ⟨_, _, rfl⟩, fun _ _ => callsSuper_prototype_iff (hbase superclass hclass _ _ _ hcls)⟩

variable {site outer : Site} {name : String} {isAsync : Bool} {base : Option Expr}

def IsBase (cfg : Config) (outer : Site) (base : Option Expr) (cls : Js) : Prop :=
  ∃ e ∈ base, ∃ t t', compileExpr cfg (outer.place cfg) e t = .ok cls t'

theorem callsSuper_compileExpr_iff (hin : Site.InMethod name isAsync base outer site)
    (h : compileExpr cfg (site.place cfg) (superCall p q r u field args keywords) s = .ok j s') :
    j ∈ j.nodes ∧ ∃ js t t', compileExprs cfg (site.place cfg) args t = .ok js t' ∧
      (CallsSuper (IsBase cfg outer base) (calledIn name field) js (!keywords.isEmpty) j ↔
        (name = "__init__" → field = "__init__") ∧ makesObject field = false ∧ keywords = []) := by
  obtain ⟨_, _, _, heq⟩ := compileExpr_superCall p q r u field args keywords (hin.method_place cfg)
  rw [heq] at h
  split at h
  next hnew =>
    -- the tree makes an object, so it calls nothing of the superclass
    obtain ⟨js, t, t', _, _, hjs, rfl⟩ := exists_call_of_callNode h
    refine ⟨Js.self_mem_nodes (by rintro v ⟨⟩), js, t, t', hjs, ?_⟩
    exact iff_of_false not_callsSuper_new (by simp [hnew])
  · have hbase : ∀ superclass ∈ base.map fun e => compileExpr cfg (outer.place cfg) e, ∀ cls t t',
        superclass t = .ok cls t' → IsBase cfg outer base cls := by
      intro _ hsuperclass _ t t' hcls
      obtain ⟨e, he, rfl⟩ := Option.map_eq_some_iff.mp hsuperclass
      exact ⟨e, he, t, t', hcls⟩
    obtain ⟨js, t, t', hjs, ⟨_, _, rfl⟩, hcalls⟩ := callsSuper_superRule h hbase
    refine ⟨Js.self_mem_nodes (by rintro v ⟨⟩), js, t, t', hjs, (hcalls _ _).trans ?_⟩
    simp only [calledIn]
    grind

variable {site' : Site} {body : List Stmt} {compiled : Compiled} {script : Js} {v : Visit} {rest : List Visit}

/-- A call of the superclass in a method of a module keeps the method that it names exactly if a constructor names the
constructor, what is named is not capitalised, and there are no keyword arguments. -/
theorem callsSuper_iff (h : compileModule cfg (site.place cfg) body = .ok compiled)
    (hscript : compiled.withLibrary cfg = .ok script) (htrail : ModuleTrail cfg site body (v :: rest))
    (hv : v.task = .expr site' (superCall p q r u field args keywords))
    (hin : Site.InMethod name isAsync base outer site') :
    ∃ j js, Shown script j ∧
      (∃ t, compileExpr cfg (site'.place cfg) (superCall p q r u field args keywords) v.session = .ok j t) ∧
      (∃ t t', compileExprs cfg (site'.place cfg) args t = .ok js t') ∧
      (CallsSuper (IsBase cfg outer base) (calledIn name field) js (!keywords.isEmpty) j ↔
        (name = "__init__" → field = "__init__") ∧ makesObject field = false ∧ keywords = []) := by
  obtain ⟨_, _, _, hrun, -⟩ := exists_script_eq h hscript
  obtain ⟨val, t, hval, -⟩ := htrail.run hrun
  have hrunTask := hval
  rw [hv] at hval
  obtain ⟨j, hj, rfl⟩ := map_eq_ok_iff.mp hval
  obtain ⟨hself, js, t₁, t₂, hjs, hiff⟩ := callsSuper_compileExpr_iff hin hj
  refine ⟨j, js, ?_, ⟨t, hj⟩, ⟨t₁, t₂, hjs⟩, hiff⟩
  exact shown_of_emitted h hscript ⟨v, rest, t, htrail, hrunTask⟩ j hself

end

def classWith (method : String) (stmt : Stmt) : List Stmt :=
  [.classDef none "A" [.name none "B"] [] [.functionDef none false method
    ⟨[], [⟨none, "self", .absent⟩], none, [], [], none, []⟩ [stmt] [] .absent] []]

def fooCall : Expr :=
  superCall none none none none "foo" [.constant none (.number "1")] []

def branchClass : List Stmt :=
  classWith "m" (.ifElse none (.name none "a") [.ret none fooCall] [])

/-- In the branch the call keeps the method. -/
theorem callsSuper_branchClass : ∃ compiled script v rest j js,
    compileModule (.standard true false) (Site.top.place (.standard true false)) branchClass = .ok compiled ∧
    compiled.withLibrary (.standard true false) = .ok script ∧
    ModuleTrail (.standard true false) .top branchClass (v :: rest) ∧
    v.task = .expr (.inner (.inside "m" false (.member (some (.name none "B")) .top))) fooCall ∧ Shown script j ∧
    CallsSuper (IsBase (.standard true false) .top (some (.name none "B"))) (.method "foo") js false j := by
  obtain ⟨script, hboth⟩ := exists_of_isOk
    (x := compileModule (.standard true false) (Site.top.place (.standard true false)) branchClass >>=
      Compiled.withLibrary (.standard true false)) (by decide +kernel)
  obtain ⟨compiled, h, hscript⟩ := bind_eq_ok.mp hboth
  obtain ⟨_, _, _, hrun, -⟩ := exists_script_eq h hscript
  have hstands : Stands .top branchClass (.inner (.inside "m" false (.member (some (.name none "B")) .top)))
      (.ret none fooCall) := by
    refine .inner (.inner (.module (List.mem_singleton_self _)) (List.mem_singleton_self _)
      (List.mem_singleton_self _)) (List.mem_cons_self) (List.mem_singleton_self _)
  obtain ⟨w, rest, htrail, hw⟩ := exists_trail_of_stands hrun hstands
  obtain ⟨v, hv, htrail⟩ := htrail.exists_deeper hrun
    (u := .expr (.inner (.inside "m" false (.member (some (.name none "B")) .top))) fooCall)
    (by rw [hw]; exact List.mem_singleton_self _)
  obtain ⟨j, js, hshown, -, -, hiff⟩ := callsSuper_iff h hscript htrail hv (.block .body)
  exact ⟨compiled, script, v, _, j, js, h, hscript, htrail, hv, hshown, hiff.mpr (by decide)⟩

/-- In a constructor any method of the superclass becomes the constructor. -/
theorem not_callsSuper_in_constructor :
    (∃ script, (compileModule (.standard true false) .top (classWith "__init__" (.expr none fooCall)) >>=
      Compiled.withLibrary (.standard true false)) = .ok script ∧
      script.render? = .ok "class A extends B \x7b\n    constructor() \x7b\n        super(1);\n    \x7d\n\x7d\n") ∧
    ∃ j, compileExpr (.standard true false)
      (Site.place (.standard true false) (.inside "__init__" false (.member (some (.name none "B")) .top))) fooCall
        .start = .ok j .start ∧ ∀ isBase js b, ¬ CallsSuper isBase (.method "foo") js b j := by
  refine ⟨⟨_, rfl, by decide +kernel⟩, _, rfl, fun isBase js b hcalls => ?_⟩
  cases hcalls

end Transpiler.Compile
