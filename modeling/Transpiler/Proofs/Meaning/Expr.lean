import Transpiler.Proofs.Compile.WrittenExpr
import Transpiler.Proofs.Meaning.Fragment
import Transpiler.Proofs.Meaning.Script

/-!
# The meaning of compiled expressions

Integer expressions and conditions are compiled to trees of the same value (`keeps_compileInteger`,
`keeps_compileCondition`), and compiling them leaves the session as it is.
-/

namespace Transpiler.Meaning

open Compile
open Script (Js Origin)
open Source (BoolOp CmpOp Expr)

variable {b : Bool} {symbol : Script.Operator} {o : Origin} {p : Source.At} {es : List Expr} {steps : List (Run Js)}
  {op : Source.BinOp} {goOn : Bool} {x : String} {n : Origin} {left : Run Js} {l : Expr} {ops : List CmpOp}

def Value.toJs : Value → JsValue
  | int n => .number n
  | bool b => .boolean b
  | list ns => .array ns

def Agrees (ρ : Env Value) (σ : Env JsValue) : Prop :=
  ∀ x v, ρ x = some v → σ x = some v.toJs

theorem Agrees.set {ρ : Env Value} {σ : Env JsValue} (h : Agrees ρ σ) (x : String) (v : Value) :
    Agrees (ρ.set x v) (σ.set x v.toJs) := by
  intro y w hw
  by_cases hyx : y = x
  · subst hyx
    obtain rfl : v = w := by simpa using hw
    exact Env.set_self ..
  · rw [Env.set_of_ne _ _ hyx] at hw ⊢
    exact h y w hw

theorem Agrees.bind {xs : List String} : ∀ {vs : List Value} {ρ : Env Value} {σ : Env JsValue},
    Agrees ρ σ → Agrees (Env.bind xs vs ρ) (Env.bind xs (vs.map Value.toJs) σ) := by
  induction xs with
  | nil => exact fun h => h
  | cons x _ ih =>
    rintro (_ | ⟨v, _⟩) _ _ h
    · exact h
    · exact ih (h.set x v)

def Denotes (e : Expr) (j : Js) : Prop :=
  ∀ ρ σ, Agrees ρ σ → ∀ v, evalExpr ρ e = some v → evalJs σ j = some v.toJs

variable {cfg : Config} {here : Place} {s : Session} {lists : List String} {ρ : Env Value}
  {σ : Env JsValue} {e : Expr} {j : Js}

theorem Denotes.evalNumber (h : Denotes e j) (hρ : Agrees ρ σ) {n : Int} (hn : evalInt ρ e = some n) :
    evalNumber σ j = some n := by
  obtain ⟨v, hv, hn⟩ := Option.bind_eq_some_iff.mp hn
  rw [Meaning.evalNumber, h ρ σ hρ v hv]
  cases v <;> simp_all [Value.int?, Value.toJs, JsValue.number?]

theorem Denotes.evalBoolean (h : Denotes e j) (hρ : Agrees ρ σ) (hb : evalBool ρ e = some b) :
    evalBoolean σ j = some b := by
  obtain ⟨v, hv, hb⟩ := Option.bind_eq_some_iff.mp hb
  rw [Meaning.evalBoolean, h ρ σ hρ v hv]
  cases v <;> simp_all [Value.bool?, Value.toJs, JsValue.boolean?]

theorem JsValue.boolean?_eq_some {v : JsValue} (h : v.boolean? = some b) : v = .boolean b := by
  cases v <;> simp_all [JsValue.boolean?]

theorem evalBoolean_eq_some (h : evalBoolean σ j = some b) : evalJs σ j = some (.boolean b) := by
  obtain ⟨_, hv, hb⟩ := Option.bind_eq_some_iff.mp h
  rw [hv, JsValue.boolean?_eq_some hb]

/-! ### Operators -/

theorem keeps_operatorNode (kind : String) (op : Option Script.Operator) :
    Keeps (operatorNode cfg kind op) s fun j => ∃ symbol, op = some symbol ∧ j = .op (cfg.origin none) symbol := by
  cases op with
  | none => exact .throw _
  | some symbol => exact .pure ⟨symbol, rfl, rfl⟩

theorem applyOperator?_arithmetic {f : Int → Int → Int} (h : arithmetic? op = some f)
    (hs : BinOp.operator? op = some symbol) : applyOperator? symbol = some fun a b => .number (f a b) := by
  cases op <;> simp_all [arithmetic?, BinOp.operator?] <;> subst hs <;> subst h <;> rfl

theorem applyOperator?_comparison {op : CmpOp} {f : Int → Int → Bool} (h : comparison? op = some f)
    (hs : CmpOp.operator? op = some symbol) : applyOperator? symbol = some fun a b => .boolean (f a b) := by
  cases op <;> simp_all [comparison?, CmpOp.operator?] <;> subst hs <;> subst h <;> rfl

theorem evalJs_binOp {f : Int → Int → JsValue} (h : applyOperator? symbol = some f) {left right : Js}
    {a b : Int} (ha : evalNumber σ left = some a) (hb : evalNumber σ right = some b) (o n : Origin) :
    evalJs σ (.binOp o left (.op n symbol) right) = some (f a b) := by
  obtain ⟨_, hv, ha⟩ := Option.bind_eq_some_iff.mp ha
  obtain ⟨_, hw, hb⟩ := Option.bind_eq_some_iff.mp hb
  cases symbol <;> first
    | (simp [applyOperator?] at h; done)
    | simp [evalJs, h, hv, ha, hw, hb]

/-! ### Tests that are joined -/

def evalTests (σ : Env JsValue) (goOn : Bool) : List Js → Option Bool
  | [] => some goOn
  | j :: rest => do
    let b ← evalBoolean σ j
    if b = goOn then evalTests σ goOn rest else return b

def joiner (goOn : Bool) : Script.Operator :=
  if goOn then .and else .or

theorem evalTests_binOp {first second : Js} {rest : List Js}
    (h : evalTests σ goOn (first :: second :: rest) = some b) (o n : Origin) :
    evalTests σ goOn (.binOp o first (.op n (joiner goOn)) second :: rest) = some b := by
  simp only [evalTests, Option.bind_eq_bind, Option.bind_eq_some_iff] at h ⊢
  obtain ⟨c, hc, h⟩ := h
  have hfirst := evalBoolean_eq_some hc
  by_cases hgo : c = goOn
  · rw [if_pos hgo] at h
    obtain ⟨d, hd, h⟩ := Option.bind_eq_some_iff.mp h
    refine ⟨d, ?_, h⟩
    subst hgo
    cases c <;> simpa [evalBoolean, evalJs, joiner, hfirst, JsValue.boolean?] using hd
  · rw [if_neg hgo] at h
    refine ⟨c, ?_, by rw [if_neg hgo]; exact h⟩
    cases c <;> cases goOn <;> simp_all [evalBoolean, evalJs, joiner, JsValue.boolean?]

theorem evalJs_foldl (n : Origin) (rest : List Js) : ∀ first : Js, evalTests σ goOn (first :: rest) = some b →
    evalJs σ (rest.foldl (fun acc j => .binOp n acc (.op n (joiner goOn)) j) first) = some (.boolean b) := by
  induction rest with
  | nil =>
    intro _ h
    simp only [evalTests, Option.bind_eq_bind, Option.bind_eq_some_iff] at h
    obtain ⟨c, hc, h⟩ := h
    have hcb : c = b := by
      split at h
      next hgo => simpa [hgo] using h
      · simpa using h
    rw [← hcb]
    exact evalBoolean_eq_some hc
  | cons _ _ ih =>
    intro _ h
    exact ih _ (evalTests_binOp h n n)

theorem evalJs_joinTests {js : List Js} (hjs : js ≠ []) (h : evalTests σ goOn js = some b)
    (o n : Origin) : evalJs σ ((joinTests o n (.op n (joiner goOn)) js).getD .absent) = some (.boolean b) := by
  obtain ⟨j, rest, rfl⟩ := List.exists_cons_of_ne_nil hjs
  have hfold := evalJs_foldl n rest j h
  rcases List.eq_nil_or_concat rest with rfl | ⟨_, _, rfl⟩
  · exact hfold
  · rw [List.concat_eq_append, List.foldl_append] at hfold
    rw [List.concat_eq_append, joinTests_append]
    -- the outermost node differs in its origin only
    cases goOn <;> exact hfold

/-! ### Expressions -/

theorem nameNode_plain (h : isPlainName x = true) : nameNode o x = .name o (.text x) := by
  simp only [isPlainName, specialNames, Bool.and_eq_true, beq_iff_eq, Bool.not_eq_true',
    List.contains_cons, Bool.or_eq_false_iff, beq_eq_false_iff_ne] at h
  obtain ⟨⟨⟨hname, -⟩, hself, -, -, -, htrue, hfalse, hnone, -⟩, -⟩ := h
  simp [nameNode, hself, htrue, hfalse, hnone, hname]

theorem denotes_name (h : isPlainName x = true) : Denotes (.name p x) (nameNode o x) := by
  intro _ _ hρ v hv
  rw [nameNode_plain h]
  exact hρ x v hv

theorem denotes_neg (h : Denotes e j) : Denotes (.unaryOp p .uSub e) (.unaryOp o (.op n .neg) j) := by
  intro _ _ hρ _ hv
  simp only [evalExpr, Option.bind_eq_bind, Option.bind_eq_some_iff] at hv
  obtain ⟨_, hw, a, ha, hv⟩ := hv
  cases hv
  have hj := h.evalNumber hρ (n := a) (by simp [evalInt, hw, ha])
  obtain ⟨_, hu, ha⟩ := Option.bind_eq_some_iff.mp hj
  simp [evalJs, hu, ha, Value.toJs]

theorem denotes_not (h : Denotes e j) : Denotes (.unaryOp p .not e) (.unaryOp o (.op n .not) j) := by
  intro _ _ hρ _ hv
  simp only [evalExpr, Option.bind_eq_bind, Option.bind_eq_some_iff] at hv
  obtain ⟨_, hw, b, hb, hv⟩ := hv
  cases hv
  have hj := h.evalBoolean hρ (b := b) (by simp [evalBool, hw, hb])
  simp [evalJs, evalBoolean_eq_some hj, JsValue.boolean?, Value.toJs]

theorem denotes_binOp {left right : Expr} {l r : Js}
    (hop : BinOp.operator? op = some symbol) (hl : Denotes left l) (hr : Denotes right r) :
    Denotes (.binOp p left op right) (.binOp o l (.op n symbol) r) := by
  intro _ _ hρ _ hv
  simp only [evalExpr, Option.bind_eq_bind, Option.bind_eq_some_iff] at hv
  obtain ⟨_, hf, _, hw, _, ha, _, hu, _, hb, hv⟩ := hv
  cases hv
  exact evalJs_binOp (applyOperator?_arithmetic hf hop)
    (hl.evalNumber hρ (by simp [evalInt, hw, ha])) (hr.evalNumber hρ (by simp [evalInt, hu, hb])) o n

theorem denotes_ifExp {test body orelse : Expr} {t b e : Js} (ht : Denotes test t) (hb : Denotes body b)
    (he : Denotes orelse e) : Denotes (.ifExp p test body orelse) (.ifExp o t b e) := by
  intro ρ σ hρ v hv
  simp only [evalExpr, Option.bind_eq_bind, Option.bind_eq_some_iff] at hv
  obtain ⟨_, hw, c, hc, hv⟩ := hv
  have htest := evalBoolean_eq_some (ht.evalBoolean hρ (b := c) (by simp [evalBool, hw, hc]))
  cases c with
  | true => simpa [evalJs, htest, JsValue.boolean?] using hb ρ σ hρ v hv
  | false => simpa [evalJs, htest, JsValue.boolean?] using he ρ σ hρ v hv

theorem keeps_testNodes (hleft : Keeps left s (Denotes l))
    (hsteps : List.Forall₂ (fun e step => Keeps step s (Denotes e)) es steps) :
    Keeps (testNodes cfg o left ops steps) s fun js => (js = [] → ops = [] ∨ es = []) ∧
      ∀ ρ σ, Agrees ρ σ → ∀ a b, evalInt ρ l = some a → evalChain ρ a ops es = some b →
        evalTests σ true js = some b := by
  induction ops generalizing left l es steps with
  | nil =>
    refine .pure ⟨by simp, fun ρ σ _ a b _ hb => ?_⟩
    cases es with
    | nil => simpa [evalChain, evalTests] using hb
    | cons => simp [evalChain] at hb
  | cons _ _ ih =>
    cases hsteps with
    | nil => exact .pure ⟨by simp, fun ρ σ _ a b _ hb => by simp [evalChain] at hb⟩
    | @cons e _ _ _ hstep hsteps =>
      refine hleft.bind fun _ hlj => (keeps_operatorNode _ _).bind fun _ hopj =>
        hstep.bind fun _ hrj => (ih hstep hsteps).bind fun _ hjs => .pure ⟨by simp, ?_⟩
      obtain ⟨_, hsymbol, rfl⟩ := hopj
      intro ρ σ hρ a b ha hb
      simp only [evalChain, Option.bind_eq_bind, Option.bind_eq_some_iff] at hb
      obtain ⟨f, hf, _, hv, c, hc, hb⟩ := hb
      have hint : evalInt ρ e = some c := by simp [evalInt, hv, hc]
      have htest := evalJs_binOp (applyOperator?_comparison hf hsymbol) (hlj.evalNumber hρ ha)
        (hrj.evalNumber hρ hint) o (cfg.origin none)
      cases hfac : f a c with
      | true =>
        rw [hfac, if_pos rfl] at hb
        simpa [evalTests, evalBoolean, htest, hfac, JsValue.boolean?] using hjs.2 ρ σ hρ c b hint hb
      | false =>
        rw [hfac] at hb
        simpa [evalTests, evalBoolean, htest, hfac, JsValue.boolean?] using hb

theorem keeps_inOrder_bools (hsteps : List.Forall₂ (fun e step => Keeps step s (Denotes e)) es steps)
    (op : BoolOp) : Keeps (inOrder steps) s fun js => js.length = es.length ∧ ∀ ρ σ, Agrees ρ σ → ∀ b,
      evalBools ρ op es = some b → evalTests σ (goesOnAfter op) js = some b := by
  induction hsteps with
  | nil => exact .pure ⟨rfl, fun ρ σ _ b hb => by simpa [evalBools, evalTests] using hb⟩
  | @cons _ _ _ _ hstep _ ih =>
    rw [inOrder, List.mapM_cons]
    refine hstep.bind fun j hj => ih.bind fun _ hjs => .pure ⟨by simp [hjs.1], ?_⟩
    intro ρ σ hρ b hb
    simp only [evalBools, Option.bind_eq_bind, Option.bind_eq_some_iff] at hb
    obtain ⟨_, hv, c, hc, hb⟩ := hb
    have htest := hj.evalBoolean hρ (b := c) (by simp [evalBool, hv, hc])
    by_cases hgo : c = goesOnAfter op
    · rw [if_pos hgo] at hb
      simpa [evalTests, htest, hgo] using hjs.2 ρ σ hρ b hb
    · rw [if_neg hgo] at hb
      simpa [evalTests, htest, hgo] using hb

theorem keeps_boolRule {op : BoolOp} {values : List Expr}
    (hsteps : List.Forall₂ (fun e step => Keeps step s (Denotes e)) values steps) :
    Keeps (boolRule cfg o op values (inOrder steps)) s (Denotes (.boolOp p op values)) := by
  have hall := keeps_inOrder_bools hsteps op
  unfold boolRule
  split
  · exact .throw _
  · exact .throw _
  next hnil _ =>
    refine hall.bind fun js hjs => .pure fun ρ σ hρ v hv => ?_
    have hne : js ≠ [] := by
      rintro rfl
      exact hnil (List.length_eq_zero_iff.mp hjs.1.symm)
    simp only [evalExpr, Option.bind_eq_bind, Option.bind_eq_some_iff] at hv
    obtain ⟨b, hb, hv⟩ := hv
    cases hv
    have := evalJs_joinTests hne (hjs.2 ρ σ hρ b hb) o (cfg.origin none)
    cases op <;> exact this

theorem keeps_compareRule (hops : ops.all (fun op => (comparison? op).isSome) = true) (hleft : Keeps left s (Denotes l))
    (hsteps : List.Forall₂ (fun e step => Keeps step s (Denotes e)) es steps) :
    Keeps (compareRule cfg o ops left steps) s (Denotes (.compare p l ops es)) := by
  unfold compareRule
  split
  · exact .throw _
  next first ops =>
    have hfirst : ¬ ((decide (first = .isIn) || decide (first = .notIn)) && cfg.snippets) = true := by
      rw [List.all_cons, Bool.and_eq_true] at hops
      have hsome := hops.1
      cases first <;> first
        | (cases hsome; done)
        | simp
    rw [if_neg hfirst]
    dsimp only
    split
    · exact .throwBind _
    · refine (keeps_testNodes hleft hsteps).bind fun js hjs => .pure fun ρ σ hρ v hv => ?_
      simp only [evalExpr, Option.bind_eq_bind, Option.bind_eq_some_iff] at hv
      obtain ⟨_, hw, a, ha, b, hb, hv⟩ := hv
      cases hv
      have hne : js ≠ [] := by
        intro hnil
        rcases hjs.1 hnil with h | rfl
        · cases h
        · simp [evalChain] at hb
      exact evalJs_joinTests hne (hjs.2 ρ σ hρ a b (by simp [evalInt, hw, ha]) hb) o (cfg.origin none)

theorem keeps_constantNode (o : Origin) (p : Source.At) (c : Source.Constant) :
    Keeps (constantNode o c) s (Denotes (.constant p c)) := by
  cases c with
  | number =>
    refine .pure fun ρ σ _ v hv => ?_
    rw [evalExpr] at hv
    obtain ⟨_, hn, rfl⟩ := Option.map_eq_some_iff.mp hv
    simp [evalJs, hn, Value.toJs]
  | bool b =>
    refine .pure fun _ _ _ v hv => ?_
    cases b <;> simp_all [evalExpr, evalJs, Value.toJs] <;> rw [← hv]
  | none => exact .pure fun _ _ _ v hv => by simp [evalExpr] at hv
  | str => exact .pure fun _ _ _ v hv => by simp [evalExpr] at hv
  | ellipsis => exact .throw _
  | bytes => exact .throw _

theorem forall₂_compileRuns (h : ∀ e ∈ es, Keeps (compileExpr cfg here e) s (Denotes e)) :
    List.Forall₂ (fun e step => Keeps step s (Denotes e)) es (compileRuns cfg here es) := by
  induction es with
  | nil =>
    rw [compileRuns]
    exact .nil
  | cons _ _ ih =>
    rw [List.forall_mem_cons] at h
    rw [compileRuns]
    exact .cons h.1 (ih h.2)

theorem exprClosed_denotes : ExprClosed fun e => Keeps (compileExpr cfg here e) s (Denotes e) where
  number p digits := by
    rw [compileExpr]
    exact keeps_constantNode _ p _
  bool p b := by
    rw [compileExpr]
    exact keeps_constantNode _ p _
  name p x hx := by
    rw [compileExpr]
    exact .pure (denotes_name hx)
  neg p e he := by
    rw [compileExpr]
    exact he.bind fun j hj => .pure (denotes_neg hj)
  not p e he := by
    rw [compileExpr]
    exact he.bind fun j hj => .pure (denotes_not hj)
  binOp p left op right hop hleft hright := by
    have hpow : op ≠ .pow := by
      rintro rfl
      cases hop
    rw [compileExpr]
    refine hleft.bind fun l hl => ?_
    rw [if_neg hpow]
    refine (keeps_operatorNode _ _).bind fun _ hopj => hright.bind fun r hr => .pure ?_
    obtain ⟨_, hsymbol, rfl⟩ := hopj
    exact denotes_binOp hsymbol hl hr
  ifExp p test body orelse htest hbody horelse := by
    rw [compileExpr]
    exact htest.bind fun t ht => hbody.bind fun b hb => horelse.bind fun e he =>
      .pure (denotes_ifExp ht hb he)
  compare p left ops es hops hleft hes := by
    rw [compileExpr]
    exact keeps_compareRule hops hleft (forall₂_compileRuns hes)
  boolOp p op es hes := by
    rw [compileExpr]
    exact keeps_boolRule (forall₂_compileRuns hes)

theorem keeps_compileInteger (he : isInteger lists e = true) : Keeps (compileExpr cfg here e) s (Denotes e) :=
  exprClosed_denotes.integer e he

theorem keeps_compileCondition (he : isCondition lists e = true) : Keeps (compileExpr cfg here e) s (Denotes e) :=
  exprClosed_denotes.condition e he

end Transpiler.Meaning
