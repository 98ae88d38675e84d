import Transpiler.Proofs.Compile.Collects
import Transpiler.Proofs.Compile.WrittenStmt

/-!
# What the tree of an expression is made of

The tree of an expression wraps the trees of its parts (`collects_compileExpr`). A formatted string is
apart: its parts are written into the text of a template.
-/

namespace Transpiler.Compile

open Script (Js Neutral Operator Origin bracketFree lowerDot neutral_of_bracketFree refsAll_eq_nil)
open Source (BoolOp CmpOp Expr Generator Keyword Ref)
open Source.Tree (allOf)

variable {templates : Templates} {cfg : Config} {site : Site} {here : Place} {D : Demands templates cfg}
  {n : Option Ref} {node : Ref} {field : String}

attribute [local simp] Js.isNode Js.lower Script.lowerAll_eq_map

variable {es ts : List Expr} {H : Prop} {c : Script.Lowering} {call : Config → Run Js} {id : String}

namespace Collects

theorem eachExpr {ι : Type} (is : List ι) (f : ι → Expr) :
    CollectsIn D [] (fun cfg => is.mapM fun i => compileExpr cfg (site.place cfg) (f i)) (exprTasks site (is.map f))
      fun js => js.map .tree := by
  rw [exprTasks, List.map_map, List.map_eq_flatMap]
  simp only [List.map_eq_flatMap]
  exact mapM fun i _ => expr site (f i)

theorem exprs (es : List Expr) :
    CollectsIn D [] (fun cfg => inOrder (es.map (compileExpr cfg (site.place cfg)))) (exprTasks site es)
      fun js => js.map .tree := by
  simp only [inOrder, List.mapM_map]
  simpa using eachExpr es id

theorem values (keywords : List Keyword) : CollectsIn D [] (fun cfg => compileValues cfg (site.place cfg) keywords)
    (exprTasks site (keywords.map Keyword.value)) fun js => js.map .tree := by
  simp only [compileValues_eq_mapM]
  exact eachExpr keywords Keyword.value

theorem optional (site : Site) (e : Expr) :
    CollectsIn D [] (fun cfg => compileExpr cfg (site.place cfg) e) [.expr site e]
      fun j => if e.isAbsent then [] else [.tree j] := by
  have hexpr : CollectsIn D [] (fun cfg => compileExpr cfg (site.place cfg) e) [.expr site e]
      fun j => [.tree j] := expr site e
  cases e with
  | absent =>
    refine ⟨hexpr.does, fun s j s' hj => ?_, hexpr.lowers⟩
    obtain ⟨vs, hvs, hwraps⟩ := hexpr.wraps s j s' hj
    simp only [compileExpr] at hj
    obtain ⟨rfl, rfl⟩ := pure_eq_ok_iff.mp hj
    refine ⟨vs, hvs, hwraps.trans ?_⟩
    constructor <;> simp [Expr.isAbsent]
  | _ => exact hexpr

theorem atMostOne (h : es.length ≤ 1) :
    CollectsIn D [] (fun cfg => inOrder (es.map (compileExpr cfg (site.place cfg)))) (exprTasks site es)
      fun js => js.head?.toList.map .tree := by
  rcases es with _ | ⟨e, _ | ⟨_, _⟩⟩
  · exact .pure (Wraps.makes (.refl []) fun _ => rfl)
  · exact (expr site e).bind fun j _ => .pure (Wraps.makes (.refl _) (by simp +contextual))
  · simp at h

end Collects

/-! ### Rules -/

@[simp]
theorem Config.source_origin_some (cfg : Config) (node : Ref) :
    (cfg.origin (some node)).source = some (cfg.remap.getD node) := by
  rcases h : cfg.remap with _ | r <;> simp [Config.origin, h]

@[simp]
theorem Config.source_origin_none (cfg : Config) : (cfg.origin none).source = cfg.remap :=
  Option.or_none

theorem neutral_callOperator (name : String) : Neutral (callOperator name) := by
  unfold callOperator
  split <;> decide

theorem collects_callNode (ho : D.Covers n) (node : Ref) {operator : String}
    (hoperator : Neutral operator) (func : Expr) (args : List Expr) (keywords : List Keyword) :
    CollectsIn D [] (fun cfg => callNode cfg (cfg.origin n) node operator (compileExpr cfg (site.place cfg) func)
      (inOrder (args.map (compileExpr cfg (site.place cfg)))) keywords
      (compileValues cfg (site.place cfg) keywords)) (exprTasks site (callExprs func args keywords))
      fun j => [.tree j] := by
  refine .check (Does.refuseIf _ _ _) fun _ => ?_
  rw [callExprs, exprTasks_cons, exprTasks_append]
  refine (Collects.expr site func).bind fun f _ => (Collects.exprs args).bind fun _ _ => ?_
  cases keywords with
  | nil => exact .pure (by constructor <;> simp +contextual [ho, hoperator])
  | cons k rest =>
    refine (Collects.values (k :: rest)).andPure fun _ _ => ?_
    constructor <;> simp +contextual [ho, or_imp, hoperator, refsAll_eq_nil]

theorem attrRule_cases (site : Site) (value : Expr) (field : String) :
    (∃ p q keywords m, value = .call p (.name q "super") [] keywords ∧ site.method? = some m) ∨
    (∃ p q item keywords, value = .call p (.name q "list") [item] keywords ∧ field = "append") ∨
    attrExprs site.method?.isSome value field = [value] ∧ ∀ (cfg : Config) node,
      attrRule cfg (site.place cfg) node value field (compileExpr cfg (site.place cfg) value)
        (compileParts cfg (site.place cfg) value).args = (do
          return Js.dot (cfg.origin (some node)) (← compileExpr cfg (site.place cfg) value) (normalizeName field)) := by
  unfold attrExprs
  split
  · split
    next hm => exact .inl ⟨_, _, _, _, rfl, Option.get_mem hm⟩
    · by_cases hfield : field = "append"
      · exact .inr (.inl ⟨_, _, _, _, rfl, hfield⟩)
      · refine .inr (.inr ⟨if_neg (by simpa using hfield), fun _ _ => ?_⟩)
        exact if_neg (by simpa using hfield)
    next hlist hsuper =>
      refine .inr (.inr ⟨rfl, fun _ _ => ?_⟩)
      unfold attrRule
      rw [args_compileParts, Site.method_place]
      dsimp only
      split
      next hm hargs =>
        obtain ⟨_, hm, -⟩ := Option.map_eq_some_iff.mp hm
        exact (hsuper rfl (List.map_eq_nil_iff.mp hargs) (by simp [hm])).elim
      next hargs =>
        obtain ⟨item, hargs, -⟩ := List.map_eq_singleton_iff.mp hargs
        exact (hlist item rfl hargs).elim
      · rfl
  next hvalue =>
    refine .inr (.inr ⟨rfl, fun _ _ => ?_⟩)
    unfold attrRule
    split
    · exact absurd rfl (hvalue _ _ _ _ _)
    · rfl

theorem collects_attrRule (ho : D.Covers (some node)) (value : Expr)
    (hfield : D.words → bracketFree field = true) :
    CollectsIn D [] (fun cfg => attrRule cfg (site.place cfg) node value field
      (compileExpr cfg (site.place cfg) value) (compileParts cfg (site.place cfg) value).args)
      (exprTasks site (attrExprs site.method?.isSome value field)) fun j => [.tree j] := by
  have hname (hD : D.words) : Neutral (normalizeName field) :=
    neutral_of_bracketFree (bracketFree_normalizeName (hfield hD))
  obtain ⟨_, _, _, _, rfl, hm⟩ | ⟨_, _, item, _, rfl, rfl⟩ | ⟨hexprs, hrule⟩ :=
    attrRule_cases site value field
  · simp only [attrRule, args_compileParts, Site.method_place, hm]
    refine .check (Does.refuseIf _ _ _) fun _ => .pure ?_
    constructor <;> simp +contextual [ho, hname]
  · refine (Collects.expr site item).andPure fun j _ => ?_
    constructor <;> simp +contextual +decide [ho]
  · rw [hexprs]
    simp only [hrule]
    refine (Collects.expr site value).andPure fun j _ => ?_
    constructor <;> simp +contextual [ho, hname]

theorem refuseSuper_place (site : Site) (cfg cfg' : Config) (node : Ref) (value : Expr) :
    refuseSuper (site.place cfg') node value = refuseSuper (site.place cfg) node value := by
  unfold refuseSuper
  rw [Site.method_place, Site.method_place]
  cases site.method? with
  | none => rfl
  | some =>
    dsimp only [Option.map_some, SiteMethod.toMethod]
    split
    next hm =>
      cases hm
      rfl
    next hsuper =>
      split
      · exact (hsuper _ _ _ _ rfl rfl).elim
      · rfl

theorem collects_subscriptRule (ho : D.Covers (some node)) (value slice : Expr) :
    CollectsIn D [] (fun cfg => subscriptRule cfg (site.place cfg) node value slice
      (compileExpr cfg (site.place cfg) value) (compileParts cfg (site.place cfg) slice).args)
      (exprTasks site (value :: pieces slice)) fun j => [.tree j] := by
  simp only [args_compileParts, subscriptRule, refuseSuper_place site cfg]
  cases slice with
  | slice _ lower upper =>
    refine .check (Does.refuseIf _ _ _) fun _ => (Collects.expr site value).bind fun j _ =>
      (Collects.optional site lower).bind fun _ _ =>
        (Collects.optional site upper).andPure fun _ _ => ?_
    cases lower.isAbsent <;> cases upper.isAbsent
    all_goals constructor <;> simp +contextual +decide [ho, plainCall, or_imp]
  | index key =>
    refine .check (does_refuseSuper node value) fun _ =>
      (Collects.expr site value).bind fun j _ => (Collects.expr site key).bind fun _ _ => ?_
    split
    · exact .pure (by constructor <;> simp +contextual +decide [ho, plainCall, or_imp])
    · exact .pure (by constructor <;> simp +contextual [ho])
  | _ => exact .check (does_refuseSuper node value) fun _ => .throw _ _ _

theorem collects_pairNodes {target : Config → Run Js}
    (h : CollectsIn D [] target (exprTasks site ts) fun j => [.operand j]) (classes : List Expr) :
    CollectsIn D [] (fun cfg => pairNodes (target cfg) (classes.map (compileExpr cfg (site.place cfg))))
      (exprTasks site (classes.flatMap fun c => ts ++ [c]))
      fun pairs => (pairs.map (·.1)).map .operand ++ (pairs.map (·.2)).map .tree := by
  simp only [pairNodes, List.mapM_map, exprTasks_flatMap]
  refine (Collects.mapM (m := fun p => [.operand p.1, .tree p.2]) fun c _ => ?_).imp fun _ => ?_
  · rw [exprTasks_append]
    exact h.bind fun t _ => (Collects.expr site c).andPure fun j _ => Wraps.makes (.refl _) (by simp +contextual)
  refine .of_mem_iff fun m => ?_
  simp only [List.mem_flatMap, List.mem_cons, List.not_mem_nil, or_false, List.mem_append, List.map_map, List.mem_map]
  constructor
  · rintro ⟨p, hp, rfl | rfl⟩
    · exact .inl ⟨p, hp, rfl⟩
    · exact .inr ⟨p, hp, rfl⟩
  · rintro (⟨p, hp, rfl⟩ | ⟨p, hp, rfl⟩)
    · exact ⟨p, hp, .inl rfl⟩
    · exact ⟨p, hp, .inr rfl⟩

theorem collects_instanceNode (ho : D.Covers n) {x : Config → Run Js}
    (h : CollectsIn D [] x (exprTasks site ts) fun j => [.operand j]) (cls : Expr) :
    CollectsIn D [] (fun cfg => instanceNode cfg (cfg.origin n) (x cfg) cls
      (compileExpr cfg (site.place cfg) cls) (pairNodes (x cfg) (compileParts cfg (site.place cfg) cls).args))
      (exprTasks site (instanceExprs ts cls)) fun j => [.tree j] := by
  have htwice (type object : String) (hobject : Neutral object) : CollectsIn D [] (fun cfg => do
      let a ← x cfg
      let b ← x cfg
      return Js.tests (cfg.origin n) (.op (cfg.origin none) .or)
        [.op (cfg.origin none) .strongEq, .op (cfg.origin none) .instanceOf]
        [.unaryOp (cfg.origin none) (.op (cfg.origin none) .typeOf) a, b]
        [.json (cfg.origin none) (.str type), .name (cfg.origin none) (.text object)])
      (exprTasks site (ts ++ ts)) fun j => [.tree j] := by
    rw [exprTasks_append]
    refine h.bind fun a _ => h.andPure fun b _ => ?_
    constructor <;> simp +contextual [ho, or_imp, hobject]
  simp only [args_compileParts, instanceNode]
  split
  next hseq =>
    rw [instanceExprs, if_pos hseq]
    refine (collects_pairNodes h _).andPure fun pairs _ => ?_
    refine Wraps.makes ?_ (by rintro ⟨_, rfl⟩; simp [Function.comp_def])
    generalize pairs.map (·.1) = lefts
    generalize pairs.map (·.2) = rights
    constructor <;> simp +contextual [ho, refsAll_eq_nil]
  next hseq =>
    split
    next hname =>
      rw [instanceExprs, if_neg hseq, hname]
      exact htwice _ _ (by decide)
    next hname =>
      rw [instanceExprs, if_neg hseq, hname]
      exact htwice _ _ (by decide)
    next hname =>
      rw [instanceExprs, if_neg hseq, hname]
      exact htwice _ _ (by decide)
    next hstr hint hfloat =>
      rw [instanceExprs, if_neg hseq]
      split
      next hname => exact absurd hname hstr
      next hname => exact absurd hname hint
      next hname => exact absurd hname hfloat
      · rw [exprTasks_append]
        refine h.bind fun a _ => (Collects.expr site cls).andPure fun j _ => ?_
        constructor <;> simp +contextual [ho, or_imp]

theorem collects_subclassNodes (target : Expr) (classes : List Expr) :
    CollectsIn D [] (fun cfg => subclassNodes (cfg.origin none) (compileExpr cfg (site.place cfg) target)
      (classes.map (compileExpr cfg (site.place cfg))))
      (exprTasks site (classes.flatMap fun c => [c, target])) fun js => js.map .tree := by
  simp only [subclassNodes, List.mapM_map, exprTasks_flatMap]
  simp only [List.map_eq_flatMap]
  refine Collects.mapM (m := fun j => [.tree j]) fun c _ => (Collects.expr site c).bind fun _ _ =>
    (Collects.expr site target).andPure fun j _ => ?_
  constructor <;> simp +contextual +decide [subclassNode, plainCall, or_imp]

theorem wraps_foldl_binOp {n : Origin} (hn : D.placed → D.origin n) (op : Operator) (first : Js)
    (rest : List Js) :
    Wraps D (.tree first :: rest.map .tree) [.tree (rest.foldl (fun acc r => Js.binOp n acc (.op n op) r) first)] := by
  induction rest generalizing first with
  | nil => exact .refl _
  | cons j rest ih =>
    have hfirst : Wraps D [.tree first, .tree j] [.tree (.binOp n first (.op n op) j)] := by
      constructor <;> simp +contextual [or_imp, hn]
    exact (hfirst.append (.refl (rest.map .tree))).trans (ih _)

theorem joinTests_lower (D : Demands templates cfg) (n : Option Ref) (op : Operator) (js : List Js) :
    (joinTests (D.other.origin n) (D.other.origin none) (.op (D.other.origin none) op) js).map (Js.lower D.lowering) =
      joinTests (cfg.origin n) (cfg.origin none) (.op (cfg.origin none) op) (js.map (Js.lower D.lowering)) := by
  have hfold (rest : List Js) (first : Js) :
      (rest.foldl (fun acc r => Js.binOp (D.other.origin none) acc (.op (D.other.origin none) op) r) first).lower
        D.lowering = (rest.map (Js.lower D.lowering)).foldl
          (fun acc r => Js.binOp (cfg.origin none) acc (.op (cfg.origin none) op) r) (first.lower D.lowering) := by
    induction rest generalizing first with
    | nil => rfl
    | cons _ _ ih => simp [ih]
  rcases js with _ | ⟨_, rest⟩
  · rfl
  · rcases rest.eq_nil_or_concat with rfl | ⟨_, _, rfl⟩
    · rfl
    · simp [joinTests_append, hfold]

theorem wraps_joinTests {o n : Origin} (ho : D.placed → D.origin o) (hn : D.placed → D.origin n)
    (op : Operator) (js : List Js) :
    Wraps D (js.map .tree) [.tree ((joinTests o n (.op n op) js).getD .absent)] := by
  rcases js with _ | ⟨j, rest⟩
  · constructor <;> simp [joinTests]
  · rcases rest.eq_nil_or_concat with rfl | ⟨front, _, rfl⟩
    · exact .refl _
    · rw [List.concat_eq_append, joinTests_append, Option.getD_some, ← List.cons_append, List.map_append]
      refine ((wraps_foldl_binOp hn op j front).append (.refl _)).trans ?_
      constructor <;> simp +contextual [or_imp, ho, hn]

theorem makes_joinTests (ho : D.Covers n) (op : Operator)
    {js js' : List Js} (h : H → js'.map (Js.lower D.lowering) = js) : Makes D H (js.map .tree)
      ((joinTests (cfg.origin n) (cfg.origin none) (.op (cfg.origin none) op) js).getD .absent)
      ((joinTests (D.other.origin n) (D.other.origin none) (.op (D.other.origin none) op) js').getD .absent)
      [.tree ((joinTests (cfg.origin n) (cfg.origin none) (.op (cfg.origin none) op) js).getD .absent)] := by
  refine (wraps_joinTests ho D.origin_none op js).makes fun hH => ?_
  rw [← h hH, ← joinTests_lower]
  exact (Option.getD_map _ _ _).symm

theorem collects_newRule (ho : D.Covers n) (subject : Expr) :
    CollectsIn D [] (fun cfg => newRule cfg (cfg.origin n) ⟨subject, compileExpr cfg (site.place cfg) subject,
      compileParts cfg (site.place cfg) subject⟩) (exprTasks site (newExprs subject))
      fun j => [.tree j] := by
  cases subject with
  | call _ func args keywords =>
    simp only [newRule, compileParts, compileRuns_eq_map]
    exact collects_callNode ho _ (by decide) func args keywords
  | _ => exact .throw _ _ _

theorem numberFunction_lower {cfg cfg' : Config} (hcfg : cfg.Lowers c cfg')
    (hc : c ≠ .dialect) (hfield : field = "parseInt" ∨ field = "parseFloat") :
    (if cfg'.es6 then Js.dot (cfg'.origin none) (.text "Number") field
      else .name (cfg'.origin none) (.text field)).lower c =
      if cfg.es6 then Js.dot (cfg.origin none) (.text "Number") field
      else .name (cfg.origin none) (.text field) := by
  have ho := hcfg.origin none
  cases c with
  | dialect => exact absurd rfl hc
  | same =>
    rw [hcfg.same rfl]
    split <;> simp [lowerDot, ho]
  | functions =>
    rw [(hcfg.differ (by simp)).1, (hcfg.differ (by simp)).2]
    simp [lowerDot, Script.es5Function?, ho, hcfg.unmapped, hfield]

theorem collects_builtinRule (ho : D.Covers (some node)) (f : Builtin)
    (hf : D.lowering = .dialect → f ≠ .int ∧ f ≠ .float) (args : List Expr)
    (hcall : CollectsIn D [] call (exprTasks site es) fun j => [.tree j]) :
    CollectsIn D [] (fun cfg => builtinRule cfg node f (compileOperands cfg (site.place cfg) args) (call cfg))
      (exprTasks site (builtinExprs f args es)) fun j => [.tree j] := by
  have hall : CollectsIn D [] (fun cfg => inOrder ((compileOperands cfg (site.place cfg) args).map (·.whole))) (exprTasks site args)
      fun js => js.map .tree := by
    simp only [compileOperands_eq_map, List.map_map]
    exact Collects.exprs args
  cases f
  case print =>
    refine hall.andPure fun js js' => ?_
    constructor <;> simp +contextual +decide [ho, plainCall, fieldOf]
  case new =>
    rcases args with _ | ⟨subject, _⟩
    · exact .throw _ _ _
    · exact collects_newRule ho subject
  case int =>
    refine hall.andPure fun js _ => ?_
    have hfunction := numberFunction_lower D.lowers (fun hc => (hf hc).1 rfl) (.inl rfl)
    refine Wraps.makes ?_ (by simp +contextual [plainCall, hfunction])
    cases cfg.es6
    all_goals constructor <;> simp +contextual +decide [ho, plainCall]
  case float =>
    refine hall.andPure fun js _ => ?_
    have hfunction := numberFunction_lower D.lowers (fun hc => (hf hc).2 rfl) (.inr rfl)
    refine Wraps.makes ?_ (by simp +contextual [plainCall, hfunction])
    cases cfg.es6
    all_goals constructor <;> simp +contextual +decide [ho, plainCall]
  -- with any other number of arguments it is refused, or an ordinary call
  all_goals
    rcases args with _ | ⟨a, _ | ⟨b, _ | ⟨c, _ | ⟨_, _⟩⟩⟩⟩
    all_goals first | exact hcall | exact .throw _ _ _ | skip
  case typeOf =>
    refine (Collects.expr site a).andPure fun j j' => ?_
    constructor <;> simp +contextual [ho]
  case callable =>
    refine (Collects.expr site a).bind fun _ _ => (Collects.expr site a).andPure fun _ _ => ?_
    constructor <;> simp +contextual +decide [ho, or_imp]
  case isInstance => exact collects_instanceNode ho ((Collects.expr site a).imp .operand) b
  case len =>
    refine (Collects.expr site a).andPure fun j j' => ?_
    constructor <;> simp +contextual +decide [ho]
  case js =>
    refine .check (does_demandText _) fun text => .pure ?_
    constructor <;> simp +contextual [ho]
  case dependImport =>
    refine .check (does_demandText _) fun text => .guard D.lowers.es6 fun _ => .pure ?_
    constructor <;> simp +contextual [ho, Script.Import.masked, Script.Import.Clean]
  case str =>
    refine (Collects.expr site a).andPure fun j _ => ?_
    constructor <;> simp +contextual +decide [ho, plainCall]
  case type =>
    refine (Collects.expr site a).andPure fun j _ => ?_
    constructor <;> simp +contextual +decide [ho, plainCall, fieldOf]
  case tagged =>
    refine .check (does_demandText _) fun _ => .guard D.lowers.es6 fun _ => .pure ?_
    constructor <;> simp +contextual +decide [ho]
  case tagged =>
    refine .check (does_demandText _) fun _ => .guard D.lowers.es6 fun _ =>
      (Collects.expr site b).andPure fun j _ => ?_
    constructor <;> simp +contextual [ho]
  case template =>
    refine .check (does_demandText _) fun _ => .guard D.lowers.es6 fun _ => .pure ?_
    constructor <;> simp +contextual [ho]
  case hasAttr =>
    refine (Collects.expr site b).bind fun k k' => (Collects.expr site a).andPure fun o o' => ?_
    constructor <;> simp +contextual [ho, or_imp]
  case getAttr =>
    refine (Collects.expr site a).bind fun o _ => (Collects.expr site b).andPure fun k _ => ?_
    constructor <;> simp +contextual [ho]
  case getAttr =>
    refine (Collects.expr site a).bind fun o _ => (Collects.expr site b).bind fun k _ =>
      (Collects.expr site c).andPure fun d _ => ?_
    constructor <;> simp +contextual [ho, or_imp]
  case setAttr =>
    refine (Collects.expr site a).bind fun o _ => (Collects.expr site b).bind fun k _ =>
      (Collects.expr site c).andPure fun v _ => ?_
    constructor <;> simp +contextual [ho]
  case isSubclass =>
    have hsteps (cfg : Config) : (if isSequence b then (compileParts cfg (site.place cfg) b).args
        else [compileExpr cfg (site.place cfg) b]) =
        (if isSequence b then pieces b else [b]).map (compileExpr cfg (site.place cfg)) := by
      rw [args_compileParts]
      split <;> rfl
    show CollectsIn D [] (fun cfg => subclassNodes _ _ (if isSequence b then
      (compileParts cfg (site.place cfg) b).args else [compileExpr cfg (site.place cfg) b]) >>= _)
      (exprTasks site (List.flatMap _ _)) _
    simp only [hsteps]
    rw [← List.append_nil (exprTasks site _)]
    refine (collects_subclassNodes a _).bind fun js _ => ?_
    have hjoin := wraps_joinTests D.origin_none D.origin_none .or js
    split
    next htests =>
      rw [htests] at hjoin
      refine .against (z := pure .absent) (.pure ((hjoin.trans ?_).makes False.elim)) fun ⟨_, hjs⟩ _ => ?_
      · constructor <;> simp +contextual [ho]
      · rw [← hjs, lower_trees, ← joinTests_lower, Option.map_eq_some_iff] at htests
        obtain ⟨_, htests', rfl⟩ := htests
        rw [htests']
        exact .pure (by simp)
    · exact .throw _ _ _

theorem collects_superRule (ho : D.Covers n) (m : SiteMethod)
    (hfield : D.words → bracketFree field = true) (args : List Expr) :
    CollectsIn D [] (fun cfg => superRule cfg (cfg.origin n) (m.toMethod cfg) field
      (inOrder (args.map (compileExpr cfg (site.place cfg)))))
      ((if m.isInit || !m.isAsync then [] else (m.superclass.map fun b => Task.expr b.1 b.2).toList) ++
        exprTasks site args) fun j => [.tree j] := by
  have hname (hD : D.words) : Neutral (normalizeName field) :=
    neutral_of_bracketFree (bracketFree_normalizeName (hfield hD))
  obtain ⟨isInit, isAsync, superclass⟩ := m
  cases isInit with
  | true =>
    refine (Collects.exprs args).andPure fun _ _ => ?_
    constructor <;> simp +contextual [ho, plainCall]
  | false =>
    cases isAsync with
    | false =>
      refine (Collects.exprs args).andPure fun _ _ => ?_
      constructor <;> simp +contextual [ho, plainCall, hname]
    | true =>
      cases superclass with
      | none => exact .throw _ _ _
      | some b =>
        refine (Collects.expr b.1 b.2).bind fun _ _ => (Collects.exprs args).andPure fun _ _ => ?_
        constructor <;> simp +contextual +decide [ho, plainCall, or_imp, hname]

theorem collects_methodRule (ho : D.Covers (some node)) (called : String)
    (inner : List Expr) (hfield : D.words → bracketFree field = true) (args : List Expr)
    (hcall : CollectsIn D [] call (exprTasks site es) fun j => [.tree j]) :
    CollectsIn D [] (fun cfg => methodRule cfg (site.place cfg) node called
      (inner.map (compileExpr cfg (site.place cfg))) field
      (inOrder (args.map (compileExpr cfg (site.place cfg)))) (call cfg))
      (methodTasks site called inner field args es) fun j => [.tree j] := by
  unfold methodTasks
  split
  next m hm =>
    simp only [methodRule, List.map_nil, Site.method_place, hm, Option.map_some]
    exact collects_superRule ho m hfield args
  next item =>
    simp only [methodRule, List.map_cons, List.map_nil]
    split
    · refine .guard D.lowers.es6 fun _ => (Collects.expr site item).bind fun j _ =>
        (Collects.exprs args).andPure fun _ _ => ?_
      constructor <;> simp +contextual +decide [ho, plainCall, fieldOf, or_imp]
    · split
      · refine .guard D.lowers.es6 fun _ => (Collects.expr site item).andPure fun j _ => ?_
        constructor <;> simp +contextual +decide [ho, plainCall, fieldOf]
      · exact hcall
  next called inner _ _ _ hdict hsuper =>
    have hrule (cfg : Config) : methodRule cfg (site.place cfg) node called
        (inner.map (compileExpr cfg (site.place cfg))) field
        (inOrder (args.map (compileExpr cfg (site.place cfg)))) (call cfg) = call cfg := by
      unfold methodRule
      rw [Site.method_place]
      dsimp only
      split
      next hinner hm =>
        obtain ⟨m, hm, -⟩ := Option.map_eq_some_iff.mp hm
        exact (hsuper m rfl (List.map_eq_nil_iff.mp hinner) hm).elim
      next hinner =>
        obtain ⟨item, hinner, -⟩ := List.map_eq_singleton_iff.mp hinner
        exact (hdict item rfl hinner).elim
      · rfl
    simp only [hrule]
    exact hcall

theorem eq_of_ofName? {f : Builtin} (h : Builtin.ofName? id = some f) :
    (f = .int → id = "int") ∧ (f = .float → id = "float") := by
  obtain ⟨p, hp, rfl⟩ := Option.map_eq_some_iff.1 h
  have hmem := List.mem_of_find?_eq_some hp
  have hid : p.1 = id := by simpa using List.find?_some hp
  rw [← hid]
  clear hp hid h
  revert p
  decide

def fieldOperator : Expr → String
  | .attr _ _ field => callOperator field
  | _ => ""

theorem collects_callRule (ho : D.Covers (some node)) (func : Expr)
    (hfunc : D.words → func.unbracketed = true)
    (hneutral : D.lowering = .dialect → ∀ p id, func = .name p id → id ≠ "int" ∧ id ≠ "float")
    (args : List Expr) (keywords : List Keyword) :
    CollectsIn D [] (fun cfg => callRule cfg (site.place cfg) node func keywords
      (compileExpr cfg (site.place cfg) func) (compileReceiver cfg (site.place cfg) func).args
      (compileOperands cfg (site.place cfg) args) (compileValues cfg (site.place cfg) keywords))
      (callTasks site func args keywords) fun j => [.tree j] := by
  have hwhole (cfg : Config) : (compileOperands cfg (site.place cfg) args).map (·.whole) =
      args.map (compileExpr cfg (site.place cfg)) := by
    rw [compileOperands_eq_map, List.map_map]
    rfl
  have hcall {operator : String} (hoperator : Neutral operator) : CollectsIn D [] (fun cfg => callNode cfg (cfg.origin (some node)) node operator (compileExpr cfg (site.place cfg) func)
      (inOrder (args.map (compileExpr cfg (site.place cfg)))) keywords
      (compileValues cfg (site.place cfg) keywords)) (exprTasks site (callExprs func args keywords))
      fun j => [.tree j] :=
    collects_callNode ho _ hoperator _ _ _
  unfold callTasks
  dsimp only
  split
  next id =>
    simp only [callRule, hwhole]
    cases hf : Builtin.ofName? id with
    | some f =>
      refine collects_builtinRule ho f (fun hc => ?_) args (hcall (neutral_callOperator _))
      obtain ⟨hint, hfloat⟩ := hneutral hc _ _ rfl
      exact ⟨fun h => hint ((eq_of_ofName? hf).1 h), fun h => hfloat ((eq_of_ofName? hf).2 h)⟩
    | none => exact hcall (neutral_callOperator _)
  · simp only [callRule, hwhole, compileReceiver, args_compileParts]
    split
    · exact hcall (by decide)
    · refine collects_methodRule ho _ _ (fun _ => ?_) args (hcall Script.neutral_empty)
      simp_all [Expr.unbracketed, Expr.every, Expr.hasWords]
  next hname hmethod =>
    have hrule (cfg : Config) : callRule cfg (site.place cfg) node func keywords
        (compileExpr cfg (site.place cfg) func) (compileReceiver cfg (site.place cfg) func).args
        (compileOperands cfg (site.place cfg) args) (compileValues cfg (site.place cfg) keywords) =
        callNode cfg (cfg.origin (some node)) node (fieldOperator func) (compileExpr cfg (site.place cfg) func)
          (inOrder (args.map (compileExpr cfg (site.place cfg)))) keywords
          (compileValues cfg (site.place cfg) keywords) := by
      unfold callRule
      rw [hwhole]
      dsimp only
      split
      · exact (hname _ _ rfl).elim
      · exact (hmethod _ _ _ _ _ _ _ rfl).elim
      · rfl
      next hattr =>
        unfold fieldOperator
        split
        · exact (hattr _ _ _ rfl).elim
        · rfl
    simp only [hrule]
    refine hcall ?_
    unfold fieldOperator
    split
    · exact neutral_callOperator _
    · exact Script.neutral_empty

theorem collects_boolRule (ho : D.Covers n) (op : BoolOp) (values : List Expr) :
    CollectsIn D [] (fun cfg => boolRule cfg (cfg.origin n) op values (inOrder (values.map (compileExpr cfg (site.place cfg)))))
      (exprTasks site values) fun j => [.tree j] := by
  rcases values with _ | ⟨_, _ | ⟨_, _⟩⟩
  · exact .throw _ _ _
  · exact .throw _ _ _
  · exact (Collects.exprs _).andPure fun _ _ => makes_joinTests ho _ And.right

theorem collects_testNodes (ho : D.Covers n) (left : Expr) (ops : List CmpOp)
    (rights : List Expr) :
    CollectsIn D [] (fun cfg => testNodes cfg (cfg.origin n) (compileExpr cfg (site.place cfg) left) ops
      (rights.map (compileExpr cfg (site.place cfg)))) (exprTasks site (chainExprs left ops rights))
      fun js => js.map .tree := by
  induction ops generalizing left rights with
  | nil =>
    simp only [testNodes, chainExprs]
    exact .pure (Wraps.makes (.refl []) fun _ => rfl)
  | cons op ops ih =>
    cases rights with
    | nil => exact .pure (Wraps.makes (.refl []) fun _ => rfl)
    | cons right rest =>
      simp only [testNodes, List.map_cons]
      show CollectsIn D [] _
        ([Task.expr site left] ++ ([Task.expr site right] ++ exprTasks site (chainExprs right ops rest))) _
      refine (Collects.expr site left).bind fun l _ => ?_
      unfold operatorNode
      cases CmpOp.operator? op with
      | none => exact .throwBind _ _ _
      | some =>
        refine (Collects.expr site right).bind fun r _ => (ih right rest).andPure fun _ _ => ?_
        constructor <;> simp +contextual [ho, or_imp]

@[simp]
theorem Snippet.name_ne_bind (f : Snippet) : f.name ≠ "bind" := by
  cases f <;> decide

@[simp]
theorem Snippet.neutral_name (f : Snippet) : Neutral f.name := by
  cases f <;> decide

theorem memberFunction_lower {cfg cfg' : Config} (hcfg : cfg.Lowers c cfg') (hc : c ≠ .dialect) :
    lowerDot c (cfg.origin none) (.text "_pj")
        (if cfg'.es6 then Snippet.containsEs6 else .contains).name =
      .dot (cfg.origin none) (.text "_pj") (if cfg.es6 then Snippet.containsEs6 else .contains).name := by
  cases c with
  | dialect => exact absurd rfl hc
  | same =>
    rw [hcfg.same rfl]
    simp [lowerDot]
  | functions =>
    rw [(hcfg.differ (by simp)).1, (hcfg.differ (by simp)).2]
    simp [lowerDot, Script.es5Function?, Snippet.name, hcfg.unmapped]

section

variable (ho : D.Covers n)

include ho

theorem collects_membership (hc : D.lowering ≠ .dialect)
    (negated : Bool) (left container : Expr) : CollectsIn D [] (fun cfg => do
      useSnippet (if cfg.es6 then .containsEs6 else .contains)
      membershipNode cfg (cfg.origin n) negated (compileExpr cfg (site.place cfg) left)
        (compileExpr cfg (site.place cfg) container))
      (.act (.use (if cfg.es6 then .containsEs6 else .contains)) :: exprTasks site [left, container])
      fun j => [.tree j] := by
  have hfunction := memberFunction_lower D.lowers hc
  have huse := Collects.useSnippet (D := D) (D.lowers.contains hc)
  simp only [membershipNode]
  refine huse.bind fun _ _ => (Collects.expr site left).bind fun l _ =>
    (Collects.expr site container).bind fun c _ => ?_
  generalize (if cfg.es6 then Snippet.containsEs6 else .contains) = f at hfunction ⊢
  cases negated
  all_goals
    refine .pure (Wraps.makes ?_ (by simp +contextual [plainCall, hfunction]))
    constructor <;> simp +contextual +decide [ho, plainCall, or_imp]

theorem collects_compareRule (left : Expr) (ops : List CmpOp)
    (hneutral : D.lowering = .dialect → ∀ op ∈ ops, op ≠ .isIn ∧ op ≠ .notIn) (rights : List Expr) :
    CollectsIn D [] (fun cfg => compareRule cfg (cfg.origin n) ops (compileExpr cfg (site.place cfg) left)
      (rights.map (compileExpr cfg (site.place cfg)))) (compareTasks cfg site left ops rights)
      fun j => [.tree j] := by
  cases ops with
  | nil => exact .throw _ _ _
  | cons first ops =>
    simp only [CollectsIn, compareRule, compareTasks, D.lowers.snippets]
    split
    next hfirst =>
      have hc : D.lowering ≠ .dialect := by
        intro hc
        have hop := hneutral hc first (by simp)
        simp [hop.1, hop.2] at hfirst
      cases rights with
      | nil => exact (Collects.useSnippet (D.lowers.contains hc)).bind fun _ _ => .throw _ _ _
      | cons container => exact collects_membership ho hc _ left container
    · simp only [List.length_map]
      split
      · exact .throwBind _ _ _
      · have hone : ∃ m : Option Ref, (D.Covers m) ∧ ∀ cfg : Config,
            (if (first :: ops).length = 1 then cfg.origin n else cfg.origin none) = cfg.origin m := by
          split_ifs
          · exact ⟨n, ho, fun _ => rfl⟩
          · exact ⟨none, D.origin_none, fun _ => rfl⟩
        obtain ⟨_, hm, hone⟩ := hone
        rw [hone, hone]
        exact (collects_testNodes hm left (first :: ops) rights).andPure fun _ _ =>
          makes_joinTests ho _ And.right

theorem wraps_comprehensionNode (names : LoopNames) {var : String}
    (hvar : D.words → bracketFree var = true) (source : Js) (cond : Option Js) (elt : Js) :
    Wraps D ([Material.drawn names.result] ++ [Material.drawn names.source] ++ [Material.drawn names.index] ++
      [Material.drawn names.bound] ++ [Material.tree source] ++ cond.toList.map .tree ++ [Material.tree elt])
      [.tree (comprehensionNode cfg (cfg.origin n) names var source cond elt)] := by
  have hvar (hD : D.words) : Neutral var := neutral_of_bracketFree (hvar hD)
  cases cond
  all_goals
    constructor <;>
    simp +contextual +decide [ho, comprehensionNode, plainCall, or_imp, neutral_of_bracketFree, hvar]

theorem collects_comprehensionRule (elt : Expr)
    (generators : List Generator) (hwords : D.words → Source.everyGenerator Expr.hasWords generators = true) :
    CollectsIn D [] (fun cfg => comprehensionRule cfg (cfg.origin n) generators
      (compileGenerators cfg (site.place cfg) generators) (compileExpr cfg (site.place cfg) elt))
      (comprehensionTasks site elt generators) fun j => [.tree j] := by
  rcases generators with _ | ⟨⟨target, iter, ifs⟩, _ | ⟨_, _⟩⟩
  · exact .throw _ _ _
  · cases target with
    | name =>
      simp only [comprehensionRule, compileGenerators, compileRuns_eq_map]
      show CollectsIn D [] _ ([Task.act .draw] ++ ([Task.act .draw] ++ ([Task.act .draw] ++
        ([Task.act .draw] ++ ([Task.expr site iter] ++ exprTasks site (ifs ++ [elt])))))) _
      rw [exprTasks_append]
      refine .checkOf (Does.demand _) (Stays.yields fun _ => .demand _) fun _ hifs => ?_
      refine Collects.newName.bind fun result _ => Collects.newName.bind fun source _ =>
        Collects.newName.bind fun index _ => Collects.newName.bind fun bound _ =>
        (Collects.expr site iter).bind fun list _ =>
        (Collects.atMostOne (by simpa using hifs)).bind fun tests tests' =>
        (Collects.expr site elt).andPure fun j _ => ?_
      refine (wraps_comprehensionNode ho ⟨result, source, index, bound⟩ (fun hD => ?_) list tests.head? j).makes ?_
      · have := hwords hD
        simp only [Source.everyGenerator, Expr.every, Expr.hasWords, Bool.and_eq_true] at this
        exact this.1.1.1
      · rintro ⟨⟨⟨⟨⟨⟨⟨_, rfl⟩, rfl⟩, rfl⟩, rfl⟩, rfl⟩, rfl⟩, rfl⟩
        rw [lower_trees, List.head?_map]
        cases tests'.head? <;> simp [comprehensionNode, plainCall]
    | _ => exact .throw _ _ _
  · simp only [comprehensionRule]
    exact .throw _ _ _

end

theorem collects_demandKeys (keys : List Expr) :
    CollectsIn D [] (fun cfg => keys.forM (demandKey cfg)) [] fun _ => [] := by
  have htasks : keys.flatMap (fun _ => ([] : List Task)) = [] := by simp
  rw [← htasks]
  refine Collects.forM fun key _ => ?_
  unfold demandKey
  rcases Key.ofExpr key with _ | ⟨node, _⟩
  · exact .pure (Wraps.makes (.refl []) fun _ => rfl)
  · cases hes6 : cfg.es6 with
    | true =>
      rw [D.lowers.es6 hes6]
      exact .pure (Wraps.makes (.refl []) fun _ => rfl)
    | false => cases node <;> exact .throw _ _ _

theorem collects_keyNodes (keys : List Expr) :
    CollectsIn D [] (fun cfg => keyNodes cfg keys (keys.map (compileExpr cfg (site.place cfg))))
      (exprTasks site keys) fun js => js.map .tree := by
  induction keys with
  | nil => exact .pure (Wraps.makes (.refl []) fun _ => rfl)
  | cons key _ ih =>
    refine (Collects.expr site key).bind fun j _ => ih.andPure fun _ _ => ?_
    cases key.str?.isSome
    all_goals constructor <;> simp +contextual

theorem makes_nameNode (ho : D.Covers (some node)) (hid : D.words → bracketFree id = true) :
    Makes D H [] (nameNode (cfg.origin (some node)) id) (nameNode (D.other.origin (some node)) id)
      [.tree (nameNode (cfg.origin (some node)) id)] := by
  have hid (hD : D.words) : Neutral (normalizeName id) :=
    neutral_of_bracketFree (bracketFree_normalizeName (hid hD))
  unfold nameNode
  split_ifs
  all_goals constructor <;> simp +contextual [ho, hid]

theorem collects_compileExpr (e : Expr) (he : ∀ p values, e ≠ .joinedStr p values)
    (hwords : D.words → e.unbracketed = true) (hneutral : D.lowering = .dialect → e.isNeutral = true)
    (hplaced : D.placed → D.exprs e) :
    CollectsIn D [] (fun cfg => compileExpr cfg (site.place cfg) e) (exprParts cfg site e) fun j => [.tree j] := by
  have ho (h : D.placed) : D.origin (cfg.origin (some e.ref)) := (D.grounds h).expr e (hplaced h)
  cases e
  case joinedStr p values => exact absurd rfl (he p values)
  all_goals simp only [compileExpr]
  case absent => exact .pure (by constructor <;> simp)
  case name p id => exact .pure (makes_nameNode ho fun h => Expr.hasWords_of_unbracketed (hwords h))
  case constant p v =>
    cases v with
    | none => exact .pure (by constructor <;> simp +contextual [ho])
    | bool => exact .pure (by constructor <;> simp +contextual [ho])
    | number digits =>
      refine .pure ?_
      have hdigits (h : D.words) : Neutral digits :=
        neutral_of_bracketFree (Expr.hasWords_of_unbracketed (hwords h))
      constructor <;> simp +contextual [ho, hdigits]
    | str => exact .pure (by constructor <;> simp +contextual [ho])
    | ellipsis | bytes => exact .throw _ _ _
  case attr p value field => exact collects_attrRule ho value fun h => Expr.hasWords_of_unbracketed (hwords h)
  case subscript p value slice => exact collects_subscriptRule ho value slice
  case call p func args keywords =>
    refine collects_callRule ho func (fun h => Expr.unbracketed_part (by simp [Expr.evaluated]) (hwords h)) ?_ args
      keywords
    rintro hc _ _ rfl
    simpa [Expr.isNeutral] using hneutral hc
  case boolOp p op values =>
    simp only [compileRuns_eq_map]
    exact collects_boolRule ho op values
  case binOp p left op right =>
    refine (Collects.expr site left).bind fun l _ => ?_
    split
    · refine (Collects.expr site right).andPure fun r _ => ?_
      constructor <;> simp +contextual +decide [ho, plainCall, fieldOf, or_imp]
    · unfold operatorNode
      cases BinOp.operator? op with
      | none => exact .throwBind _ _ _
      | some =>
        refine (Collects.expr site right).andPure fun r _ => ?_
        constructor <;> simp +contextual [ho, or_imp]
  case unaryOp p op operand =>
    unfold operatorNode
    cases UnaryOp.operator? op with
    | none => exact .throwBind _ _ _
    | some =>
      refine (Collects.expr site operand).andPure fun j j' => ?_
      constructor <;> simp +contextual [ho]
  case compare p left ops comparators =>
    simp only [compileRuns_eq_map]
    exact collects_compareRule ho left ops (fun hc => by simpa [Expr.isNeutral] using hneutral hc) comparators
  case ifExp p test body orelse =>
    refine (Collects.expr site test).bind fun t _ => (Collects.expr site body).bind fun b _ =>
      (Collects.expr site orelse).andPure fun j j' => ?_
    constructor <;> simp +contextual [ho]
  case lambda p params kwDefaults defaults body =>
    refine .check (Does.demand _) fun _ => (Collects.expr site body).andPure fun j _ => ?_
    have hargs (h : D.words) : ∀ a ∈ params.args, Neutral a.name := fun a ha =>
      neutral_of_bracketFree (List.all_eq_true.mp (Expr.hasWords_of_unbracketed (hwords h)) a ha)
    constructor <;> simp +contextual [ho, hargs, refsAll_eq_nil]
  case list p elts | tuple p elts =>
    simp only [compileRuns_eq_map]
    refine (Collects.exprs elts).andPure fun _ _ => ?_
    constructor <;> simp +contextual [ho]
  case dict p keys values =>
    simp only [compileRuns_eq_map, exprParts, exprTasks_append]
    refine (collects_demandKeys keys).bind fun _ _ =>
      (collects_keyNodes keys).bind fun _ _ => (Collects.exprs values).andPure fun _ _ => ?_
    constructor <;> simp +contextual [ho]
  case listComp p elt generators =>
    refine collects_comprehensionRule ho elt generators fun h => ?_
    have hevery : Expr.every Expr.hasWords (.listComp p elt generators) = true := hwords h
    simp only [Expr.every, Bool.and_eq_true] at hevery
    exact hevery.2
  case await p value =>
    refine .guard D.lowers.stage3 fun _ => (Collects.expr site value).andPure fun j _ => ?_
    constructor <;> simp +contextual [ho]
  case yield p value | yieldFrom p value | starred p value =>
    refine (Collects.expr site value).andPure fun j _ => ?_
    constructor <;> simp +contextual [ho]
  case set | setComp | generatorExp | dictComp | namedExpr | formattedValue | slice | index | extSlice => exact .throw _ _ _

theorem does_compileChunks (node : Ref) (values : List Expr) :
    Does templates cfg (compileChunks cfg (site.place cfg) node values)
      (exprTasks site (values.filterMap formatted?)) := by
  induction values with
  | nil => exact .pure ""
  | cons _ _ ih =>
    unfold compileChunks
    split
    · cases ‹_ = []›
    next heq =>
      cases heq
      exact ih.andPure _
    next heq =>
      cases heq
      exact (Does.refuseIf _ _ _).check fun _ => (Does.refuseIf _ _ _).check fun _ =>
        (Does.expr site _).bind fun _ => (Does.ofExcept _).check fun _ => ih.andPure _
    · exact .throw _ _

theorem does_compileExpr (e : Expr) :
    Does templates cfg (compileExpr cfg (site.place cfg) e) (exprParts cfg site e) := by
  by_cases he : ∃ p values, e = .joinedStr p values
  · obtain ⟨_, values, rfl⟩ := he
    rw [compileExpr]
    exact (Does.guardFeature _ _ _).check fun _ => (does_compileChunks _ values).andPure _
  · exact (collects_compileExpr (D := .none templates cfg) e (fun p values heq => he ⟨p, values, heq⟩)
      False.elim (by simp [Demands.none]) False.elim).does

theorem lowers_compileChunks (hsame : D.lowering = .same) (node : Ref) (values : List Expr)
    (h : ∀ u ∈ exprTasks site (values.filterMap formatted?), u.Lowers D) :
    Lowers D.lowering (compileChunks cfg (site.place cfg) node values)
      (compileChunks D.other (site.place D.other) node values) := by
  have hcheck (on : Bool) (what : Refusal) : Does templates cfg (refuseIf on node what) [] := .refuseIf on node what
  have hformat (e : Except Fault String) : Does templates cfg (ofExcept e : Run String) [] := .ofExcept e
  induction values with
  | nil => exact .pure rfl
  | cons _ _ ih =>
    unfold compileChunks
    split
    · cases ‹_ = []›
    next heq =>
      cases heq
      exact (ih h).bind fun _ _ htext => .pure (by rw [← htext]; rfl)
    next heq =>
      cases heq
      refine .checkOf (hcheck _ _) (.any _) fun _ _ => .checkOf (hcheck _ _) (.any _) fun _ _ =>
        ((Collects.expr site _).lowers trivial fun u _ => h u ?_).bind fun j _ hj => ?_
      · simp_all [formatted?, exprTasks]
      · rw [hsame, lower_tree, Js.lower_same] at hj
        rw [hj]
        refine .checkOf (hformat _) (.any _) fun _ _ => (ih fun u _ => h u ?_).bind fun _ _ htext =>
          .pure (by rw [← htext]; rfl)
        simp_all [formatted?, exprTasks]
    · exact .throw _ _

theorem lowers_compileExpr (e : Expr) (hwords : ¬D.words) (hplaced : ¬D.placed)
    (hneutral : D.lowering = .dialect → e.isNeutral = true) (h : ∀ u ∈ exprParts cfg site e, u.Lowers D) :
    Lowers D.lowering (compileExpr cfg (site.place cfg) e) (compileExpr D.other (site.place D.other) e) := by
  by_cases he : ∃ p values, e = .joinedStr p values
  · obtain ⟨_, values, rfl⟩ := he
    rw [compileExpr, compileExpr]
    -- a formatted string needs ES6, so that the dialect is the same
    cases hes6 : cfg.es6 with
    | false => exact .throw _ _
    | true =>
      rw [D.lowers.es6 hes6]
      refine (lowers_compileChunks (D.lowers.eq_same hes6) _ values h).bind fun _ _ htext => .pure ?_
      rw [← htext]
      simp
  · exact (collects_compileExpr e (fun p values heq => he ⟨p, values, heq⟩) (absurd · hwords) hneutral
      (absurd · hplaced)).lowers trivial h

end Transpiler.Compile
