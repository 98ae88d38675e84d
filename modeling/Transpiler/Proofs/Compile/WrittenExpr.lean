import Transpiler.Proofs.Compile.Written

/-!
# What is written for expressions

The tree of an expression matches the marks of the expression (`emits_compileExpr`). There is one
lemma for each rule, which assumes it of the parts that the rule is given.
-/

namespace Transpiler.Compile

open Script (Js Origin Trait Writes Quotes traitsAll traitsAll_map_eq_nil)
open Source (BoolOp CmpOp Expr Generator Keyword Ref)

variable {es6 : Bool} {operands : List Operand} {om : List OperandMarks} {n o : Origin} {op : Js} {js : List Js}
  {α : Type} {values : Run (List Js)} {ms vm : List Mark} {a : Operand} {m : OperandMarks} {text : String}

/-! ### The node of an expression -/

section

variable (cfg : Config) (here : Place)

/-- Only the displays of lists and tuples are compiled to arrays, and nothing is compiled to a leaf. -/
def HasShape (display : Bool) (j : Js) : Prop :=
  j.isText = false ∧ j.isList = display

theorem shape_nameNode (o : Origin) (id : String) : HasShape false (nameNode o id) := by
  unfold nameNode
  split_ifs <;> exact ⟨rfl, rfl⟩

theorem shape_joinTests
    (h : ∀ j ∈ js, HasShape false j ∨ 2 ≤ js.length) : HasShape false ((joinTests o n op js).getD .absent) := by
  rcases js with _ | ⟨first, _ | ⟨_, _⟩⟩
  · exact ⟨rfl, rfl⟩
  · exact (h first (by simp)).resolve_right (by simp)
  · rw [joinTests, List.getLast?_cons] <;> simp [HasShape, Js.isText, Js.isList]

theorem yields_shape_testNodes (o : Origin) : ∀ (left : Run Js) (ops : List CmpOp) (rights : List (Run Js)),
    Yields (testNodes cfg o left ops rights) fun js => ∀ j ∈ js, HasShape false j
  | _, [], _ => .pure (by simp)
  | _, _ :: _, [] => .pure (by simp)
  | left, op :: ops, right :: rest => by
    refine .andThen _ fun l => .andThen _ fun s => .andThen _ fun r => ?_
    refine (yields_shape_testNodes o right ops rest).bind fun js hjs => .pure ?_
    exact List.forall_mem_cons.mpr ⟨⟨rfl, rfl⟩, hjs⟩

theorem yields_length_inOrder (steps : List (Run α)) : Yields (inOrder steps) fun as => as.length = steps.length := by
  induction steps with
  | nil => exact .pure rfl
  | cons _ _ ih =>
    unfold inOrder at ih ⊢
    rw [List.mapM_cons]
    refine .andThen _ fun a => ih.bind fun _ has => .pure ?_
    simp [has]

theorem length_compileRuns (es : List Expr) : (compileRuns cfg here es).length = es.length := by
  induction es with
  | nil => rfl
  | cons _ _ ih => simp [compileRuns, ih]

theorem yields_shape_callRule (node : Ref) (func : Expr) (keywords : List Keyword) (whole : Run Js)
    (inner : List (Run Js)) (args : List Operand) (values : Run (List Js)) :
    Yields (callRule cfg here node func keywords whole inner args values) (HasShape false) := by
  unfold callRule methodRule superRule builtinRule newRule instanceNode callNode
  repeat first
    | exact .pure ⟨rfl, rfl⟩
    | exact .throw _
    | refine .andThen _ fun _ => ?_
    | dsimp only
    | split

theorem yields_shape_compileExpr (e : Expr) : Yields (compileExpr cfg here e) (HasShape (isDisplay e)) := by
  cases e with
  | name _ id =>
    rw [compileExpr]
    exact .pure (shape_nameNode _ id)
  | call => rw [compileExpr]; exact yields_shape_callRule cfg here _ _ _ _ _ _ _
  | boolOp _ _ values =>
    rw [compileExpr]
    rcases values with _ | ⟨_, _ | ⟨_, _⟩⟩
    · exact .throw _
    · exact .throw _
    · -- there are two values at least, so that the outermost node joins them
      refine (yields_length_inOrder _).bind fun _ hjs => .pure (shape_joinTests fun _ _ => .inr ?_)
      simp [hjs, length_compileRuns]
  | _ =>
    rw [compileExpr]
    try unfold attrRule
    try unfold subscriptRule
    try unfold compareRule membershipNode
    try unfold comprehensionRule
    try unfold constantNode
    repeat first
      | exact .pure ⟨rfl, rfl⟩
      | exact .throw _
      | exact .throwBind _
      | exact (yields_shape_testNodes cfg _ _ _ _).bind fun _ hjs =>
          .pure (shape_joinTests fun j hj => .inl (hjs j hj))
      | refine .andThen _ fun _ => ?_
      | dsimp only
      | split

end

variable {c : Option String} {cfg : Config} {here : Place} {spot : Spot}
  {left target whole call : Run Js} {lm tm wm cm : List Mark} {steps : List (Run Js)}
  {sm : List (List Mark)} {all : Run (List Js)} {am : List Mark}

structure Parts.Fits (es6 : Bool) (c : Option String) (parts : Parts) (pm : PartMarks) : Prop where
  func : Emits es6 c parts.func pm.func
  args : List.Forall₂ (Emits es6 c) parts.args pm.args
  values : EmitsAll es6 c parts.values pm.values

structure Operand.Fits (es6 : Bool) (c : Option String) (a : Operand) (m : OperandMarks) : Prop where
  expr : a.expr = m.expr
  whole : Emits es6 c a.whole m.whole
  node : Yields a.whole fun j => j.isText = false
  parts : a.parts.Fits es6 c m.parts

theorem Parts.fits_ofArgs (h : List.Forall₂ (Emits es6 c) steps sm) : (Parts.ofArgs steps).Fits es6 c (.ofArgs sm) :=
  ⟨.pure .nil, h, .pure .nil⟩

theorem Parts.fits_none : Parts.none.Fits es6 c (.ofArgs []) :=
  fits_ofArgs .nil

/-! ### Nodes -/

@[simp]
theorem traits_plainCall (o : Origin) (func : Js) (args : List Js) :
    (plainCall o func args).traits = func.traits ++ traitsAll args := by
  simp [plainCall, Js.traits, Js.absent]

@[simp]
theorem traits_fieldOf (o : Origin) (obj field : String) : (fieldOf o obj field).traits = [.name o.source obj] :=
  rfl

theorem joinTests_append (o n : Origin) (op j last : Js) (front : List Js) : joinTests o n op (j :: (front ++ [last])) =
    some (.binOp o (front.foldl (fun acc r => .binOp n acc op r) j) op last) := by
  cases front with
  | nil => simp [joinTests]
  | cons k rest =>
    have happend : k :: (rest ++ [last]) = (k :: rest) ++ [last] := rfl
    simp only [List.cons_append, joinTests]
    rw [happend, List.dropLast_concat, List.getLast?_concat]
    rfl

theorem traits_joinTests (hop : op.traits = []) (js : List Js) :
    ((joinTests o n op js).getD .absent).traits = traitsAll js := by
  have hfold (rest : List Js) (first : Js) :
      (rest.foldl (fun acc r => Js.binOp n acc op r) first).traits = first.traits ++ traitsAll rest := by
    induction rest generalizing first with
    | nil => simp
    | cons _ _ ih => simp [ih, Js.traits, hop]
  rcases js with _ | ⟨_, rest⟩
  · rfl
  · rcases rest.eq_nil_or_concat with rfl | ⟨_, _, rfl⟩
    · simp [joinTests]
    · simp [joinTests_append, Js.traits, hfold, hop]

theorem matches_nameNode (o : Origin) (id : String) : Matches es6 (useMarks o.source id) (nameNode o id).traits := by
  unfold useMarks nameNode
  by_cases hself : id = "self"
  · simp [hself, Js.traits, Matches.nil]
  · by_cases htrue : id = "True"
    · simp [htrue, Js.traits, Matches.nil]
    · by_cases hfalse : id = "False"
      · simp [hfalse, Js.traits, Matches.nil]
      · by_cases hnone : id = "None"
        · simp [hnone, Js.traits, Matches.nil]
        · simp only [hself, htrue, hfalse, hnone, beq_iff_eq, Bool.or_eq_true, or_self, if_false]
          exact .mark rfl

/-! ### Steps in order -/

theorem emits_inOrder (h : List.Forall₂ (Emits es6 c) steps sm) : EmitsAll es6 c (inOrder steps) sm.flatten := by
  induction h with
  | nil => exact .pure .nil
  | cons hstep _ ih =>
    unfold inOrder at ih ⊢
    rw [List.mapM_cons]
    exact hstep.bind fun j hj => ih.bind fun _ hjs => .pure (hj.append hjs)

theorem emits_mapM {as : List α} {x : α → Run Js} {ms : α → List Mark}
    (h : ∀ a ∈ as, Emits es6 c (x a) (ms a)) : EmitsAll es6 c (as.mapM x) (as.flatMap ms) := by
  induction as with
  | nil => exact .pure .nil
  | cons a _ ih =>
    rw [List.mapM_cons]
    refine (h a (by simp)).bind fun j hj => ?_
    exact (ih fun b hb => h b (by simp [hb])).bind fun _ hjs => .pure (hj.append hjs)

theorem emits_keyNodes : ∀ (keys : List Expr) {steps : List (Run Js)} {sm : List (List Mark)},
    (∀ key ∈ keys, key.str?.isSome = true ∨ cfg.es6 = true) →
    List.Forall₂ (Emits cfg.es6 c) steps sm → keys.length = steps.length →
    EmitsAll cfg.es6 c (keyNodes cfg keys steps) sm.flatten
  | [], _, _, _, .nil, _ => .pure .nil
  | key :: keys, _, _, hkeys, .cons hstep hsteps, hlen => by
    refine hstep.bind fun j hj => ?_
    refine (emits_keyNodes keys (fun k hk => hkeys k (by simp [hk])) hsteps (by simpa using hlen)).bind
      fun js hjs => .pure (.append ?_ hjs)
    split
    · exact hj
    next hstr =>
      have hes6 := (hkeys key (by simp)).resolve_left hstr
      exact hj.feature _ hes6

theorem stays_demandKey (key : Expr) :
    Stays c (demandKey cfg key) fun _ => key.str?.isSome = true ∨ cfg.es6 = true := by
  refine .ofExcept fun _ hu => ?_
  unfold Key.ofExpr at hu
  split at hu
  next hs => simp [hs]
  · unfold Key.check at hu
    split at hu
    next heq => cases heq
    · split at hu
      next hes6 => exact .inr hes6
      · split at hu <;> cases hu

theorem mem_eachWith_cons {m : Mark} {km : List Mark} :
    m ∈ eachWith tm (km :: sm) ↔ m ∈ tm ++ km ++ eachWith tm sm := by
  cases sm <;> simp [eachWith]
  tauto

theorem stays_pairNodes (htarget : Emits es6 c target tm) (h : List.Forall₂ (Emits es6 c) steps sm) :
    Stays c (pairNodes target steps) fun ps =>
      Matches es6 (eachWith tm sm) (traitsAll (ps.map (·.1)) ++ traitsAll (ps.map (·.2))) := by
  induction h with
  | nil => exact .pure .nil
  | cons hstep _ ih =>
    unfold pairNodes at ih ⊢
    rw [List.mapM_cons]
    refine Stays.bind (P := fun p => Matches es6 (_ ++ _) (p.1.traits ++ p.2.traits))
      (htarget.bind fun t ht => hstep.bind fun k hk => .pure (ht.append hk)) fun p hp => ?_
    refine ih.bind fun _ hps => .pure ((hp.append hps).congr (fun _ => mem_eachWith_cons) ?_)
    simp
    tauto

theorem stays_subclassNodes (n : Origin) (htarget : Emits es6 c target tm) (h : List.Forall₂ (Emits es6 c) steps sm) :
    EmitsAll es6 c (subclassNodes n target steps) (eachWith tm sm) := by
  induction h with
  | nil => exact .pure .nil
  | @cons _ km _ _ hstep _ ih =>
    unfold subclassNodes at ih ⊢
    rw [List.mapM_cons]
    refine Stays.bind (P := fun j => Matches es6 (tm ++ km) j.traits)
      (hstep.bind fun k hk => htarget.bind fun t ht => .pure ?_) fun j hj => ?_
    · refine (ht.append hk).congr (fun _ => .rfl) ?_
      simp [subclassNode, Js.traits]
      tauto
    · exact ih.bind fun _ hjs => .pure ((hj.append hjs).congr (fun _ => mem_eachWith_cons) (by simp))

theorem stays_operatorNode (kind : String) (s : Option Script.Operator) :
    Stays c (operatorNode cfg kind s) fun j => j.traits = [] := by
  cases s with
  | none => exact .throw _
  | some => exact .pure rfl

theorem emits_testNodes (o : Origin) : ∀ (ops : List CmpOp) {left : Run Js} {lm : List Mark}
    {steps : List (Run Js)} {sm : List (List Mark)}, Emits cfg.es6 c left lm →
    List.Forall₂ (Emits cfg.es6 c) steps sm → ops.length ≤ steps.length →
    EmitsAll cfg.es6 c (testNodes cfg o left ops steps) (eachWith lm (sm.take ops.length))
  | [], _, _, _, _, _, _, _ => .pure .nil
  | _ :: _, _, _, _, _, _, .nil, hlen => by simp at hlen
  | op :: ops, left, lm, _, _, hleft, .cons (a := right) (b := rm) hright hsteps, hlen => by
    refine hleft.bind fun l hl => (stays_operatorNode _ _).bind fun s hs => hright.bind fun r hr => ?_
    refine (emits_testNodes o ops hright hsteps (by simpa using hlen)).bind fun _ hjs => .pure ?_
    refine ((hl.append hr).append hjs).congr (fun m => ?_) (by simp [Js.traits, hs])
    rw [List.length_cons, List.take_succ_cons]
    unfold eachWith
    cases hrest : List.take ops.length _ <;> simp

/-! ### Rules -/

theorem emits_constantNode (o : Origin) (v : Source.Constant) : Emits es6 c (constantNode o v) [] := by
  cases v with
  | none | bool b | number digits | str s => exact .pure .nil
  | ellipsis | bytes => exact .throw _

theorem emits_callNode (o : Origin) (node : Ref) (operator : String) (hwhole : Emits cfg.es6 c whole wm)
    (hall : EmitsAll cfg.es6 c all am) (keywords : List Keyword)
    (hvalues : EmitsAll cfg.es6 c values vm) :
    Emits cfg.es6 c (callNode cfg o node operator whole all keywords values) (callMarks keywords wm am vm) := by
  refine (Stays.refuseIf _ _ _).bind fun _ _ => hwhole.bind fun f hf => hall.bind fun _ hjs => ?_
  unfold callMarks
  dsimp only
  split
  · exact .pure (by simpa [Js.traits, Js.absent] using hf.append hjs)
  · refine hvalues.bind fun _ hvs => .pure ?_
    rw [Js.traits, Js.traits, traitsAll_map_eq_nil fun _ => rfl, List.nil_append]
    exact (hf.append hjs).append hvs

theorem emits_instanceNode (o : Origin) (htarget : Emits cfg.es6 c target tm) (cls : Expr)
    (hwhole : Emits cfg.es6 c whole wm) (hargs : List.Forall₂ (Emits cfg.es6 c) steps sm) :
    Emits cfg.es6 c (instanceNode cfg o target cls whole (pairNodes target steps))
      (instanceMarks cfg tm cls wm sm) := by
  -- a class with a name of its own is written as its counterpart
  have hbyType (id type object : String) (hobject : object ∈ suppliedNames) : Emits cfg.es6 c (do
      let a ← target
      let b ← target
      return Js.tests o (.op (cfg.origin none) .or) [.op (cfg.origin none) .strongEq, .op (cfg.origin none) .instanceOf]
        [.unaryOp (cfg.origin none) (.op (cfg.origin none) .typeOf) a, b]
        [.json (cfg.origin none) (.str type), .name (cfg.origin none) (.text object)])
      (replacedMark cfg cls id :: tm) := by
    refine htarget.bind fun a ha => htarget.bind fun b hb => .pure (.skip rfl ?_)
    refine ((ha.both hb).word (cfg.origin none).source hobject).congr (fun _ => .rfl) ?_
    simp [Js.traits]
    tauto
  unfold instanceNode
  split
  next hseq =>
    rw [instanceMarks, if_pos hseq]
    refine (stays_pairNodes htarget hargs).bind fun _ hps => .pure ?_
    rw [Js.traits, Js.traits, traitsAll_map_eq_nil fun _ => rfl]
    simpa only [List.nil_append] using hps
  next hseq =>
    split
    next hname =>
      rw [instanceMarks, if_neg hseq, hname]
      exact hbyType "str" "string" "String" (by decide)
    next hname =>
      rw [instanceMarks, if_neg hseq, hname]
      exact hbyType "int" "number" "Number" (by decide)
    next hname =>
      rw [instanceMarks, if_neg hseq, hname]
      exact hbyType "float" "number" "Number" (by decide)
    next hstr hint hfloat =>
      rw [instanceMarks, if_neg hseq]
      split
      next hname => exact absurd hname hstr
      next hname => exact absurd hname hint
      next hname => exact absurd hname hfloat
      · refine htarget.bind fun t ht => hwhole.bind fun w hw => .pure ?_
        simpa [Js.traits] using ht.append hw

theorem emits_attrRule (hh : here.Fits cfg.es6 spot) (node : Ref) (value : Expr) (field : String)
    (hwhole : Emits cfg.es6 c whole wm) (hargs : List.Forall₂ (Emits cfg.es6 c) steps sm) :
    Emits cfg.es6 c (attrRule cfg here node value field whole steps) (attrMarks cfg spot value field wm sm) := by
  have hplain : Emits cfg.es6 c (do
      return Js.dot (cfg.origin (some node)) (← whole) (normalizeName field)) wm :=
    hwhole.bind fun j hj => .pure hj
  have hmethod := hh.method
  unfold attrRule
  dsimp only
  generalize here.method = m at hmethod
  split
  · split
    · -- an attribute of `super()`
      unfold attrMarks
      generalize spot.method = m' at hmethod
      cases hargs
      cases hmethod
      exact (Stays.refuseIf _ _ _).bind fun _ _ => .pure (.skip rfl .nil)
    · -- `append` of a list
      cases hargs with
      | cons hitem hnil =>
        cases hnil
        unfold attrMarks
        show Emits cfg.es6 c _ (if _ then _ else _)
        split
        · exact hitem.bind fun j hj => .pure (.skip rfl hj)
        · exact hplain
    next hlist hsuper => -- the marks are those of the same case
      unfold attrMarks
      dsimp only
      generalize spot.method = m' at hmethod
      split
      · cases hargs
        cases hmethod
        exact absurd rfl (hsuper _ rfl rfl)
      · cases hargs with
        | cons _ hnil =>
          cases hnil
          exact absurd rfl (hlist _ rfl)
      · exact hplain
  next hvalue =>
    unfold attrMarks
    split
    · exact absurd rfl (hvalue _ _ _ _ _)
    · exact hplain

theorem stays_refuseSuper (node : Ref) (value : Expr) : Stays c (refuseSuper here node value) fun _ => True := by
  unfold refuseSuper
  split
  · exact (Stays.refuseIf _ _ _).bind fun _ _ => .throw _
  · exact .pure trivial

theorem emits_subscriptRule (node : Ref) (value slice : Expr) (hwhole : Emits cfg.es6 c whole wm)
    (hargs : List.Forall₂ (Emits cfg.es6 c) steps sm) :
    Emits cfg.es6 c (subscriptRule cfg here node value slice whole steps) (subscriptMarks slice wm sm) := by
  unfold subscriptRule
  dsimp only
  split
  next lower upper step first last =>
    cases hargs with
    | @cons _ fm _ _ hfirst hrest =>
      cases hrest with
      | @cons _ um _ _ hlast hnil =>
        cases hnil
        refine (Stays.refuseIf _ _ _).bind fun _ _ => hwhole.bind fun v hv => hfirst.bind fun f hf =>
          hlast.bind fun l hl => .pure ?_
        have hlower : Matches cfg.es6 (if lower.isAbsent then [] else fm)
            (if lower.isAbsent then Js.num (cfg.origin none) "0" else f).traits := by
          split
          · exact .nil
          · exact hf
        have hupper : Matches cfg.es6 (if upper.isAbsent then [] else um)
            (traitsAll (if upper.isAbsent then [] else [l])) := by
          split
          · exact .nil
          · simpa using hl
        rw [traits_plainCall, traitsAll, ← List.append_assoc]
        exact (hv.append hlower).append hupper
  · refine (stays_refuseSuper _ _).bind fun _ _ => ?_
    split
    · cases hargs with
      | @cons _ im _ _ hitem hnil =>
        cases hnil
        refine hwhole.bind fun v hv => hitem.bind fun i hi => ?_
        show Emits cfg.es6 c _ (wm ++ [im].flatten)
        split
        · exact .pure (by simpa [Js.traits] using hv.append hi)
        · exact .pure (by simpa [Js.traits] using hv.append hi)
    · exact .throw _

theorem Operand.Fits.classes (h : a.Fits es6 c m) :
    List.Forall₂ (Emits es6 c) (if isSequence a.expr then a.parts.args else [a.whole])
      (if isSequence m.expr then m.parts.args else [m.whole]) := by
  rw [h.expr]
  split
  · exact h.parts.args
  · exact .cons h.whole .nil

theorem emits_wholes (h : List.Forall₂ (Operand.Fits es6 c) operands om) :
    EmitsAll es6 c (inOrder (operands.map (·.whole))) (om.map (·.whole)).flatten := by
  refine emits_inOrder ?_
  rw [List.forall₂_map_left_iff, List.forall₂_map_right_iff]
  exact h.imp fun _ _ ha => ha.whole

theorem emits_newRule (o : Origin) (h : a.Fits cfg.es6 c m) (name : Mark) (hname : name.trait? = none) :
    Emits cfg.es6 c (newRule cfg o a) (match m.expr with
      | .call _ _ _ keywords => name :: callMarks keywords m.parts.func m.parts.args.flatten m.parts.values
      | _ => []) := by
  unfold newRule
  rw [← h.expr]
  split
  next hexpr =>
    rw [hexpr]
    refine (emits_callNode o _ _ h.parts.func (emits_inOrder h.parts.args) _ h.parts.values).imp ?_
    exact fun j hj => hj.skip hname
  · exact .throw _

theorem stays_demandText (a : Operand) : Stays c (demandText a) fun _ => True :=
  (Stays.demand _).bind fun _ _ => .pure trivial

theorem matches_numberCall (o : Origin) {field : String} (hfield : field ∈ suppliedNames)
    (h : Matches cfg.es6 am (traitsAll js)) :
    Matches cfg.es6 am (plainCall o (if cfg.es6 then .dot (cfg.origin none) (.text "Number") field
      else .name (cfg.origin none) (.text field)) js).traits := by
  rw [traits_plainCall]
  split
  · exact h.word none (by decide)
  · exact h.word _ hfield

theorem emits_builtinRule (node : Ref) (f : Builtin) (h : List.Forall₂ (Operand.Fits cfg.es6 c) operands om)
    (hcall : Emits cfg.es6 c call cm) (name : Mark) (hname : name.trait? = none) :
    Emits cfg.es6 c (builtinRule cfg node f operands call) (builtinMarks cfg f om cm name) := by
  have hall := emits_wholes h
  have htemplate (text : String) (hes6 : cfg.es6 = true) :
      ∀ t ∈ [Trait.feature .template, .template text], Supplied cfg.es6 t := by
    simpa [Supplied] using hes6
  cases f
  case print =>
    refine hall.bind fun js hjs => .pure (.skip hname ?_)
    rw [traits_plainCall]
    exact hjs.word _ (by decide)
  case new =>
    rcases h with _ | ⟨ha, _⟩
    · exact .throw _
    · exact emits_newRule _ ha name hname
  case int | float => exact hall.bind fun js hjs => .pure (.skip hname (matches_numberCall _ (by decide) hjs))
  -- with any other number of arguments it is refused, or an ordinary call
  all_goals
    rcases h with _ | ⟨ha, _ | ⟨hb, _ | ⟨hc, _ | ⟨_, _⟩⟩⟩⟩
    all_goals first | exact hcall | exact .throw _ | skip
  case typeOf => exact ha.whole.bind fun j hj => .pure (.skip hname (by simpa [Js.traits] using hj))
  case callable =>
    refine ha.whole.bind fun _ hone => ha.whole.bind fun _ htwo => .pure (.skip hname ?_)
    have hfunction : "Function" ∈ suppliedNames := by decide
    refine ((hone.both htwo).word (cfg.origin none).source hfunction).congr (fun _ => .rfl) ?_
    simp [Js.traits]
    tauto
  case isInstance =>
    show Emits cfg.es6 c (instanceNode cfg _ _ _ _ _) (_ :: instanceMarks cfg _ _ _ _)
    rw [← hb.expr]
    exact (emits_instanceNode _ ha.whole _ hb.whole hb.parts.args).imp fun j hj => hj.skip hname
  case len => exact ha.whole.bind fun j hj => .pure (.skip hname hj)
  case js => exact (stays_demandText _).bind fun s _ => .pure (.skip hname .nil)
  case dependImport =>
    refine (stays_demandText _).bind fun s _ => (Stays.guardFeature _ _ _).bind fun _ hes6 =>
      .pure (.skip hname ?_)
    exact Matches.nil.feature _ hes6
  case str =>
    refine (ha.whole.and ha.node).bind fun j hj => .pure (.skip hname ?_)
    simpa [Js.traits, Js.traits_name _ hj.2] using hj.1
  case type =>
    refine ha.whole.bind fun j hj => .pure (.skip hname ?_)
    simpa using hj.word (cfg.origin none).source (show "Object" ∈ suppliedNames by decide)
  case tagged =>
    refine (stays_demandText _).bind fun s _ => (Stays.guardFeature _ _ _).bind fun _ hes6 =>
      .pure (.skip hname ?_)
    exact (Matches.nil.word _ (by decide)).supply _ (htemplate s hes6)
  case tagged =>
    exact (stays_demandText _).bind fun s _ => (Stays.guardFeature _ _ _).bind fun _ hes6 =>
      hb.whole.bind fun j hj => .pure (.skip hname (hj.supply _ (htemplate s hes6)))
  case template =>
    exact (stays_demandText _).bind fun s _ => (Stays.guardFeature _ _ _).bind fun _ hes6 =>
      .pure (.skip hname (Matches.nil.supply _ (htemplate s hes6)))
  case hasAttr =>
    refine hb.whole.bind fun k hk => ha.whole.bind fun j hj => .pure (.skip hname ?_)
    refine (hj.append hk).congr (by simp) ?_
    simp [Js.traits]
    tauto
  case getAttr =>
    refine ha.whole.bind fun j hj => hb.whole.bind fun k hk => .pure (.skip hname ?_)
    simpa [Js.traits] using hj.append hk
  case getAttr =>
    refine ha.whole.bind fun j hj => hb.whole.bind fun k hk => hc.whole.bind fun d hd => .pure (.skip hname ?_)
    simpa [Js.traits] using (hj.append hk).append hd
  case setAttr =>
    refine ha.whole.bind fun j hj => hb.whole.bind fun k hk => hc.whole.bind fun v hv => .pure (.skip hname ?_)
    simpa [Js.traits, Js.isList, Script.featureIf] using (hj.append hk).append hv
  case isSubclass =>
    refine (stays_subclassNodes _ ha.whole hb.classes).bind fun js _ => ?_
    have htests := traits_joinTests (o := cfg.origin none) (n := cfg.origin none)
      (show (Js.op (cfg.origin none) .or).traits = [] from rfl) js
    cases hjoin : joinTests (cfg.origin none) (cfg.origin none) (.op (cfg.origin none) .or) js with
    | none => exact .throw _
    | some =>
      rw [hjoin, Option.getD_some] at htests
      exact .pure (.skip hname (by rwa [Js.traits, htests]))

theorem emits_superRule (o : Origin) {m : Method} {m' : SpotMethod} (hm : m.Fits cfg.es6 m')
    (field : String) (hall : EmitsAll cfg.es6 c all am) (name : Mark) (hname : name.trait? = none) :
    Emits cfg.es6 c (superRule cfg o m field all) (name ::
      (if m'.isInit || !m'.isAsync then am else m'.superclass.getD [] ++ am)) := by
  have hsuper := hm.superclass
  unfold superRule
  rw [hm.isInit, hm.isAsync]
  generalize m.superclass = superclass at hsuper
  generalize m'.superclass = superclass' at hsuper
  dsimp only
  cases m'.isInit with
  | true => exact hall.bind fun _ hjs => .pure (.skip hname (by simpa [Js.traits] using hjs))
  | false =>
    cases m'.isAsync with
    | false => exact hall.bind fun _ hjs => .pure (.skip hname (by simpa [Js.traits] using hjs))
    | true =>
      cases hsuper with
      | none => exact .throw _
      | some hcls =>
        refine ((hcls.emits c).and hcls.node).bind fun _ h => hall.bind fun _ hjs =>
          .pure (.skip hname ?_)
        simpa [Js.traits, Js.traits_name _ h.2] using h.1.append hjs

theorem emits_methodRule (hh : here.Fits cfg.es6 spot) (node : Ref) (called : String)
    (hinner : List.Forall₂ (Emits cfg.es6 c) steps sm) (field : String)
    (hall : EmitsAll cfg.es6 c all am) (hcall : Emits cfg.es6 c call cm) (name : Mark)
    (hname : name.trait? = none) :
    Emits cfg.es6 c (methodRule cfg here node called steps field all call)
      (methodMarks spot called name sm field am cm) := by
  have hobject : "Object" ∈ suppliedNames := by decide
  have hmethod := hh.method
  unfold methodRule methodMarks
  dsimp only
  generalize here.method = m at hmethod
  generalize spot.method = m' at hmethod
  split
  · cases hinner
    cases hmethod with
    | some hm => exact emits_superRule _ hm field hall name hname
  · cases hinner with
    | cons hitem hnil =>
      cases hnil
      show Emits cfg.es6 c _ (if _ then _ else if _ then _ else _)
      split
      · refine (Stays.guardFeature _ _ _).bind fun _ _ => hitem.bind fun i hi =>
          hall.bind fun _ hjs => .pure (.skip hname ?_)
        simpa using (hi.append hjs).word (cfg.origin none).source hobject
      · split
        · refine (Stays.guardFeature _ _ _).bind fun _ _ => hitem.bind fun i hi =>
            .pure (.skip hname ?_)
          simpa [Js.traits] using hi.word (cfg.origin none).source hobject
        · exact hcall
  next hdict hsuper => -- the marks are those of the same case
    split
    · cases hinner
      cases hmethod
      exact absurd rfl (hsuper _ rfl rfl)
    · cases hinner with
      | cons _ hnil =>
        cases hnil
        exact absurd rfl (hdict _ rfl)
    · exact hcall

theorem emits_callRule (hh : here.Fits cfg.es6 spot) (node : Ref) (func : Expr) (keywords : List Keyword)
    (hwhole : Emits cfg.es6 c whole wm) (hinner : List.Forall₂ (Emits cfg.es6 c) steps sm)
    (h : List.Forall₂ (Operand.Fits cfg.es6 c) operands om)
    (hvalues : EmitsAll cfg.es6 c values vm) :
    Emits cfg.es6 c (callRule cfg here node func keywords whole steps operands values)
      (calledMarks cfg spot func keywords wm sm om vm) := by
  have hcall (operator : String) := emits_callNode (cfg.origin (some node)) node operator hwhole
    (emits_wholes h) keywords hvalues
  unfold callRule
  dsimp only
  split
  · split
    next hf =>
      unfold calledMarks
      dsimp only
      rw [hf]
      exact emits_builtinRule node _ h (hcall _) _ rfl
    next hf =>
      unfold calledMarks
      dsimp only
      rw [hf]
      exact hcall _
  · unfold calledMarks
    dsimp only
    split
    · exact hcall _
    · exact emits_methodRule hh node _ hinner _ (emits_wholes h) (hcall _) _ rfl
  next hattr =>
    unfold calledMarks
    dsimp only
    split
    next heq => cases heq
    next heq =>
      cases heq
      exact (hattr _ _ _ _ _ rfl).elim
    · exact hcall _
  next hname hmethod _ =>
    unfold calledMarks
    dsimp only
    split
    · exact (hname _ _ rfl).elim
    · exact (hmethod _ _ _ _ _ _ _ rfl).elim
    · exact hcall _

theorem emits_boolRule (o : Origin) (op : BoolOp) (values : List Expr) (hall : EmitsAll cfg.es6 c all am) :
    Emits cfg.es6 c (boolRule cfg o op values all) am := by
  rcases values with _ | ⟨_, _ | ⟨_, _⟩⟩
  · exact .throw _
  · exact .throw _
  · refine hall.bind fun _ _ => .pure ?_
    rwa [traits_joinTests rfl]

theorem emits_membershipNode (o : Origin) (negated : Bool) (hleft : Emits cfg.es6 c left lm)
    (hwhole : Emits cfg.es6 c whole wm) :
    Emits cfg.es6 c (membershipNode cfg o negated left whole) (lm ++ wm) := by
  refine hleft.bind fun l hl => hwhole.bind fun w hw => ?_
  have hpj := (hl.append hw).word none (show "_pj" ∈ suppliedNames by decide)
  cases negated with
  | true => exact .pure (by simpa [Js.traits] using hpj)
  | false => exact .pure (by simpa [Js.traits] using hpj)

theorem emits_compareRule (o : Origin) (ops : List CmpOp) (hleft : Emits cfg.es6 c left lm)
    (hargs : List.Forall₂ (Emits cfg.es6 c) steps sm) :
    Emits cfg.es6 c (compareRule cfg o ops left steps) (compareMarks cfg ops lm sm) := by
  unfold compareRule
  dsimp only
  split
  · exact .throw _
  · unfold compareMarks
    dsimp only
    split
    · -- a test of membership
      refine (Stays.useSnippet _).bind fun _ _ => ?_
      cases hargs with
      | nil => exact .throw _
      | cons hcontainer => simpa using emits_membershipNode o _ hleft hcontainer
    · split
      · exact .throwBind _
      · refine (emits_testNodes _ _ hleft hargs (by omega)).bind fun _ _ => .pure ?_
        rwa [traits_joinTests rfl]

inductive ClausesFit (es6 : Bool) (c : Option String) :
    List Generator → List (Run Js × Run (List Js)) → List (List Mark) → Prop
  | nil : ClausesFit es6 c [] [] []
  | cons {target list : Expr} {ifs : List Expr} {gs : List Generator} {iter : Run Js}
      {tests : Run (List Js)} {clauses : List (Run Js × Run (List Js))} {im tm : List Mark}
      {ms : List (List Mark)} (hiter : Emits es6 c iter im) (htests : EmitsAll es6 c tests tm)
      (hlength : Yields tests fun js => js.length = ifs.length) (hrest : ClausesFit es6 c gs clauses ms) :
      ClausesFit es6 c (.mk target list ifs :: gs) ((iter, tests) :: clauses) ((im ++ tm) :: ms)

theorem mem_traits_comprehensionNode (o : Origin) (names : LoopNames) (var : String) (source elt : Js)
    (cond : Option Js) (t : Trait) :
    t ∈ (comprehensionNode cfg o names var source cond elt).traits ↔
      t ∈ [names.bound, names.index, names.source, names.result].flatMap (fun id =>
          [.name none id, .name (cfg.origin none).source id]) ++
        .name none var :: (source.traits ++ traitsAll cond.toList ++ elt.traits) := by
  cases cond <;>
    simp [comprehensionNode, Js.traits, Script.featureIf, Script.parameterTraits] <;> tauto

theorem emits_comprehensionRule (o : Origin) {generators : List Generator}
    {clauses : List (Run Js × Run (List Js))} (h : ClausesFit cfg.es6 c generators clauses sm)
    (hwhole : Emits cfg.es6 c whole wm) :
    Emits cfg.es6 c (comprehensionRule cfg o generators clauses whole) (comprehensionMarks generators sm wm) := by
  unfold comprehensionRule
  split
  next var list ifs iter tests =>
    cases h with
    | cons hiter htests hlength hrest =>
      cases hrest
      refine (Stays.demand _).bind fun _ hone => Stays.newName.bind fun result hresult =>
        Stays.newName.bind fun source hsource => Stays.newName.bind fun index hindex =>
        Stays.newName.bind fun bound hbound => hiter.bind fun iter hiter =>
        (htests.and hlength).bind fun tests ⟨htests, hlength⟩ => hwhole.bind fun elt helt => .pure ?_
      have htest : tests.head?.toList = tests := by
        have : tests.length ≤ 1 := by simpa [hlength] using hone
        rcases tests with _ | ⟨test, _ | ⟨_, _⟩⟩ <;> simp at this ⊢
      rw [← htest] at htests
      have hvar := ((hiter.append htests).append helt).cons (m := .occurrence ⟨none, var, .loopVar⟩) rfl
      have hnames := (((hvar.generated (cfg.origin none).source hresult).generated (cfg.origin none).source
        hsource).generated (cfg.origin none).source hindex).generated (cfg.origin none).source hbound
      exact hnames.congr (by simp [comprehensionMarks])
        (mem_traits_comprehensionNode o ⟨result, source, index, bound⟩ _ iter elt tests.head?)
  · exact .throw _

theorem matches_names (role : Role) (hrole : role.route = .verbatim) (name : α → String)
    (as : List α) : Matches es6 (as.map fun a => .occurrence ⟨none, name a, role⟩)
      (traitsAll (as.map fun a => .text (name a))) := by
  induction as with
  | nil => exact .nil
  | cons _ _ ih =>
    refine .cons ?_ ih
    simp [Mark.trait?, Occurrence.spelling?, hrole, Route.spelling?]

theorem parameterTraits_texts (name : α → String) (as : List α) :
    Script.parameterTraits (as.map fun a => .text (name a)) [] = [] := by
  simp [Script.parameterTraits, Script.featureIf, Js.isAssign]

def QuotesAll (ms : List Mark) (text : String) : Prop :=
  ∀ m ∈ ms, m.isSure = true → ∀ t, m.trait? = some t → ∃ j s, Js.render? j = .ok s ∧ Quotes text s ∧ Writes j.traits t

theorem QuotesAll.append_left (h : QuotesAll ms text) (before : String) : QuotesAll ms (before ++ text) := by
  intro m hm hsure t ht
  obtain ⟨j, s, hj, ⟨front, back, rfl⟩, hw⟩ := h m hm hsure t ht
  exact ⟨j, s, hj, ⟨before ++ front, back, by simp only [String.append_assoc]⟩, hw⟩

theorem matches_template (hes6 : cfg.es6 = true)
    (h : QuotesAll ms text) : Matches cfg.es6 ms (Js.template o text).traits := by
  constructor
  · intro _ ht
    right
    simp only [Js.traits, List.mem_cons, List.not_mem_nil, or_false] at ht
    rcases ht with rfl | rfl
    · exact hes6
    · exact hes6
  · intro m hm hsure t ht
    obtain ⟨_, _, hj, hs, hw⟩ := h m hm hsure t ht
    exact .quoted (by simp [Js.traits]) hj hs hw

section

/-! ### Expressions -/

variable (hh : here.Fits cfg.es6 spot)

include hh

set_option linter.unusedSectionVars false in
mutual
theorem emits_compileExpr (e : Expr) : Emits cfg.es6 c (compileExpr cfg here e) (exprMarks cfg spot e) := by
  cases e
  all_goals rw [compileExpr, exprMarks]
  case absent => exact .pure .nil
  case name p id => exact .pure (matches_nameNode _ id)
  case constant p v => exact emits_constantNode _ v
  case attr p value field =>
    exact emits_attrRule hh _ value field (emits_compileExpr value) (fits_compileParts value).args
  case subscript p value slice =>
    exact emits_subscriptRule _ value slice (emits_compileExpr value) (fits_compileParts slice).args
  case call p func args keywords =>
    exact emits_callRule hh _ func keywords (emits_compileExpr func) (fits_compileReceiver func).args
      (fits_compileOperands args) (emits_compileValues keywords)
  case boolOp p op values => exact emits_boolRule _ op values (emits_inOrder (emits_compileRuns values))
  case binOp p left op right =>
    refine (emits_compileExpr left).bind fun l hl => ?_
    have hright := emits_compileExpr right
    split
    · refine hright.bind fun r hr => .pure ?_
      simpa using (hl.append hr).word (cfg.origin none).source (show "Math" ∈ suppliedNames by decide)
    · exact (stays_operatorNode _ _).bind fun s hs => hright.bind fun r hr =>
        .pure (by simpa [Js.traits, hs] using hl.append hr)
  case unaryOp p op operand =>
    exact (stays_operatorNode _ _).bind fun s hs => (emits_compileExpr operand).bind fun r hr =>
      .pure (by simpa [Js.traits, hs] using hr)
  case compare p left ops comparators =>
    exact emits_compareRule _ ops (emits_compileExpr left) (emits_compileRuns comparators)
  case ifExp p test body orelse =>
    exact (emits_compileExpr test).bind fun t ht => (emits_compileExpr body).bind fun b hb =>
      (emits_compileExpr orelse).bind fun e he => .pure ((ht.append hb).append he)
  case lambda p params kwDefaults defaults body =>
    refine (Stays.demand _).bind fun _ _ => (emits_compileExpr body).bind fun b hb => .pure ?_
    have hparams : Matches cfg.es6 (params.args.map (parameterMark ·.name))
        (traitsAll (params.args.map fun a => .text a.name)) := matches_names _ rfl Source.Binder.name _
    rw [Js.traits, parameterTraits_texts]
    exact .cons rfl (by simpa [Js.traits, Js.absent, Script.featureIf] using hparams.append hb)
  case list p elts | tuple p elts =>
    exact (emits_inOrder (emits_compileRuns elts)).bind fun _ hjs => .pure hjs
  case dict p keys values =>
    refine Stays.bind (.forM fun key _ => stays_demandKey key) fun _ hkeys => ?_
    refine (emits_keyNodes keys hkeys (emits_compileRuns keys) (length_compileRuns cfg here keys).symm).bind
      fun _ hks => ?_
    exact (emits_inOrder (emits_compileRuns values)).bind fun _ hvs => .pure (hks.append hvs)
  case listComp p elt generators =>
    exact emits_comprehensionRule _ (clausesFit_compileGenerators generators) (emits_compileExpr elt)
  case await p value =>
    exact (Stays.guardFeature _ _ _).bind fun _ _ => (emits_compileExpr value).bind fun j hj => .pure hj
  case yield p value | yieldFrom p value => exact (emits_compileExpr value).bind fun j hj => .pure hj
  case starred p value => exact (emits_compileExpr value).bind fun j hj => .pure (.cons rfl hj)
  case joinedStr p values =>
    exact (Stays.guardFeature _ _ _).bind fun _ hes6 => (quotes_compileChunks _ values).bind
      fun _ htext => .pure (matches_template hes6 htext)
  all_goals exact .throw _

theorem emits_compileRuns : ∀ es : List Expr,
    List.Forall₂ (Emits cfg.es6 c) (compileRuns cfg here es) (exprsMarks cfg spot es)
  | [] => .nil
  | e :: rest => .cons (emits_compileExpr e) (emits_compileRuns rest)

theorem fits_compileParts (e : Expr) : (compileParts cfg here e).Fits cfg.es6 c (partMarks cfg spot e) := by
  cases e
  all_goals simp only [compileParts, partMarks]
  case call p func args keywords =>
    exact ⟨emits_compileExpr func, emits_compileRuns args, emits_compileValues keywords⟩
  case tuple p elts | list p elts | set p elts => exact Parts.fits_ofArgs (emits_compileRuns elts)
  case slice p lower upper step =>
    exact Parts.fits_ofArgs (.cons (emits_compileExpr lower) (.cons (emits_compileExpr upper) .nil))
  case index key => exact Parts.fits_ofArgs (.cons (emits_compileExpr key) .nil)
  all_goals exact Parts.fits_none

theorem fits_compileReceiver (e : Expr) : (compileReceiver cfg here e).Fits cfg.es6 c (receiverMarks cfg spot e) := by
  cases e with
  | attr _ value =>
    rw [compileReceiver, receiverMarks]
    exact fits_compileParts value
  | _ =>
    simp only [compileReceiver, receiverMarks]
    exact Parts.fits_none

theorem fits_compileOperands : ∀ es : List Expr,
    List.Forall₂ (Operand.Fits cfg.es6 c) (compileOperands cfg here es) (operandMarks cfg spot es)
  | [] => .nil
  | e :: rest => by
    rw [compileOperands, operandMarks]
    refine .cons ⟨rfl, emits_compileExpr e, ?_, fits_compileParts e⟩ (fits_compileOperands rest)
    exact (yields_shape_compileExpr cfg here e).imp fun j hj => hj.1

theorem emits_compileValues : ∀ ks : List Keyword,
    EmitsAll cfg.es6 c (compileValues cfg here ks) (valueMarks cfg spot ks)
  | [] => by
    rw [compileValues, valueMarks]
    exact .pure .nil
  | .mk p arg value :: rest => by
    rw [compileValues, valueMarks]
    exact (emits_compileExpr value).bind fun j hj => (emits_compileValues rest).bind fun js hjs =>
      .pure (hj.append hjs)

theorem clausesFit_compileGenerators : ∀ gs : List Generator,
    ClausesFit cfg.es6 c gs (compileGenerators cfg here gs) (clauseMarks cfg spot gs)
  | [] => .nil
  | .mk target iter ifs :: rest => by
    rw [compileGenerators, clauseMarks]
    refine .cons (emits_compileExpr iter) (emits_inOrder (emits_compileRuns ifs)) ?_ (clausesFit_compileGenerators rest)
    exact (yields_length_inOrder _).imp fun js hjs => by rw [hjs, length_compileRuns]

theorem quotes_compileChunks (node : Ref) : ∀ es : List Expr,
    Stays c (compileChunks cfg here node es) (QuotesAll (chunkMarks cfg spot es))
  | [] => by
    rw [compileChunks, chunkMarks]
    exact .pure (by simp [QuotesAll])
  | e :: rest => by
    cases e with
    | constant _ v =>
      cases v with
      | str s =>
        simp only [compileChunks, chunkMarks]
        exact (quotes_compileChunks node rest).bind fun text htext => .pure (htext.append_left s)
      | _ =>
        simp only [compileChunks]
        exact .throw _
    | formattedValue _ value =>
      rw [compileChunks, chunkMarks]
      refine (Stays.refuseIf _ _ _).bind fun _ _ => (Stays.refuseIf _ _ _).bind fun _ _ => ?_
      refine (emits_compileExpr value).bind fun j hj => ?_
      refine Stays.bind (.ofExcept fun text htext => htext) fun text htext => ?_
      refine (quotes_compileChunks node rest).bind fun others hothers => .pure ?_
      intro m hm hsure t ht
      rcases List.mem_append.mp hm with hm | hm
      · exact ⟨j, text, htext, ⟨"", others, by simp⟩, hj.written m hm hsure t ht⟩
      · exact hothers.append_left _ m hm hsure t ht
    | _ =>
      simp only [compileChunks]
      exact .throw _
end

end

end Transpiler.Compile
