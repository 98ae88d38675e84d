import Transpiler.Proofs.Meaning.Loop

/-!
# The meaning of compiled statements

A statement of the core and the statement that it is compiled to, run with the same bound from
corresponding environments, have corresponding outcomes (`stmtClosed_refines`). The names in use around
a statement are those generated up to a number `N`.
-/

namespace Transpiler.Meaning

open Compile
open Script (Js Origin)
open Source (At Expr Stmt isDirective)

variable {ρ : Env Value} {σ : Env JsValue} {test : Expr} {t : Js} {q' : At} {xs : String} {node : Source.Ref}
  {P : Js → Prop}

def staysInPlace : Js → Bool
  | .statements .. => false
  | j => j.slot == .other

/-- A statement of the script does what a statement of the source does, which assigns to variables
only. -/
structure Refines (N : Int) (s : Stmt) (j : Js) : Prop where
  simulated : ∀ declared, varNames j ⊆ declared → assignedNames s ⊆ declared → ∀ fuel ρ σ, Related declared ρ σ →
      Simulated (After N declared σ) IsNumber (execStmt fuel s ρ) (execJs fuel j σ)
  inPlace : staysInPlace j = true
  targets : ∀ x ∈ assignedNames s, isDirective x = false

structure RefinesAll (N : Int) (ss : List Stmt) (js : List Js) : Prop where
  simulated : ∀ declared, varNamesAll js ⊆ declared → assignedNamesAll ss ⊆ declared →
    ∀ fuel ρ σ, Related declared ρ σ → Simulated (After N declared σ) IsNumber (execBlock fuel ss ρ)
        (inSequence (execEach fuel js) σ)
  inPlace : ∀ j ∈ js, staysInPlace j = true
  targets : ∀ x ∈ assignedNamesAll ss, isDirective x = false

variable {N : Int} {o n m : Origin} {p q : At} {x : String} {e : Expr} {j : Js}
  {body orelse : List Stmt} {js ks : List Js}

theorem Denotes.evalJs_number (h : Denotes e j) (hρ : Agrees ρ σ)
    {k : Int} (hk : evalInt ρ e = some k) : evalJs σ j = some (.number k) := by
  obtain ⟨v, hv, hk⟩ := Option.bind_eq_some_iff.mp hk
  rw [h ρ σ hρ v hv]
  cases v <;> simp_all [Value.int?, Value.toJs]

theorem isGenerated_of_isPlainName (h : isPlainName x = true) : isGenerated x = false := by
  simp only [isPlainName, Bool.and_eq_true, Bool.not_eq_true'] at h
  exact h.2

/-! ### Assignments -/

theorem simulated_assign {declared : List String}
    (h : Related declared ρ σ) (hx : isGenerated x = false) (hexists : ∃ w, σ x = some w)
    {value : Option Int} {value' : Option JsValue}
    (hvalue : ∀ k, value = some k → value' = some (.number k)) :
    Simulated (After N declared σ) IsNumber (assignInt ρ x value) (assignJs σ x value') := by
  cases value with
  | none => exact .failed _
  | some k =>
    rw [hvalue k rfl, assignJs_eq_done hexists]
    exact .done ⟨h.set hx (.int k), (KeepsNames.refl N σ).set (.of_plain hx N) _⟩

theorem refines_assign (hx : isPlainName x = true) (hvariable : isDirective x = false) (hj : Denotes e j) :
    Refines N (.assign p [.name q x] e) (.exprStmt o (.assign n (.name m (.text x)) j)) := by
  refine ⟨fun _ _ hassigned _ _ _ h => ?_, rfl, by simp [assignedNames, hvariable]⟩
  rw [execStmt, execJs, execJs]
  exact simulated_assign h (isGenerated_of_isPlainName hx)
    (h.exists_value x (hassigned (by simp [assignedNames]))) fun k => hj.evalJs_number h.agrees

theorem refines_augAssign (hx : isPlainName x = true) {op : Source.BinOp} {symbol : Script.Operator}
    (hop : BinOp.operator? op = some symbol) (hj : Denotes e j) :
    Refines N (.augAssign p (.name q x) op e) (.augAssign o (.name m (.text x)) (.op n symbol) j) := by
  refine ⟨fun declared _ _ _ ρ _ h => ?_, rfl, by simp [assignedNames]⟩
  rw [execStmt, execJs]
  -- the variable need not be declared: a value of it is added to
  cases hv : ρ x with
  | none =>
    simp only [Option.bind_eq_bind, Option.bind_none, Option.bind_fun_none]
    exact .failed _
  | some v =>
    refine simulated_assign h (isGenerated_of_isPlainName hx) ⟨_, h.agrees x v hv⟩ fun k hk => ?_
    simp only [Option.bind_eq_bind, Option.bind_eq_some_iff, Option.bind_some] at hk
    obtain ⟨_, hf, a, _, _, hb, hk⟩ := hk
    cases hk
    have hnumber : (Value.toJs v).number? = some a := by
      cases v <;> simp_all [Value.int?, Value.toJs, JsValue.number?]
    simp [applyOperator?_arithmetic hf hop, h.agrees x v hv, hnumber, hj.evalNumber h.agrees hb]

/-! ### Branches and loops -/

theorem refines_ifElse (ht : Denotes test t) (hbody : RefinesAll N body js) (horelse : RefinesAll N orelse ks) :
    Refines N (.ifElse p test body orelse) (.ifStmt o t js ks) := by
  refine ⟨fun declared hvars hassigned fuel ρ σ h => ?_, rfl,
    List.forall_mem_append.mpr ⟨hbody.targets, horelse.targets⟩⟩
  rw [varNames, List.append_subset] at hvars
  rw [assignedNames, List.append_subset] at hassigned
  rw [execStmt, execJs]
  exact .ofTest (fun b => ht.evalBoolean h.agrees) (hbody.simulated declared hvars.1 hassigned.1 fuel ρ σ h)
    (horelse.simulated declared hvars.2 hassigned.2 fuel ρ σ h)

theorem refines_whileLoop (ht : Denotes test t) (hbody : RefinesAll N body js) :
    Refines N (.whileLoop p test body []) (.whileStmt o t js) := by
  refine ⟨fun declared hvars hassigned fuel ρ σ h => ?_, rfl, hbody.targets⟩
  rw [execStmt, execJs]
  refine .whileTrue (fun ρ τ hafter b => ht.evalBoolean hafter.1.agrees) (fun ρ τ hafter => ?_)
    (fun ρ τ hafter => .done hafter) fuel ρ σ ⟨h, .refl N σ⟩
  exact (hbody.simulated declared hvars hassigned fuel ρ τ hafter.1).mono fun _ _ => hafter.trans

theorem refines_forLoop (names : LoopNames N) (hx : isPlainName x = true) (hbody : RefinesAll (N + 1 + 1 + 1) body js) :
    Refines N (.forLoop p false (.name q x) (.name q' xs) body []) (.forStmt o
        (.declare n .var false [x, names.index, names.array, names.length]
          [.absent, .num n "0", .name m (.text xs), .dot n (.name n (.text names.array)) "length"])
        (.binOp n (.name n (.text names.index)) (.op n .lt) (.name n (.text names.length)))
        (.exprStmt n (.augAssign n (.name n (.text names.index)) (.op n .add) (.num n "1")))
        (.exprStmt n (.assign n (.name n (.text x))
          (.subscript n (.name n (.text names.array)) (.name n (.text names.index)))) :: js)) := by
  refine ⟨fun declared hvars hassigned fuel ρ _ h => ?_, rfl, hbody.targets⟩
  simp only [varNames, varNamesAll, List.nil_append, List.append_subset] at hvars
  rw [execStmt]
  split
  next hns =>
    obtain ⟨τ, hstart, hafter, hcounts⟩ := names.exists_start h hvars.1 hns n m
    rw [execJs, execJs, hstart]
    refine simulated_forEach (isGenerated_of_isPlainName hx)
      (fun k τ hcounts => hcounts.evalBoolean_test n) (fun k i ρ τ hrelated hcounts hi => ?_)
      (fun k τ hcounts => hcounts.execJs_next n fuel)
      (hbody.simulated declared hvars.2 hassigned fuel) fuel 0 ρ τ hafter hcounts
    exact hcounts.execJs_pick hi (hrelated.exists_value x (hvars.1 (by simp))) n fuel
  · exact .failed _

/-! ### Other statements -/

theorem refines_ret (hj : Denotes e j) : Refines N (.ret p e) (.ret o j) := by
  refine ⟨fun _ _ _ _ ρ _ h => ?_, rfl, by simp [assignedNames]⟩
  rw [execStmt, execJs]
  cases hk : evalInt ρ e with
  | none => exact .failed _
  | some =>
    have hvalue := hj.evalJs_number h.agrees hk
    -- what has a value is not absent
    have habsent : ¬ j.isAbsent = true := by
      unfold Js.isAbsent
      split
      · cases hvalue
      · exact Bool.false_ne_true
    rw [if_neg habsent, hvalue]
    exact .returned rfl

theorem refinesAll_nil : RefinesAll N [] [] := by
  refine ⟨fun _ _ _ _ _ σ h => ?_, by simp, by simp [assignedNamesAll]⟩
  rw [execBlock]
  exact .done ⟨h, .refl N σ⟩

theorem refinesAll_cons {s : Stmt} (h : Refines N s j) (hbody : RefinesAll N body js) :
    RefinesAll N (s :: body) (j :: js) := by
  refine ⟨fun declared hvars hassigned fuel ρ σ hrelated => ?_, List.forall_mem_cons.mpr ⟨h.inPlace, hbody.inPlace⟩,
    List.forall_mem_append.mpr ⟨h.targets, hbody.targets⟩⟩
  rw [varNamesAll, List.append_subset] at hvars
  rw [assignedNamesAll, List.append_subset] at hassigned
  rw [execBlock]
  refine (h.simulated declared hvars.1 hassigned.1 fuel ρ σ hrelated).andThen (fun ρ' τ hafter => ?_) fun _ _ => id
  exact (hbody.simulated declared hvars.2 hassigned.2 fuel ρ' τ hafter.1).mono fun _ _ => hafter.trans

/-! ### The compiler -/

variable {templates : Templates} {cfg : Config} {here : Place} {s : Session} {lists : List String}

theorem keeps_compileExports (he : isInteger lists e = true) : Keeps (compileExports cfg node e) s P := by
  unfold compileExports
  refine (Keeps.guardFeature _ _ _).bind fun _ _ => ?_
  split
  · simp [isInteger] at he
  · simp [isInteger] at he
  · exact .throwBind _

theorem keeps_compileDefaultExport (hes6 : cfg.es6 = false) : Keeps (compileDefaultExport cfg here node e) s P := by
  refine (Keeps.guardFeature _ _ _).bind fun _ hon => ?_
  rw [hes6] at hon
  cases hon

theorem keeps_compileAssign (hx : isPlainName x = true)
    (hdefault : cfg.es6 = true → x ≠ "__default__") (he : isInteger lists e = true) :
    Keeps (compileAssign cfg here node [.name q x] e) s (Refines N (.assign p [.name q x] e)) := by
  unfold compileAssign
  split
  next heq => cases heq
  · exact keeps_compileExports he
  next heq =>
    cases heq
    cases hes6 : cfg.es6 with
    | true => exact absurd rfl (hdefault hes6)
    | false => exact keeps_compileDefaultExport hes6
  next hall hdefault =>
    have hvariable : isDirective x = false := by
      simpa [isDirective] using ⟨fun h => hall q (h ▸ rfl), fun h => hdefault q (h ▸ rfl)⟩
    have htargets : compileExprs cfg here [.name q x] =
        pure [nameNode (cfg.origin (some (Expr.name q x).ref)) x] := by
      rw [compileExprs, compileRuns, compileRuns, compileExpr]
      rfl
    rw [htargets, pure_bind, nameNode_plain hx]
    exact (keeps_compileInteger he).bind fun j hj => .pure (refines_assign hx hvariable hj)

theorem keeps_compileLoop (hx : isPlainName x = true) (hxs : isPlainName xs = true) (hstart : -1 ≤ s.lastNumber)
    {step : Run (List Js)} (hstep : ∀ t : Session, t.lastNumber = s.lastNumber + 1 + 1 + 1 →
      Keeps step t (RefinesAll (s.lastNumber + 1 + 1 + 1) body)) :
    Keeps (inFrame (compileLoop cfg here node (.name q x) (.name q' xs) false step)) s
      (Refines s.lastNumber (.forLoop p false (.name q x) (.name q' xs) body [])) := by
  refine .inFrame ?_
  have hform : loopForm cfg node (.name q x) (.name q' xs) false = pure (.array x) := rfl
  unfold compileLoop
  rw [hform, pure_bind]
  refine (ends_newName _).bind ?_
  rintro array _ ⟨harray, rfl⟩
  refine (ends_newName _).bind ?_
  rintro length _ ⟨hlength, rfl⟩
  refine (ends_newName _).bind ?_
  rintro index _ ⟨hindex, rfl⟩
  simp only [Session.lastNumber_withNumber, Session.lastNumber_entered] at harray hlength hindex ⊢
  rw [compileExpr, nameNode_plain hxs, pure_bind]
  refine (hstep _ (by simp)).endsBind fun _ hjs => .pure ⟨by simp, ?_⟩
  exact refines_forLoop ⟨array, length, index, hstart, harray, hlength, hindex⟩ hx hjs

theorem keeps_inFrame {α : Type} {step : Run α} {P : α → Prop} (h : Keeps step s.entered P) :
    Keeps (inFrame step) s P := by
  refine .inFrame fun a t hstep => ?_
  obtain ⟨rfl, ha⟩ := h a t hstep
  exact ⟨rfl, ha⟩

theorem keeps_compileBlock_of_forall (hdefault : cfg.es6 = true → "__default__" ∉ assignedNamesAll body)
    (h : ∀ stmt ∈ body, (cfg.es6 = true → "__default__" ∉ assignedNames stmt) →
      Keeps (compileStmt templates cfg here stmt) s (Refines s.lastNumber stmt)) :
    Keeps (compileBlock templates cfg here body) s (RefinesAll s.lastNumber body) := by
  induction body with
  | nil =>
    rw [compileBlock]
    exact .pure refinesAll_nil
  | cons _ _ ih =>
    simp only [assignedNamesAll, List.mem_append, not_or, forall_and] at hdefault
    rw [List.forall_mem_cons] at h
    rw [compileBlock]
    exact (h.1 hdefault.1).bind fun j hj => (ih hdefault.2 h.2).bind fun _ hjs =>
      .pure (refinesAll_cons hj hjs)

theorem stmtClosed_refines : StmtClosed lists fun stmt => ∀ here s, -1 ≤ s.lastNumber →
    (cfg.es6 = true → "__default__" ∉ assignedNames stmt) →
      Keeps (compileStmt templates cfg here stmt) s (Refines s.lastNumber stmt) where
  assign p q x e hx he here s _ hdefault := by
    have hne : cfg.es6 = true → x ≠ "__default__" := by
      rintro hes6 rfl
      exact hdefault hes6 (by simp [assignedNames])
    rw [compileStmt]
    exact keeps_inFrame (keeps_compileAssign hx hne he)
  augAssign p q x op e hx he here s _ _ := by
    rw [compileStmt, compileExpr, pure_bind, nameNode_plain hx]
    refine keeps_inFrame ((keeps_operatorNode _ _).bind ?_)
    rintro _ ⟨_, hsymbol, rfl⟩
    exact (keeps_compileInteger he).bind fun j hj => .pure (refines_augAssign hx hsymbol hj)
  ifElse p test body orelse htest hbody horelse here s hstart hdefault := by
    rw [← Session.lastNumber_entered] at hstart ⊢
    simp only [assignedNames, List.mem_append, not_or, forall_and] at hdefault
    rw [compileStmt]
    exact keeps_inFrame ((keeps_compileCondition htest).bind fun t ht =>
      (keeps_compileBlock_of_forall hdefault.1 fun stmt hs => hbody stmt hs _ _ hstart).bind
        fun _ hjs => (keeps_compileBlock_of_forall hdefault.2
          fun stmt hs => horelse stmt hs _ _ hstart).bind fun _ hks =>
            .pure (refines_ifElse ht hjs hks))
  whileLoop p test body htest hbody here s hstart hdefault := by
    rw [← Session.lastNumber_entered] at hstart ⊢
    rw [compileStmt]
    exact keeps_inFrame ((Keeps.demand _).bind fun _ _ => (keeps_compileCondition htest).bind
      fun t ht => (keeps_compileBlock_of_forall hdefault fun stmt hs => hbody stmt hs _ _ hstart).bind
        fun _ hjs => .pure (refines_whileLoop ht hjs))
  forLoop p q x q' xs body hx hxs hbody here s hstart hdefault := by
    rw [compileStmt]
    refine keeps_compileLoop hx hxs hstart fun t ht => ?_
    rw [← ht]
    exact keeps_compileBlock_of_forall hdefault fun stmt hs => hbody stmt hs _ _ (by omega)
  breakLoop p here s _ _ := by
    rw [compileStmt]
    refine keeps_inFrame (.pure ⟨fun _ _ _ _ _ _ h => ?_, rfl, by simp [assignedNames]⟩)
    rw [execStmt, execJs]
    exact .leave ⟨h, .refl _ _⟩
  continueLoop p here s _ _ := by
    rw [compileStmt]
    refine keeps_inFrame (.pure ⟨fun _ _ _ _ _ _ h => ?_, rfl, by simp [assignedNames]⟩)
    rw [execStmt, execJs]
    exact .next ⟨h, .refl _ _⟩
  pass p here s _ _ := by
    rw [compileStmt]
    refine keeps_inFrame (.pure ⟨fun _ _ _ _ _ _ h => ?_, rfl, by simp [assignedNames]⟩)
    rw [execStmt, execJs]
    exact .done ⟨h, .refl _ _⟩
  ret p e he here s _ _ := by
    rw [compileStmt]
    exact keeps_inFrame ((keeps_compileInteger he).bind fun j hj => .pure (refines_ret hj))

theorem keeps_compileBlock (hstart : -1 ≤ s.lastNumber) (hbody : areCore lists body = true)
    (hdefault : cfg.es6 = true → "__default__" ∉ assignedNamesAll body) :
    Keeps (compileBlock templates cfg here body) s (RefinesAll s.lastNumber body) :=
  keeps_compileBlock_of_forall hdefault fun stmt hs =>
    stmtClosed_refines.cores body hbody stmt hs here s hstart

end Transpiler.Meaning
