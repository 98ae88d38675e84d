import Mathlib.Data.List.Flatten
import Transpiler.Proofs.Compile.Kept
import Transpiler.Proofs.Meaning.Decorators

/-!
# The order of decorators

A class with decorators is followed by statements that apply them when the script runs. The lists of decorators that
these statements hold are in the order of the source, and the library folds a list from its first element on. So the
decorator that stands first is applied first, where the one next to the definition should be: the order is right
exactly if there is at most one decorator (`decorates_iff`).
-/

namespace Transpiler.Meaning

open Compile
open Script (Js Origin)
open Source (At Expr Keyword Stmt)

variable {α β : Type} {as : List α} {R : α → β → Prop} {bs : List β} {here : Place} {js : List Js}
  {header : ClassHeader}

/-! ### Running the statements after a class -/

def isFunction (name : String) : Js → Bool
  | .func _ _ f _ _ _ _ => f == some name
  | _ => false

def definedIn (name : String) (items : List Js) : Option Js :=
  items.find? (isFunction name)

def libraryFunction? (script : Js) (name : String) : Option Js :=
  match script with
  | .statements _ items =>
    match definedIn "_pj_snippets" items with
    | some (.func _ _ _ _ body _ _) => definedIn name body
    | _ => none
  | _ => none

namespace Realm

variable {σ ν : Type} (m : Realm σ ν)

def evalRows (rows : List (String × List Js)) : Act σ (List (String × List ν)) :=
  rows.mapM fun row => (row.1, ·) <$> row.2.mapM m.eval

def rowsOf : List Js → List Js → Option (List (String × List Js))
  | .json _ (.str k) :: keys, .list _ ts :: values => ((k, ts) :: ·) <$> rowsOf keys values
  | [], [] => some []
  | _, _ => none

def argument : Js → Act σ (Datum ν)
  | .list _ ts => Datum.array <$> ts.mapM m.eval
  | .dict _ keys values => do
    let rows ← m.evalRows (← .of (rowsOf keys values))
    return .table (rows.filter (·.1 != "__proto__"))
  | _ => failure

def invoke (script : Js) : Js → Act σ (Option ν)
  | .call _ "" (.dot _ (.name _ (.text "_pj")) f) [cls, arg] _ => do
    let cls ← m.eval cls
    let arg ← m.argument arg
    m.callFunction (← .of (libraryFunction? script f)) [.object cls, arg]
  | _ => failure

def run (script : Js) : Js → Act σ Unit
  | .exprStmt _ (.exprStmt _ (.assign _ target e)) => do
    m.deliver (some target) (← .of (← m.invoke script e))
  | .exprStmt _ (.exportDefault _ e) => do
    m.deliver none (← .of (← m.invoke script e))
  | .exprStmt _ e => m.invoke script e >>= fun _ => pure ()
  | _ => failure

def decorateClass (order : List ν → List ν) (cls : Js) (target : Option Js) (ts : List Js) : Act σ Unit := do
  let cls ← m.eval cls
  let ds ← ts.mapM m.eval
  m.deliver target (← m.apply [.object cls] cls (order ds))

def decorateMembers (order : List ν → List ν) (cls : Js) (rows : List (String × List Js)) : Act σ Unit := do
  let cls ← m.eval cls
  let rows ← m.evalRows rows
  rows.forM fun row => m.decorateMember cls row.1 (order row.2)

def decorateOwn (cls : Js) (rows : List (String × List Js)) : Act σ Unit := do
  let cls ← m.eval cls
  let own := (← m.evalRows rows).filter (·.1 != "__proto__")
  if (own.lookup "hasOwnProperty").isSome then failure
  else own.forM fun row => m.decorateMember cls row.1 row.2

end Realm

/-- A name that is a field like any other: `__proto__` makes no field, and `hasOwnProperty` hides a method that the
library calls. -/
def IsOrdinary (k : String) : Prop :=
  k ≠ "__proto__" ∧ k ≠ "hasOwnProperty"

instance (k : String) : Decidable (IsOrdinary k) :=
  inferInstanceAs (Decidable (_ ∧ _))

/-! ### Orders that differ -/

def recorder : Realm (Nat × List Nat) Nat where
  eval _ := fun (n, log) => some (n, n + 1, log)
  call d _ := fun (n, log) => some (d, n, log ++ [d])
  member _ _ := pure 0
  setMember _ _ _ := pure ()
  removeMember _ _ := pure ()
  defineMember _ _ _ := pure ()
  isInstance _ _ := pure false
  hasField _ _ := pure false
  deliver _ _ := pure ()

variable (n : Nat) (log : List Nat)

theorem recorder_apply (more : List (Datum Nat)) (start : Nat) (ds : List Nat) :
    ∃ v, recorder.apply more start ds (n, log) = some (v, n, log ++ ds) := by
  induction ds generalizing start log with
  | nil =>
    rw [List.append_nil]
    exact ⟨start, rfl⟩
  | cons d _ ih =>
    obtain ⟨v, hv⟩ := ih (log ++ [d]) d
    rw [List.append_cons]
    exact ⟨v, hv⟩

theorem recorder_decorateMember (cls : Nat) (k : String) (ds : List Nat) :
    recorder.decorateMember cls k ds (n, log) = some ((), n, log ++ ds) := by
  obtain ⟨_, hv⟩ := recorder_apply n log [.object cls, .key k] 0 ds
  exact Act.bind_of_eq_some hv

theorem recorder_forM (cls : Nat) (order : List Nat → List Nat) (rows : List (String × List Nat)) :
    (rows.forM fun row => recorder.decorateMember cls row.1 (order row.2)) (n, log) =
      some ((), n, log ++ rows.flatMap fun row => order row.2) := by
  induction rows generalizing log with
  | nil =>
    rw [List.flatMap_nil, List.append_nil]
    rfl
  | cons row _ ih =>
    rw [List.flatMap_cons, ← List.append_assoc, ← ih]
    exact Act.bind_of_eq_some (recorder_decorateMember n log cls row.1 _)

theorem recorder_mapM_eval (ts : List Js) :
    ts.mapM recorder.eval (n, log) = some (List.range' n ts.length, n + ts.length, log) := by
  induction ts generalizing n with
  | nil => rfl
  | cons _ _ ih =>
    rw [List.mapM_cons, Act.bind_of_eq_some (a := n) rfl, Act.bind_of_eq_some (ih (n + 1)), List.length_cons,
      List.range'_succ, Nat.add_right_comm, Nat.add_assoc]
    rfl

def numbered : Nat → List (String × List Js) → List (String × List Nat)
  | _, [] => []
  | n, row :: rest => (row.1, List.range' n row.2.length) :: numbered (n + row.2.length) rest

theorem recorder_evalRows (rows : List (String × List Js)) :
    ∃ n', recorder.evalRows rows (n, log) = some (numbered n rows, n', log) := by
  induction rows generalizing n with
  | nil => exact ⟨n, rfl⟩
  | cons row _ ih =>
    obtain ⟨n', hrest⟩ := ih (n + row.2.length)
    refine ⟨n', ?_⟩
    have hrow : ((row.1, ·) <$> row.2.mapM recorder.eval : Act _ _) (n, log) =
        some ((row.1, List.range' n row.2.length), n + row.2.length, log) := by
      rw [map_eq_pure_bind, Act.bind_of_eq_some (recorder_mapM_eval n log row.2)]
      rfl
    rw [Realm.evalRows, List.mapM_cons, Act.bind_of_eq_some hrow]
    exact Act.bind_of_eq_some hrest

theorem exists_range'_of_mem_numbered {rows : List (String × List Js)} {value : String × List Nat}
    (h : value ∈ numbered n rows) : ∃ k l, value.2 = List.range' k l := by
  induction rows generalizing n with
  | nil => cases h
  | cons row _ ih =>
    rcases List.mem_cons.mp h with rfl | h
    · exact ⟨n, row.2.length, rfl⟩
    · exact ih (n + row.2.length) h

theorem reverse_of_length_le_one (h : as.length ≤ 1) : as.reverse = as := by
  match as, h with
  | [], _ => rfl
  | [a], _ => rfl

theorem length_le_one_of_range' {n k : Nat} (h : List.range' n k = (List.range' n k).reverse) : k ≤ 1 := by
  by_contra hk
  have hhead := congrArg List.head? h
  rw [List.head?_reverse, List.head?_range', List.getLast?_range'] at hhead
  simp only [show k ≠ 0 by omega, if_false, Option.some.injEq] at hhead
  omega

theorem eq_of_flatMap_eq {f g : α → List β}
    (hlength : ∀ a ∈ as, (f a).length = (g a).length) (h : as.flatMap f = as.flatMap g) : ∀ a ∈ as, f a = g a := by
  induction as with
  | nil => simp
  | cons a _ ih =>
    rw [List.flatMap_cons, List.flatMap_cons] at h
    obtain ⟨hhead, htail⟩ := List.append_inj h (hlength a List.mem_cons_self)
    rw [List.forall_mem_cons]
    exact ⟨hhead, ih (fun b hb => hlength b (List.mem_cons_of_mem _ hb)) htail⟩

theorem forall_of_length_flatMap_filter {f : α → List β} {p : α → Bool}
    (hne : ∀ a ∈ as, f a ≠ []) (h : ((as.filter p).flatMap f).length = (as.flatMap f).length) :
    ∀ a ∈ as, p a = true := by
  intro a ha
  by_contra hp
  obtain ⟨front, back, rfl⟩ := List.append_of_mem ha
  have hfront : ((front.filter p).flatMap f).length ≤ (front.flatMap f).length :=
    (List.filter_sublist.flatMap f).length_le
  have hback : ((back.filter p).flatMap f).length ≤ (back.flatMap f).length :=
    (List.filter_sublist.flatMap f).length_le
  have hpos := List.length_pos_of_ne_nil (hne a ha)
  rw [List.filter_append, List.filter_cons_of_neg hp] at h
  simp only [List.flatMap_append, List.flatMap_cons, List.length_append] at h
  omega

theorem recorder_decorateClass (order : List Nat → List Nat) (cls : Js) (target : Option Js) (ts : List Js) :
    recorder.decorateClass order cls target ts (0, []) = some ((), 1 + ts.length, order (List.range' 1 ts.length)) := by
  obtain ⟨_, hv⟩ := recorder_apply (1 + ts.length) [] [.object 0] 0 (order (List.range' 1 ts.length))
  rw [Realm.decorateClass, Act.bind_of_eq_some (a := 0) rfl,
    Act.bind_of_eq_some (recorder_mapM_eval 1 [] ts), Act.bind_of_eq_some hv]
  rfl

theorem decorateClass_eq_iff {cls : Js} {target : Option Js} {ts : List Js} :
    (∀ (σ ν : Type) (m : Realm σ ν), m.decorateClass id cls target ts = m.decorateClass List.reverse cls target ts) ↔
      ts.length ≤ 1 := by
  constructor
  · intro h
    have hsame := congrFun (h _ _ recorder) (0, [])
    rw [recorder_decorateClass, recorder_decorateClass] at hsame
    simp only [id, Option.some.injEq, Prod.mk.injEq, true_and] at hsame
    exact length_le_one_of_range' hsame
  · intro hlength _ _ _
    funext s
    refine Act.bind_congr fun c t _ => Act.bind_congr fun _ _ hds => ?_
    rw [reverse_of_length_le_one ((Act.forall₂_of_mapM hds).length_eq ▸ hlength), id]

theorem forall_mem_iff_of_forall₂ {P : α → Prop} {Q : β → Prop}
    (h : List.Forall₂ R as bs) (hR : ∀ a b, R a b → (P a ↔ Q b)) :
    (∀ a ∈ as, P a) ↔ ∀ b ∈ bs, Q b := by
  induction h with
  | nil => simp
  | cons hab _ ih =>
    rw [List.forall_mem_cons, List.forall_mem_cons]
    exact and_congr (hR _ _ hab) ih

theorem map_eq_map_of_forall₂ {γ : Type} {f : α → γ} {g : β → γ}
    (h : List.Forall₂ R as bs) (hR : ∀ a b, R a b → f a = g b) : as.map f = bs.map g := by
  induction h with
  | nil => rfl
  | cons hab _ ih => rw [List.map_cons, List.map_cons, hR _ _ hab, ih]

theorem Realm.forall₂_of_evalRows {σ ν : Type} {m : Realm σ ν} {rows : List (String × List Js)}
    {values : List (String × List ν)} {s s' : σ} (h : m.evalRows rows s = some (values, s')) :
    List.Forall₂ (fun row value => value.1 = row.1 ∧ value.2.length = row.2.length) rows values := by
  refine (Act.forall₂_of_mapM h).imp fun _ _ => ?_
  rintro ⟨_, _, hvalue⟩
  rw [map_eq_pure_bind] at hvalue
  obtain ⟨_, _, hds, hpure⟩ := Act.bind_eq_some.mp hvalue
  cases hpure
  exact ⟨rfl, (Act.forall₂_of_mapM hds).length_eq.symm⟩

section

variable {cls : Js} {rows : List (String × List Js)} {σ ν : Type} {values : List (String × List ν)}

theorem forall_evalRows_iff {P : String → Nat → Prop} {m : Realm σ ν} {s s' : σ}
    (h : m.evalRows rows s = some (values, s')) :
    (∀ value ∈ values, P value.1 value.2.length) ↔ ∀ row ∈ rows, P row.1 row.2.length := by
  refine (forall_mem_iff_of_forall₂ (Realm.forall₂_of_evalRows h) fun _ _ hvalue => ?_).symm
  rw [hvalue.1, hvalue.2]

theorem filter_of_isOrdinary (h : ∀ value ∈ values, IsOrdinary value.1) :
    values.filter (·.1 != "__proto__") = values ∧ values.lookup "hasOwnProperty" = none := by
  refine ⟨List.filter_eq_self.mpr fun value hvalue => bne_iff_ne.mpr (h value hvalue).1, ?_⟩
  exact List.lookup_eq_none_iff.mpr fun value hvalue => bne_iff_ne.mpr (h value hvalue).2.symm

theorem decorateOwn_of_isOrdinary (hnames : ∀ row ∈ rows, IsOrdinary row.1) (m : Realm σ ν) :
    m.decorateOwn cls rows = m.decorateMembers id cls rows := by
  funext s
  refine Act.bind_congr fun c t _ => Act.bind_congr fun _ _ hvalues => ?_
  obtain ⟨hfilter, hlookup⟩ := filter_of_isOrdinary
    ((forall_evalRows_iff (P := fun k _ => IsOrdinary k) hvalues).mpr hnames)
  simp [hfilter, hlookup]

theorem exists_recorder_decorateOwn (cls : Js) (rows : List (String × List Js)) :
    ∃ n, recorder.evalRows rows (1, []) = some (numbered 1 rows, n, []) ∧
      recorder.decorateMembers List.reverse cls rows (0, []) =
        some ((), n, (numbered 1 rows).flatMap fun value => value.2.reverse) ∧
      recorder.decorateOwn cls rows (0, []) =
        if (((numbered 1 rows).filter (·.1 != "__proto__")).lookup "hasOwnProperty").isSome then none
        else some ((), n, ((numbered 1 rows).filter (·.1 != "__proto__")).flatMap (·.2)) := by
  obtain ⟨n, hrows⟩ := recorder_evalRows 1 [] rows
  refine ⟨n, hrows, ?_, ?_⟩
  · rw [Realm.decorateMembers, Act.bind_of_eq_some (a := 0) rfl, Act.bind_of_eq_some hrows]
    exact recorder_forM n [] 0 List.reverse _
  · rw [Realm.decorateOwn, Act.bind_of_eq_some (a := 0) rfl, Act.bind_of_eq_some hrows]
    split
    · rfl
    · exact recorder_forM n [] 0 id _

/-- Decorating the members that the library finds, each from its first decorator on, is decorating all members, each
from its last decorator on, exactly if all have ordinary names and at most one decorator. -/
theorem decorateOwn_eq_iff (hrows : ∀ row ∈ rows, row.2 ≠ []) :
    (∀ (σ ν : Type) (m : Realm σ ν), m.decorateOwn cls rows = m.decorateMembers List.reverse cls rows) ↔
      ∀ row ∈ rows, IsOrdinary row.1 ∧ row.2.length ≤ 1 := by
  constructor
  · intro h
    obtain ⟨_, hvalues, hmembers, hown⟩ := exists_recorder_decorateOwn cls rows
    have hsame := congrFun (h _ _ recorder) (0, [])
    rw [hmembers, hown] at hsame
    split at hsame
    · cases hsame
    next hlookup =>
      rw [← forall_evalRows_iff (P := fun k l => IsOrdinary k ∧ l ≤ 1) hvalues]
      simp only [Option.some.injEq, Prod.mk.injEq, true_and] at hsame
      -- no decorator is left out, so no member is
      have hproto : ∀ value ∈ numbered 1 rows, (value.1 != "__proto__") = true := by
        refine forall_of_length_flatMap_filter (f := (·.2)) ?_ (by simp [hsame, List.length_flatMap])
        have hne := (forall_evalRows_iff (P := fun _ l => l ≠ 0) hvalues).mpr fun row hrow =>
          List.length_eq_zero_iff.not.mpr (hrows row hrow)
        exact fun value hvalue => List.length_eq_zero_iff.not.mp (hne value hvalue)
      rw [List.filter_eq_self.mpr hproto] at hsame hlookup
      have hreverse := eq_of_flatMap_eq (by simp) hsame
      intro value hvalue
      obtain ⟨_, _, hrange⟩ := exists_range'_of_mem_numbered 1 hvalue
      refine ⟨⟨bne_iff_ne.mp (hproto value hvalue), ?_⟩, ?_⟩
      · rintro heq
        rw [Option.not_isSome_iff_eq_none, List.lookup_eq_none_iff] at hlookup
        exact bne_iff_ne.mp (hlookup value hvalue) heq.symm
      · have hl := hreverse value hvalue
        rw [hrange] at hl ⊢
        rw [List.length_range']
        exact length_le_one_of_range' hl
  · intro h _ _ _
    rw [decorateOwn_of_isOrdinary fun row hrow => (h row hrow).1]
    funext s
    refine Act.bind_congr fun c t _ => Act.bind_congr fun _ t' hvalues => ?_
    have hlength := (forall_evalRows_iff (P := fun _ l => l ≤ 1) hvalues).mpr fun row hrow => (h row hrow).2
    refine congrFun (Act.forM_congr fun value hvalue => ?_) t'
    rw [reverse_of_length_le_one (hlength value hvalue), id]

end

/-! ### The library of a script -/

theorem name_injective {f g : Snippet} (h : f.name = g.name) : f = g := by
  cases f <;> cases g <;> revert h <;> decide

theorem exists_definedIn {fs : List Snippet} {definitions : List Js} (h : List.Forall₂ IsCompiled fs definitions)
    {f : Snippet} (hf : f ∈ fs) (after : List Js) :
    ∃ j, definedIn f.name (definitions ++ after) = some j ∧ IsCompiled f j := by
  induction h with
  | nil => cases hf
  | @cons g _ _ _ hj _ ih =>
    obtain ⟨_, _, _, rfl⟩ := hj.defines
    by_cases hname : g.name = f.name
    · obtain rfl := name_injective hname
      exact ⟨_, by simp [definedIn, isFunction], hj⟩
    · obtain ⟨k, hk, hcompiled⟩ := ih ((List.mem_cons.mp hf).resolve_left fun heq => hname (heq ▸ rfl))
      exact ⟨k, by simpa [definedIn, isFunction, hname] using hk, hcompiled⟩

theorem libraryFunction?_statements {o n o' : Origin} {vars : List String} {params body : List Js} {after : List Js}
    (f : String) :
    libraryFunction? (.statements o (declaration n vars ++
      .func o' .plain (some "_pj_snippets") params body .absent [] :: after)) f = definedIn f body := by
  have hdeclaration : definedIn "_pj_snippets" (declaration n vars) = none := by
    unfold declaration
    split <;> simp [definedIn, isFunction]
  rw [definedIn] at hdeclaration
  simp [libraryFunction?, definedIn, isFunction, List.find?_append, hdeclaration]

section

variable {cfg : Config} {site site' : Site} {body members : List Stmt} {compiled : Compiled} {script j stmt : Js}
  {s s' : Session} {p : At} {name : String} {bases : List Expr} {keywords : List Keyword} {ds : List Expr}
  {v : Visit} {rest : List Visit}

theorem exists_libraryFunction (h : compileModule cfg (site.place cfg) body = .ok compiled)
    (hscript : compiled.withLibrary cfg = .ok script) {f : Snippet} (hf : compiled.session.Uses f) :
    ∃ j, libraryFunction? script f.name = some j ∧ IsCompiled f j := by
  obtain ⟨_, -, hitems⟩ := compileModule_eq_ok h
  rcases withLibrary_eq_ok_iff.mp hscript with ⟨hnil, -⟩ | ⟨-, _, hlibrary, rfl⟩
  · simp [Session.Uses, hnil] at hf
  · obtain ⟨_, _, _, _, after, _, rfl, hcompiled, -⟩ := exists_definitions hlibrary
    have hall : f ∈ Snippet.all.filter (compiled.session.snippets.getD []).contains := by
      refine List.mem_filter.mpr ⟨by cases f <;> decide, ?_⟩
      simpa [Session.Uses] using hf
    obtain ⟨j, hj, hfj⟩ := exists_definedIn hcompiled hall after
    refine ⟨j, ?_, hfj⟩
    rw [hitems, before, List.append_assoc, List.cons_append, libraryFunction?_statements]
    exact hj

/-! ### What follows a class -/

def Translated (cfg : Config) (here : Place) (es : List Expr) (js : List Js) : Prop :=
  List.Forall₂ (fun e j => ∃ s s', compileExpr cfg here e s = .ok j s') es js

theorem translated_of_compileExprs {es : List Expr}
    (h : compileExprs cfg here es s = .ok js s') : Translated cfg here es js := by
  rw [compileExprs, compileRuns_eq_map] at h
  exact List.forall₂_map_left_iff.mp (forall₂_of_mapM h)

theorem optionally_eq_ok {cond : Bool} {step : Run Js} (hcond : cond = true)
    (h : optionally cond step s = .ok js s') : ∃ j, js = [j] ∧ step s = .ok j s' := by
  rw [optionally, if_pos hcond] at h
  obtain ⟨j, hj, rfl⟩ := map_eq_ok_iff.mp h
  exact ⟨j, rfl, hj⟩

theorem exists_statements_of_class {templates : Templates}
    (hclass : isExceptionClass ⟨p, name, bases, keywords, ds⟩ members = false)
    (h : compileStmt templates cfg here (.classDef p name bases keywords members ds) s = .ok j s') :
    ∃ o items, j = .statements o items ∧
      (decoratedMethods members ≠ [] → ∃ stmt ∈ items, ∃ t t', compileMethodDecorators cfg
        (here.member (bases.head?.map (compileExpr cfg here))) ⟨p, name, bases, keywords, ds⟩
        (decoratedMethods members) t = .ok stmt t') ∧
      (ds ≠ [] → ∃ stmt ∈ items, ∃ t t',
        compileClassDecorators cfg here ⟨p, name, bases, keywords, ds⟩ t = .ok stmt t') := by
  rw [compileStmt, inFrame_eq_ok_iff] at h
  obtain ⟨_, h, rfl⟩ := h
  obtain ⟨_, _, -, h⟩ := bind_eq_ok_iff.mp h
  simp only [hclass, Bool.false_eq_true, if_false, compileClass, bind_eq_ok_iff, pure_eq_ok_iff] at h
  obtain ⟨_, _, -, _, _, -, _, _, -, _, _, -, _, _, -, _, _, hdecorators, _, _,
    hclassDecorators, rfl, rfl⟩ := h
  refine ⟨_, _, rfl, fun hmethods => ?_, fun hds => ?_⟩
  · obtain ⟨stmt, rfl, hstmt⟩ := optionally_eq_ok (by simpa using hmethods) hdecorators
    exact ⟨stmt, by simp, _, _, hstmt⟩
  · obtain ⟨stmt, rfl, hstmt⟩ := optionally_eq_ok (by simpa using hds) hclassDecorators
    exact ⟨stmt, by simp, _, _, hstmt⟩

def RowsOf (cfg : Config) (here : Place) (methods : List (String × Header)) (rows : List (String × List Js)) : Prop :=
  List.Forall₂ (fun d row => row.1 = d.1 ∧
    Translated cfg (here.inside d.2.name d.2.isAsync) d.2.decorators row.2) methods rows

theorem exists_rowsOf {methods : List (String × Header)}
    (h : compileMethodDecorators cfg here header methods s = .ok stmt s') :
    ∃ rows, RowsOf cfg here methods rows ∧ stmt = classCall (cfg.origin none) .setDecorators header.name
      (rows.map fun row => .json (cfg.origin none) (.str row.1))
      (rows.map fun row => .list (cfg.origin none) row.2) := by
  simp only [compileMethodDecorators, bind_eq_ok_iff, pure_eq_ok_iff] at h
  obtain ⟨values, _, hvalues, rfl, rfl⟩ := h
  have heach := forall₂_of_mapM hvalues
  suffices hrows : ∃ rows : List (String × List Js), RowsOf cfg here methods rows ∧
      rows.map (·.1) = methods.map (·.1) ∧ rows.map (fun row => .list (cfg.origin none) row.2) = values by
    obtain ⟨rows, hrows, hnames, rfl⟩ := hrows
    refine ⟨rows, hrows, congrArg (classCall _ _ _ · _) ?_⟩
    have hkeys := congrArg (List.map fun name => Js.json (cfg.origin none) (.str name)) hnames
    rw [List.map_map, List.map_map] at hkeys
    exact hkeys.symm
  clear hvalues
  induction heach with
  | nil => exact ⟨[], .nil, rfl, rfl⟩
  | @cons d _ _ _ hvalue _ ih =>
    obtain ⟨rows, hrows, hnames, hlists⟩ := ih
    obtain ⟨_, _, hvalue⟩ := hvalue
    obtain ⟨ts, _, hts, hpure⟩ := bind_eq_ok_iff.mp hvalue
    obtain ⟨rfl, -⟩ := pure_eq_ok_iff.mp hpure
    refine ⟨(d.1, ts) :: rows, .cons ⟨rfl, translated_of_compileExprs hts⟩ hrows, ?_, ?_⟩
    · rw [List.map_cons, List.map_cons, hnames]
    · rw [List.map_cons, hlists]

theorem rowsOf_map {o : Origin} (rows : List (String × List Js)) :
    Realm.rowsOf (rows.map fun row => .json o (.str row.1)) (rows.map fun row => .list o row.2) = some rows := by
  induction rows with
  | nil => rfl
  | cons _ _ ih => simp [Realm.rowsOf, ih]

section

variable {σ ν : Type} (m : Realm σ ν) {f : Snippet} {o : Origin} {g : Js}

theorem invoke_plainCall (hg : libraryFunction? script f.name = some g) (cls arg : Js) :
    m.invoke script (plainCall o (fieldOf o "_pj" f.name) [cls, arg]) = (do
      let cls ← m.eval cls
      let arg ← m.argument arg
      m.callFunction g [.object cls, arg]) := by
  simp [plainCall, fieldOf, Realm.invoke, hg]

theorem run_classCall {rows : List (String × List Js)} (hg : libraryFunction? script Snippet.setDecorators.name = some g)
    (hcompiled : IsCompiled .setDecorators g) (hnames : (rows.map (·.1)).Nodup) :
    m.run script (classCall o .setDecorators name (rows.map fun row => .json o (.str row.1))
      (rows.map fun row => .list o row.2)) = m.decorateOwn (.name o (.text name)) rows := by
  obtain ⟨_, _, _, hcfg, hcompiled⟩ := hcompiled
  have hrun (e : Js) : m.run script (.exprStmt o (plainCall o (fieldOf o "_pj" Snippet.setDecorators.name)
      [.name o (.text name), e])) = m.invoke script (plainCall o
        (fieldOf o "_pj" Snippet.setDecorators.name) [.name o (.text name), e]) >>= fun _ => pure () := by
    simp [Realm.run, plainCall]
  rw [classCall, hrun, invoke_plainCall m hg]
  simp only [Realm.argument, rowsOf_map, Act.of_some, pure_bind, bind_assoc]
  funext t
  refine Act.bind_congr fun _ _ _ => Act.bind_congr fun values _ hvalues => ?_
  have hkeys : ((values.filter (·.1 != "__proto__")).map (·.1)).Nodup := by
    refine List.Nodup.sublist (List.filter_sublist.map _) ?_
    rwa [← map_eq_map_of_forall₂ (Realm.forall₂_of_evalRows hvalues) fun _ _ hvalue => hvalue.1.symm]
  rw [callFunction_setDecorators m hcfg hkeys hcompiled]
  split <;> simp

def classTarget (o : Origin) (name : String) : Option Js :=
  if name = "__default__" then none else some (nameNode o name)

theorem yields_run_compileClassDecorators (hg : libraryFunction? script Snippet.setClassDecorators.name = some g)
    (hcompiled : IsCompiled .setClassDecorators g) :
    Yields (compileClassDecorators cfg here header) fun stmt => stmt ∈ stmt.nodes ∧
      ∃ ts, Translated cfg here header.decorators ts ∧ ∀ (σ ν : Type) (m : Realm σ ν), m.run script stmt =
        m.decorateClass id (nameNode (cfg.origin none) header.name) (classTarget (cfg.origin none) header.name)
          ts := by
  obtain ⟨_, s, _, -, hcompiled⟩ := hcompiled
  have hinvoke (σ ν : Type) (m : Realm σ ν) (target : Option Js) (ts : List Js) :
      (m.invoke script (plainCall (cfg.origin none) (fieldOf (cfg.origin none) "_pj" Snippet.setClassDecorators.name)
        [nameNode (cfg.origin none) header.name, .list (cfg.origin none) ts]) >>= fun v => .of v >>= m.deliver target) =
      m.decorateClass id (nameNode (cfg.origin none) header.name) target ts := by
    simp [invoke_plainCall m hg, Realm.argument, callFunction_setClassDecorators m hcompiled, Realm.decorateClass]
  have hcall : Yields (do
      let decorators ← compileExprs cfg here header.decorators
      return plainCall (cfg.origin none) (fieldOf (cfg.origin none) "_pj" Snippet.setClassDecorators.name)
        [nameNode (cfg.origin none) header.name, .list (cfg.origin none) decorators]) fun e =>
      ∃ ts, Translated cfg here header.decorators ts ∧ ∀ (σ ν : Type) (m : Realm σ ν) target,
        (m.invoke script e >>= fun v => .of v >>= m.deliver target) =
          m.decorateClass id (nameNode (cfg.origin none) header.name) target ts := by
    intro _ _ _ h
    obtain ⟨ts, _, hts, hpure⟩ := bind_eq_ok_iff.mp h
    obtain ⟨rfl, -⟩ := pure_eq_ok_iff.mp hpure
    exact ⟨ts, translated_of_compileExprs hts, fun σ ν m target => hinvoke σ ν m target ts⟩
  refine .inFrame ?_
  dsimp only
  split
  · exact .throw _
  next hdefault =>
    refine hcall.bind fun e ⟨ts, hts, hrun⟩ => .pure ⟨Js.self_mem_nodes (by rintro v ⟨⟩), ts, hts, ?_⟩
    rw [classTarget, if_pos hdefault]
    exact fun σ ν m => hrun σ ν m none
  next hdefault =>
    refine hcall.bind fun e ⟨ts, hts, hrun⟩ => .pure ⟨Js.self_mem_nodes (by rintro v ⟨⟩), ts, hts, ?_⟩
    rw [classTarget, if_neg hdefault]
    exact fun σ ν m => hrun σ ν m (some _)

end

/-! ### Methods with decorators -/

theorem nodup_decoratedMethods (members : List Stmt) : ((decoratedMethods members).map (·.1)).Nodup := by
  rw [decoratedMethods, List.map_filterMap]
  refine (Source.nodup_sortNames _).filterMap fun n n' k hn hn' => ?_
  obtain ⟨d, hd, rfl⟩ := Option.map_eq_some_iff.mp hn
  obtain ⟨d', hd', heq⟩ := Option.map_eq_some_iff.mp hn'
  have hname : d.1 = n := by simpa using List.find?_some hd
  have hname' : d'.1 = n' := by simpa using List.find?_some hd'
  rw [← hname, ← heq, hname']

theorem decorators_ne_nil {d : String × Header} (h : d ∈ decoratedMethods members) : d.2.decorators ≠ [] := by
  obtain ⟨_, -, hd⟩ := List.mem_filterMap.mp h
  have hmem := List.mem_reverse.mp (List.mem_of_find?_eq_some hd)
  obtain ⟨_, -, hstmt⟩ := List.mem_filterMap.mp hmem
  split at hstmt
  · split at hstmt
    next happlied =>
      cases hstmt
      rintro rfl
      cases happlied
    · cases hstmt
  · cases hstmt

/-! ### The order in which decorators are applied -/

theorem uses_of_classSnippets (h : compileModule cfg (site.place cfg) body = .ok compiled)
    (hscript : compiled.withLibrary cfg = .ok script) (htrail : ModuleTrail cfg site body (v :: rest))
    (hv : v.task = .stmt site' (.classDef p name bases keywords members ds))
    (hclass : isExceptionClass ⟨p, name, bases, keywords, ds⟩ members = false) {f : Snippet}
    (hf : f ∈ classSnippets ⟨p, name, bases, keywords, ds⟩ members) : compiled.session.Uses f := by
  obtain ⟨_, _, _, hrun, -⟩ := exists_script_eq h hscript
  obtain ⟨_, _, hval, -⟩ := htrail.run hrun
  have hne : ∀ a, v.task ≠ .act a := by
    rintro _ ha
    cases hv.symm.trans ha
  obtain ⟨_, _, hus, rfl⟩ := Task.runs_parts hne hval
  refine htrail.uses hrun hval ((Session.uses_finish _).mpr (hus.uses ?_))
  rw [hv]
  simp [Task.parts, stmtParts, hclass, classTasks, hf]

/-- The decorators of a class of a module, and those of its methods, are applied from the first one on. This is the
order of the source language, in which the last one is applied first, exactly if there is at most one. -/
theorem decorates_iff (h : compileModule cfg (site.place cfg) body = .ok compiled)
    (hscript : compiled.withLibrary cfg = .ok script) (htrail : ModuleTrail cfg site body (v :: rest))
    (hv : v.task = .stmt site' (.classDef p name bases keywords members ds))
    (hclass : isExceptionClass ⟨p, name, bases, keywords, ds⟩ members = false) :
    (decoratedMethods members ≠ [] → ∃ stmt rows, Shown script stmt ∧
      RowsOf cfg ((site'.member bases.head?).place cfg) (decoratedMethods members) rows ∧
      ((∀ d ∈ decoratedMethods members, IsOrdinary d.1) → ∀ (σ ν : Type) (m : Realm σ ν),
        m.run script stmt = m.decorateMembers id (.name (cfg.origin none) (.text name)) rows) ∧
      ((∀ (σ ν : Type) (m : Realm σ ν),
        m.run script stmt = m.decorateMembers List.reverse (.name (cfg.origin none) (.text name)) rows) ↔
          ∀ d ∈ decoratedMethods members, IsOrdinary d.1 ∧ d.2.decorators.length ≤ 1)) ∧
    (ds ≠ [] → ∃ stmt ts, Shown script stmt ∧ Translated cfg (site'.place cfg) ds ts ∧
      (∀ (σ ν : Type) (m : Realm σ ν), m.run script stmt = m.decorateClass id (nameNode (cfg.origin none) name)
        (classTarget (cfg.origin none) name) ts) ∧
      ((∀ (σ ν : Type) (m : Realm σ ν), m.run script stmt = m.decorateClass List.reverse
        (nameNode (cfg.origin none) name) (classTarget (cfg.origin none) name) ts) ↔ ds.length ≤ 1)) := by
  have huses {f : Snippet} := uses_of_classSnippets (f := f) h hscript htrail hv hclass
  obtain ⟨_, _, _, hrun, -⟩ := exists_script_eq h hscript
  obtain ⟨val, t, hval, -⟩ := htrail.run hrun
  have hrunTask := hval
  rw [hv] at hval
  obtain ⟨j, hj, rfl⟩ := map_eq_ok_iff.mp hval
  obtain ⟨o, items, rfl, hmethods, hclassDecorators⟩ := exists_statements_of_class hclass hj
  have hshown {stmt : Js} (hstmt : stmt ∈ items) (hself : stmt ∈ stmt.nodes) : Shown script stmt := by
    refine shown_of_emitted h hscript ⟨v, rest, t, htrail, hrunTask⟩ stmt ?_
    rw [Js.nodes]
    exact List.mem_cons_of_mem _ (Script.mem_nodesAll.mpr ⟨stmt, hstmt, hself⟩)
  refine ⟨fun hne => ?_, fun hne => ?_⟩
  · obtain ⟨stmt, hstmt, _, _, hcompiled⟩ := hmethods hne
    obtain ⟨rows, hrows, rfl⟩ := exists_rowsOf hcompiled
    obtain ⟨g, hg, hgcompiled⟩ := exists_libraryFunction h hscript (huses (f := .setDecorators) (by
      simp [classSnippets, hne]))
    have hnames : (rows.map (·.1)).Nodup := by
      rw [← map_eq_map_of_forall₂ hrows fun _ _ hrow => hrow.1.symm]
      exact nodup_decoratedMethods members
    have hrun (σ ν : Type) (m : Realm σ ν) : m.run script (classCall (cfg.origin none) .setDecorators name
        (rows.map fun row => .json (cfg.origin none) (.str row.1))
        (rows.map fun row => .list (cfg.origin none) row.2)) =
          m.decorateOwn (.name (cfg.origin none) (.text name)) rows := run_classCall m hg hgcompiled hnames
    refine ⟨_, rows, hshown hstmt (Js.self_mem_nodes (by rintro v ⟨⟩)), hrows, fun hordinary σ ν m => ?_, ?_⟩
    · rw [hrun]
      refine decorateOwn_of_isOrdinary ?_ m
      exact (forall_mem_iff_of_forall₂ hrows fun d row hrow => by rw [hrow.1]).mp hordinary
    · have hlength : (∀ d ∈ decoratedMethods members, IsOrdinary d.1 ∧ d.2.decorators.length ≤ 1) ↔
          ∀ row ∈ rows, IsOrdinary row.1 ∧ row.2.length ≤ 1 :=
        forall_mem_iff_of_forall₂ hrows fun d row hrow => by rw [hrow.1, hrow.2.length_eq]
      have hdecorators : ∀ row ∈ rows, row.2 ≠ [] := by
        refine (forall_mem_iff_of_forall₂ hrows fun d row hrow => ?_).mp fun d => decorators_ne_nil
        rw [← List.length_pos_iff, ← List.length_pos_iff, hrow.2.length_eq]
      simp only [hrun]
      rw [decorateOwn_eq_iff hdecorators, hlength]
  · obtain ⟨stmt, hstmt, _, _, hcompiled⟩ := hclassDecorators hne
    obtain ⟨g, hg, hgcompiled⟩ := exists_libraryFunction h hscript (huses (f := .setClassDecorators) (by
      simp [classSnippets, hne]))
    obtain ⟨hself, ts, hts, hrun⟩ := yields_run_compileClassDecorators hg hgcompiled _ _ _ hcompiled
    refine ⟨stmt, ts, hshown hstmt hself, hts, hrun, ?_⟩
    simp only [hrun]
    rw [decorateClass_eq_iff, hts.length_eq]

end

def decoratedClass (ds : List Expr) : Stmt :=
  .classDef none "A" [] [] [.functionDef none false "f" ⟨[], [⟨none, "self", .absent⟩], none, [], [], none, []⟩
    [.pass none] ds .absent] ds

/-- With one decorator each, the class and its method are decorated as in the source language. -/
theorem decorates_once : ∃ compiled script v rest rows ts stmt stmt',
    compileModule (.standard true false) (Site.top.place (.standard true false))
      [decoratedClass [.name none "d"]] = .ok compiled ∧
    compiled.withLibrary (.standard true false) = .ok script ∧
    ModuleTrail (.standard true false) .top [decoratedClass [.name none "d"]] (v :: rest) ∧
    v.task = .stmt .top (decoratedClass [.name none "d"]) ∧ Shown script stmt ∧ Shown script stmt' ∧
    rows.map (fun row => (row.1, row.2.length)) = [("f", 1)] ∧ ts.length = 1 ∧
    (∀ (σ ν : Type) (m : Realm σ ν), m.run script stmt = m.decorateMembers List.reverse
      (.name (Config.origin (.standard true false) none) (.text "A")) rows) ∧
    ∀ (σ ν : Type) (m : Realm σ ν), m.run script stmt' = m.decorateClass List.reverse
      (nameNode (Config.origin (.standard true false) none) "A")
      (classTarget (Config.origin (.standard true false) none) "A") ts := by
  obtain ⟨script, hboth⟩ := exists_of_isOk
    (x := compileModule (.standard true false) (Site.top.place (.standard true false))
      [decoratedClass [.name none "d"]] >>= Compiled.withLibrary (.standard true false)) (by decide +kernel)
  obtain ⟨compiled, h, hscript⟩ := bind_eq_ok.mp hboth
  obtain ⟨_, _, _, hrun, -⟩ := exists_script_eq h hscript
  obtain ⟨v, rest, htrail, hv⟩ := exists_trail_of_stands hrun (.module (List.mem_singleton_self _))
  obtain ⟨hmethods, hclass⟩ := decorates_iff h hscript htrail hv rfl
  obtain ⟨stmt, rows, hshown, hrows, -, hiff⟩ := hmethods (by decide)
  obtain ⟨stmt', ts, hshown', hts, -, hiff'⟩ := hclass (by decide)
  refine ⟨compiled, script, v, rest, rows, ts, stmt, stmt', h, hscript, htrail, hv, hshown, hshown', ?_,
    hts.length_eq.symm, hiff.mpr (by decide), hiff'.mpr (by decide)⟩
  have hnames := map_eq_map_of_forall₂ (f := fun d => (d.1, d.2.decorators.length)) hrows fun d row hrow => by
    rw [hrow.2.length_eq, ← hrow.1]
  exact hnames.symm

def twoDecorators : List Expr :=
  [.name none "d1", .name none "d2"]

/-- The first of two decorators of a class is applied first, where the second one should be. -/
theorem first_decorator_applied_first :
    compileEach (.standard true false) [.classDef none "A" [] [] [.pass none] twoDecorators] =
      .ok ["class A \x7b\n\x7d\nA = _pj.set_class_decorators(A, [d1, d2]);\n"] ∧
    ∃ script stmt t, (compileModule (.standard true false) (Site.top.place (.standard true false))
        [decoratedClass twoDecorators] >>= Compiled.withLibrary (.standard true false)) = .ok script ∧
      compileClassDecorators (.standard true false) (Site.top.place (.standard true false))
        ⟨none, "A", [], [], twoDecorators⟩ .start = .ok stmt t ∧
      recorder.run script stmt (0, []) = some ((), 3, [1, 2]) ∧
      ∀ cls target ts, ts.length = 2 →
        recorder.decorateClass List.reverse cls target ts (0, []) = some ((), 3, [2, 1]) := by
  refine ⟨by decide +kernel, ?_⟩
  obtain ⟨script, hboth⟩ := exists_of_isOk
    (x := compileModule (.standard true false) (Site.top.place (.standard true false))
      [decoratedClass twoDecorators] >>= Compiled.withLibrary (.standard true false)) (by decide +kernel)
  obtain ⟨compiled, h, hscript⟩ := bind_eq_ok.mp hboth
  obtain ⟨_, _, _, hrun, -⟩ := exists_script_eq h hscript
  obtain ⟨v, rest, htrail, hv⟩ := exists_trail_of_stands hrun (.module (List.mem_singleton_self _))
  obtain ⟨g, hg, hcompiled⟩ := exists_libraryFunction (f := .setClassDecorators) h hscript
    (uses_of_classSnippets h hscript htrail hv rfl (by decide))
  obtain ⟨stmt, t, hstmt⟩ : ∃ stmt t, compileClassDecorators (.standard true false)
      (Site.top.place (.standard true false)) ⟨none, "A", [], [], twoDecorators⟩ .start = .ok stmt t := ⟨_, _, rfl⟩
  refine ⟨script, stmt, t, hboth, hstmt, ?_, ?_⟩
  · obtain ⟨-, ts, hts, hrun⟩ := yields_run_compileClassDecorators hg hcompiled _ _ _ hstmt
    have hlength : ts.length = 2 := hts.length_eq.symm
    rw [hrun, recorder_decorateClass, hlength]
    rfl
  · intro cls target ts hlength
    rw [recorder_decorateClass, hlength]
    rfl

end Transpiler.Meaning
