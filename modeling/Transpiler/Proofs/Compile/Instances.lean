import Mathlib.Data.List.Rotate
import Transpiler.Proofs.Compile.Chains
import Transpiler.Proofs.Script.Reader

/-!
# Tests of classes

Whether a value is an instance of one of several classes is asked by `isinstance` with a sequence of classes, and
by an `except` clause with a sequence of types. The text of such a test is compared with the texts of the tests
for each class alone (`Written`, `disjunction`).

Alone, a class is tested by `instanceof`, but `str`, `int` and `float` are tested by the type of the value too. In
a sequence all of them are tested by `instanceof`, and a sequence of one class cannot be written. So the test of a
sequence is the disjunction of the tests of its classes exactly if there are two or more and all are ordinary
(`written_disjunction_iff`).
-/

namespace Transpiler.Script

variable {n : Origin} {j : Js} {text : String}

/-! ### Groups of tests -/

def testGroup (o n : Origin) (joiner : Operator) (tests : List (Operator × Js × Js)) : Js :=
  .tests o (.op n joiner) (tests.map fun t => .op n t.1) (tests.map (·.2.1)) (tests.map (·.2.2))

theorem chars_testGroup (o n : Origin) (joiner : Operator) (tests : List (Operator × Js × Js)) :
    (testGroup o n joiner tests).chars = '(' :: ((' ' :: (joiner.symbol.toList ++ [' '])).intercalate
        (tests.map fun t => (Js.binOp n t.2.1 (.op n t.1) t.2.2).chars) ++ [')']) := by
  have hitems : (testItems (itemsEach (tests.map fun t => Js.op n t.1)) (itemsEach (tests.map (·.2.1)))
      (itemsEach (tests.map (·.2.2)))).map (fun items => (Item.joinAll items).toList) =
        tests.map fun t => (Js.binOp n t.2.1 (.op n t.1) t.2.2).chars := by
    induction tests with
    | nil => rfl
    | cons _ _ ih =>
      simp [itemsEach, testItems, ih, Js.chars_binOp, Js.toList_joinAll_items, Js.chars_op]
  rw [testGroup, Js.chars_of_items rfl cons_str_ne_line, ← separated_eq_intercalate]
  simp [Js.toList_joinAll_items, toList_joinAll_separated, hitems, Js.chars_op]

theorem check_binOp_iff {o o' : Origin} {s : Operator} {l r : Js} :
    (Js.binOp o l (.op o' s) r).check = passed ↔ l.check = passed ∧ r.check = passed := by
  simp [Js.check, firstFault_cons, firstFault_nil]

theorem check_testGroup_iff {o : Origin} {joiner : Operator} {tests : List (Operator × Js × Js)} :
    (testGroup o n joiner tests).check = passed ↔
      2 ≤ tests.length ∧ ∀ t ∈ tests, (Js.binOp n t.2.1 (.op n t.1) t.2.2).check = passed := by
  have hzip : (checkEach (tests.map (·.2.1))).zip ((checkEach (tests.map fun t => Js.op n t.1)).zip
      (checkEach (tests.map (·.2.2)))) = tests.map fun t => (t.2.1.check, passed, t.2.2.check) := by
    simp only [checkEach_eq_map, List.map_map, List.zip_map', Function.comp_def, Js.check]
  have hoperands : firstFault ((tests.map fun t => (t.2.1.check, passed, t.2.2.check)).flatMap
      fun x => [x.1, x.2.1, x.2.2]) = passed ↔ ∀ t ∈ tests, (Js.binOp n t.2.1 (.op n t.1) t.2.2).check = passed := by
    clear hzip
    induction tests with
    | nil => simp [firstFault_nil]
    | cons _ _ ih =>
      rw [List.map_cons, List.flatMap_cons, firstFault_append, ih, List.forall_mem_cons, check_binOp_iff]
      simp [firstFault_cons, firstFault_nil]
  have hmore : expect (decide (tests.length > 1)) = passed ↔ 2 ≤ tests.length := by
    unfold expect
    split
    next h => exact iff_of_true rfl (of_decide_eq_true h)
    next h => exact iff_of_false (by simp [passed]) fun h' => h (decide_eq_true h')
  rw [testGroup, Js.check]
  dsimp only
  rw [hzip, firstFault_append, firstFault_append]
  refine (and_congr (and_congr Iff.rfl hoperands) Iff.rfl).trans ?_
  simp only [List.length_map, Nat.lt_irrefl, if_false, firstFault_cons, firstFault_nil, Js.check, and_true, hmore]

theorem render?_eq_ok_iff (hnode : j.isNode = true) : j.render? = .ok text ↔ j.check = passed ∧ j.render = text := by
  refine ⟨check_of_render?, ?_⟩
  rintro ⟨hcheck, rfl⟩
  simp [Js.render?, Js.items?, firstFault, checkNode, hnode, passed, hcheck, Js.render]

end Transpiler.Script

namespace Transpiler.Compile

open Script (Js Operator Origin testGroup)
open Source (Expr Keyword)

variable {α : Type} {n : Origin} {j : Js} {text : String} {texts : List String}

/-! ### Tests of one class and of several -/

def sequence? : Expr → Option (List Expr)
  | .tuple _ elts | .list _ elts | .set _ elts => some elts
  | _ => none

/-- Whether a class is neither a sequence nor one of those whose values have a type of their own. -/
def isOrdinary (cls : Expr) : Bool :=
  (sequence? cls).isNone && !(cls.name?.any fun id => id ∈ ["str", "int", "float"])

section

variable (cfg : Config) (here : Place) (o : Origin) (target : Run Js)

def classTest (cls : Expr) : Run Js :=
  instanceNode cfg o target cls (compileExpr cfg here cls) (pairNodes target (compileParts cfg here cls).args)

theorem compileExpr_isInstance (p q : Source.At) (value cls : Expr) (keywords : List Keyword) :
    compileExpr cfg here (.call p (.name q "isinstance") [value, cls] keywords) =
      classTest cfg here (cfg.origin (some (Expr.call p (.name q "isinstance") [value, cls] keywords).ref))
        (compileExpr cfg here value) cls := by
  rw [compileExpr]
  rfl

theorem compileCatchTest_eq (caught : String) (type : Expr) : compileCatchTest cfg here caught type =
    classTest cfg here (cfg.origin none) (pure (.name (cfg.origin none) (.text caught))) type :=
  rfl

variable {cfg here o target} {cls : Expr} {elts : List Expr}

theorem isSequence_eq (cls : Expr) : isSequence cls = (sequence? cls).isSome := by
  cases cls <;> rfl

theorem classTest_ordinary (h : isOrdinary cls = true) : classTest cfg here o target cls = do
    let l ← target
    let r ← compileExpr cfg here cls
    return .binOp o l (.op (cfg.origin none) .instanceOf) r := by
  obtain ⟨hseq, hname⟩ := Bool.and_eq_true_iff.mp h
  have hsequence : ¬ isSequence cls = true := by simpa [isSequence_eq] using hseq
  unfold classTest instanceNode
  dsimp only
  rw [if_neg hsequence]
  split
  next heq => simp [heq] at hname
  next heq => simp [heq] at hname
  next heq => simp [heq] at hname
  · rfl

theorem classTest_sequence (h : sequence? cls = some elts) : classTest cfg here o target cls = do
    let pairs ← pairNodes target (elts.map (compileExpr cfg here))
    return testGroup o (cfg.origin none) .or (pairs.map fun pair => (.instanceOf, pair)) := by
  have hparts : (compileParts cfg here cls).args = elts.map (compileExpr cfg here) := by
    cases cls <;> cases h <;> exact compileRuns_eq_map _
  unfold classTest instanceNode
  dsimp only
  rw [if_pos (by simp [isSequence_eq, h]), hparts]
  simp only [testGroup, List.map_map, Function.comp_def]

variable (cfg here o target) in
theorem classTest_typed (hcls : isOrdinary cls = false) (hseq : sequence? cls = none) : ∃ type object,
    classTest cfg here o target cls = do
      let a ← target
      let b ← target
      return testGroup o (cfg.origin none) .or
        [(.strongEq, .unaryOp (cfg.origin none) (.op (cfg.origin none) .typeOf) a, .json (cfg.origin none) (.str type)),
          (.instanceOf, b, .name (cfg.origin none) (.text object))] := by
  have hsequence : ¬ isSequence cls = true := by simp [isSequence_eq, hseq]
  unfold classTest instanceNode
  dsimp only
  rw [if_neg hsequence]
  split
  · exact ⟨_, _, rfl⟩
  · exact ⟨_, _, rfl⟩
  · exact ⟨_, _, rfl⟩
  · have hordinary : isOrdinary cls = true := by
      cases hname : cls.name? with
      | none => simp [isOrdinary, hseq, hname]
      | some id =>
        have : id ≠ "str" ∧ id ≠ "int" ∧ id ≠ "float" := by simp_all
        simp [isOrdinary, hseq, hname, this]
    simp [hordinary] at hcls

/-! ### Texts of tests -/

def instanceTest (o n : Origin) (pair : Js × Js) : Js :=
  .binOp o pair.1 (.op n .instanceOf) pair.2

theorem chars_instanceTest (o n : Origin) (pair : Js × Js) : (instanceTest o n pair).chars =
    '(' :: (pair.1.chars ++ (" instanceof ".toList ++ (pair.2.chars ++ [')']))) := by
  simp [instanceTest, Js.chars_binOp, Operator.symbol]

theorem pairNodes_cons (step : Run Js) (steps : List (Run Js)) : pairNodes target (step :: steps) = do
    let l ← target
    let r ← step
    return (l, r) :: (← pairNodes target steps) := by
  simp only [pairNodes, List.mapM_cons, bind_assoc, pure_bind]

theorem inOrder_cons (step : Run α) (steps : List (Run α)) : inOrder (step :: steps) = do
    let a ← step
    return a :: (← inOrder steps) := by
  simp only [inOrder, List.mapM_cons, id_eq]

theorem append_intercalate (sep : List α) {each : List (List α)} (hne : each ≠ []) :
    sep ++ sep.intercalate each = each.flatMap (sep ++ ·) := by
  obtain ⟨first, rest, rfl⟩ := List.exists_cons_of_ne_nil hne
  induction rest generalizing first with
  | nil => simp
  | cons next _ ih => rw [List.intercalate_cons_cons, List.flatMap_cons, ← ih next (by simp)]; simp

theorem exists_rotate_of_append_eq {l x u y : List α} (hu : u ≠ []) (h : l ++ x = u ++ (l ++ y)) :
    ∃ k < u.length, x = u.rotate k ++ y := by
  have hpos := List.length_pos_iff.mpr hu
  induction hn : l.length using Nat.strongRecOn generalizing l with
  | _ n ih =>
    rcases List.append_eq_append_iff.mp h with ⟨rest, rfl, hx⟩ | ⟨rest, hl, hx⟩
    · cases rest with
      | nil => exact ⟨0, hpos, by simpa using hx⟩
      | cons =>
        refine ⟨l.length, by simp, ?_⟩
        rw [List.rotate_append_length_eq, hx, List.append_assoc]
    · have hlt : rest.length < n := by
        rw [← hn, hl, List.length_append]
        omega
      refine ih rest.length hlt ?_ rfl
      rw [← hx, hl, List.append_assoc]

/-- What stands before the value in the first test of a group, apart from the bracket of the group. -/
def groupOpenings : List (List Char) :=
  ["(".toList, "((typeof ".toList]

theorem append_instanceOf_ne {l opening : List Char} (h : opening ∈ groupOpenings) (x y : List Char) :
    l ++ (" instanceof ".toList ++ x) ≠ opening ++ (l ++ y) := by
  intro heq
  have hne : ∀ u ∈ groupOpenings, u ≠ [] := by decide
  have hrotate : ∀ u ∈ groupOpenings, ∀ k < u.length, ¬ (u.rotate k).take 2 <+: " i".toList := by decide
  obtain ⟨k, hk, hx⟩ := exists_rotate_of_append_eq (hne opening h) heq
  have hstart : opening.rotate k <+: " instanceof ".toList ++ x := ⟨y, hx.symm⟩
  exact hrotate opening h k hk (hstart.take 2)

theorem exists_opening (hcls : isOrdinary cls = false) {s s' : Session}
    (h : classTest cfg here o target cls s = .ok j s') (hcheck : j.check = Script.passed) :
    ∃ l t, target s = .ok l t ∧ ∃ opening ∈ groupOpenings, ∃ rest, j.chars = '(' :: (opening ++ (l.chars ++ rest)) := by
  cases hseq : sequence? cls with
  | none =>
    obtain ⟨_, _, htyped⟩ := classTest_typed cfg here o target hcls hseq
    simp only [htyped, bind_eq_ok_iff, pure_eq_ok_iff] at h
    obtain ⟨l, t, hl, _, _, -, rfl, -⟩ := h
    refine ⟨l, t, hl, _, .tail _ (.head _), ?_⟩
    simp [Script.chars_testGroup, Js.chars_binOp, Js.chars_unaryOp, Operator.symbol]
  | some elts =>
    simp only [classTest_sequence hseq, bind_eq_ok_iff, pure_eq_ok_iff] at h
    obtain ⟨pairs, _, hpairs, rfl, -⟩ := h
    -- an empty sequence cannot be written
    obtain ⟨hmore, -⟩ := Script.check_testGroup_iff.mp hcheck
    cases elts with
    | nil =>
      obtain ⟨rfl, -⟩ := pure_eq_ok_iff.mp hpairs
      simp at hmore
    | cons =>
      simp only [List.map_cons, pairNodes_cons, bind_eq_ok_iff, pure_eq_ok_iff] at hpairs
      obtain ⟨l, t, hl, _, _, -, pairs, _, -, rfl, -⟩ := hpairs
      refine ⟨l, t, hl, _, .head _, ?_⟩
      cases pairs with
      | nil => simp at hmore
      | cons =>
        simp [Script.chars_testGroup, Js.chars_binOp, Operator.symbol, List.intercalate_cons_cons]

/-! ### Tests of all classes of a sequence -/

variable {s s' : Session} {js : List Js} {pairs : List (Js × Js)}

theorem classTest_ordinary_eq_ok_iff (h : isOrdinary cls = true) :
    classTest cfg here o target cls s = .ok j s' ↔ ∃ l t r, target s = .ok l t ∧
      compileExpr cfg here cls t = .ok r s' ∧ j = instanceTest o (cfg.origin none) (l, r) := by
  simp only [classTest_ordinary h, bind_eq_ok_iff, pure_eq_ok_iff]
  constructor
  · rintro ⟨l, t, hl, r, _, hr, rfl, rfl⟩
    exact ⟨l, t, r, hl, hr, rfl⟩
  · rintro ⟨l, t, r, hl, hr, rfl⟩
    exact ⟨l, t, hl, r, _, hr, rfl, rfl⟩

theorem exists_pairs_of_ordinary {site : Expr → Origin} (hall : ∀ cls ∈ elts, isOrdinary cls = true)
    (h : inOrder (elts.map fun cls => classTest cfg here (site cls) target cls) s = .ok js s') :
    ∃ pairs, pairNodes target (elts.map (compileExpr cfg here)) s = .ok pairs s' ∧
      List.Forall₂ (fun j pair => ∃ o, j = instanceTest o (cfg.origin none) pair) js pairs := by
  induction elts generalizing s js with
  | nil =>
    obtain ⟨rfl, rfl⟩ := pure_eq_ok_iff.mp h
    exact ⟨[], rfl, .nil⟩
  | cons cls _ ih =>
    simp only [List.map_cons, inOrder_cons, bind_eq_ok_iff, pure_eq_ok_iff] at h
    obtain ⟨_, _, hj, _, _, hjs, rfl, rfl⟩ := h
    obtain ⟨l, _, r, hl, hr, rfl⟩ := (classTest_ordinary_eq_ok_iff (hall cls (by simp))).mp hj
    obtain ⟨pairs, hpairs, htests⟩ := ih (fun c hc => hall c (by simp [hc])) hjs
    refine ⟨(l, r) :: pairs, ?_, .cons ⟨_, rfl⟩ htests⟩
    simp only [List.map_cons, pairNodes_cons, bind_eq_ok_iff, pure_eq_ok_iff]
    exact ⟨l, _, hl, r, _, hr, pairs, _, hpairs, rfl, rfl⟩

theorem isOrdinary_of_flatMap_eq {site : Expr → Origin} {o : Origin} {sep : List Char} {s₁ s₂ : Session}
    (hjs : inOrder (elts.map fun cls => classTest cfg here (site cls) target cls) s = .ok js s₁)
    (hcheck : ∀ j ∈ js, j.check = Script.passed)
    (hpairs : pairNodes target (elts.map (compileExpr cfg here)) s = .ok pairs s₂)
    (heq : js.flatMap (fun j => sep ++ j.chars) = pairs.flatMap fun pair => sep ++ (instanceTest o n pair).chars) :
    ∀ cls ∈ elts, isOrdinary cls = true := by
  induction elts generalizing s js pairs with
  | nil => simp
  | cons cls rest ih =>
    simp only [List.map_cons, inOrder_cons, pairNodes_cons, bind_eq_ok_iff, pure_eq_ok_iff] at hjs hpairs
    obtain ⟨j, t, hj, _, _, hjs, rfl, rfl⟩ := hjs
    obtain ⟨l, t', hl, r, _, hr, _, _, hpairs, rfl, rfl⟩ := hpairs
    simp only [List.flatMap_cons, List.append_assoc, List.append_cancel_left_eq] at heq
    cases hcls : isOrdinary cls with
    | true =>
      -- the value and the class are compiled from the same sessions, so both texts start with one test
      obtain ⟨l', _, r', hl', hr', rfl⟩ := (classTest_ordinary_eq_ok_iff hcls).mp hj
      obtain ⟨rfl, rfl⟩ : l = l' ∧ t' = _ := by simpa [hl] using hl'
      obtain ⟨rfl, rfl⟩ : r = r' ∧ _ = t := by simpa [hr] using hr'
      rw [chars_instanceTest, chars_instanceTest, List.append_cancel_left_eq] at heq
      have hrest := ih hjs (fun j hj => hcheck j (by simp [hj])) hpairs heq
      simpa [hcls] using hrest
    | false =>
      obtain ⟨l', _, hl', _, hopening, _, hj⟩ := exists_opening hcls hj (hcheck j (by simp))
      obtain ⟨rfl, -⟩ : l = l' ∧ t' = _ := by simpa [hl] using hl'
      rw [hj, chars_instanceTest] at heq
      simp only [List.cons_append, List.append_assoc, List.cons.injEq, true_and] at heq
      exact absurd heq.symm (append_instanceOf_ne hopening _ _)

def Written (steps : List (Run Js)) (s : Session) (texts : List String) : Prop :=
  ∃ js s', inOrder steps s = .ok js s' ∧ List.Forall₂ (fun j text => j.render? = .ok text) js texts

def disjunction : List String → String
  | [test] => test
  | tests => "(" ++ " || ".intercalate tests ++ ")"

theorem toList_disjunction (hmore : 2 ≤ texts.length) :
    (disjunction texts).toList = '(' :: (" || ".toList.intercalate (texts.map String.toList) ++ [')']) := by
  match texts, hmore with
  | first :: second :: rest, _ => simp [disjunction, String.toList_intercalate]

theorem flatMap_eq_of_disjunction_eq {others : List String} (htexts : 2 ≤ texts.length)
    (hothers : 2 ≤ others.length) (h : disjunction texts = disjunction others) :
    texts.flatMap (fun text => " || ".toList ++ text.toList) =
      others.flatMap fun text => " || ".toList ++ text.toList := by
  have hchars := congrArg String.toList h
  rw [toList_disjunction htexts, toList_disjunction hothers, List.cons.injEq, List.append_cancel_right_eq] at hchars
  have hsep := congrArg (" || ".toList ++ ·) hchars.2
  rw [append_intercalate, append_intercalate] at hsep
  · simpa only [List.flatMap_map] using hsep
  · rintro hnil
    simp [List.map_eq_nil_iff.mp hnil] at hothers
  · rintro hnil
    simp [List.map_eq_nil_iff.mp hnil] at htexts

theorem written_singleton {step : Run Js} :
    Written [step] s [text] ↔ ∃ j s', step s = .ok j s' ∧ j.render? = .ok text := by
  constructor
  · rintro ⟨_, _, hjs, htexts⟩
    simp only [inOrder_cons, bind_eq_ok_iff, pure_eq_ok_iff] at hjs
    obtain ⟨j, t, hj, _, _, -, rfl, -⟩ := hjs
    exact ⟨j, t, hj, (List.forall₂_cons.mp htexts).1⟩
  · rintro ⟨j, s', hj, htext⟩
    refine ⟨[j], s', ?_, .cons htext .nil⟩
    simp only [inOrder_cons, bind_eq_ok_iff, pure_eq_ok_iff]
    exact ⟨j, s', hj, [], s', rfl, rfl, rfl⟩

theorem render_instanceTests (o n : Origin) (hmore : 2 ≤ pairs.length) :
    (testGroup o n .or (pairs.map fun pair => (.instanceOf, pair))).render =
      disjunction (pairs.map fun pair => (instanceTest n n pair).render) := by
  rw [← String.toList_inj, toList_disjunction (by simpa using hmore)]
  refine (Script.chars_testGroup o n _ _).trans ?_
  simp [instanceTest, Js.chars, Function.comp_def, Operator.symbol]

theorem written_classTest_iff (hseq : sequence? cls = some elts) :
    Written [classTest cfg here o target cls] s [text] ↔
      ∃ pairs s', pairNodes target (elts.map (compileExpr cfg here)) s = .ok pairs s' ∧ 2 ≤ pairs.length ∧
        (∀ pair ∈ pairs, (instanceTest (cfg.origin none) (cfg.origin none) pair).check = Script.passed) ∧
        text = disjunction (pairs.map fun pair => (instanceTest (cfg.origin none) (cfg.origin none) pair).render) := by
  rw [written_singleton]
  simp only [classTest_sequence hseq, bind_eq_ok_iff, pure_eq_ok_iff]
  constructor
  · rintro ⟨_, _, ⟨pairs, t, hpairs, rfl, -⟩, hrender⟩
    obtain ⟨hcheck, hrender⟩ := Script.check_of_render? hrender
    obtain ⟨hmore, hcheck⟩ := Script.check_testGroup_iff.mp hcheck
    rw [List.length_map] at hmore
    exact ⟨pairs, t, hpairs, hmore, fun pair hpair => hcheck _ (List.mem_map_of_mem hpair),
      by rw [← hrender, render_instanceTests _ _ hmore]⟩
  · rintro ⟨pairs, t, hpairs, hmore, hcheck, rfl⟩
    refine ⟨_, _, ⟨pairs, t, hpairs, rfl, rfl⟩, (Script.render?_eq_ok_iff rfl).mpr ⟨?_, ?_⟩⟩
    · refine Script.check_testGroup_iff.mpr ⟨by simpa using hmore, fun _ htest => ?_⟩
      obtain ⟨pair, hpair, rfl⟩ := List.mem_map.mp htest
      exact hcheck pair hpair
    · exact render_instanceTests _ _ hmore

theorem written_classTest_disjunction_iff {site : Expr → Origin} (hseq : sequence? cls = some elts)
    (h : Written (elts.map fun cls => classTest cfg here (site cls) target cls) s texts) :
    Written [classTest cfg here o target cls] s [disjunction texts] ↔
      2 ≤ elts.length ∧ ∀ cls ∈ elts, isOrdinary cls = true := by
  obtain ⟨js, s', hjs, htexts⟩ := h
  have hlength : js.length = elts.length := by simpa using (forall₂_of_mapM hjs).length_eq.symm
  have hrendered := htexts.imp fun _ _ => Script.check_of_render?
  have hcheck : ∀ j ∈ js, j.check = Script.passed := (List.forall₂_and_left _ _).mp hrendered |>.1
  obtain rfl : js.map Js.render = texts := by
    rw [← List.forall₂_eq_eq_eq, List.forall₂_map_left_iff]
    exact hrendered.imp fun _ _ h => h.2
  rw [written_classTest_iff hseq]
  constructor
  · rintro ⟨pairs, _, hpairs, hmore, -, heq⟩
    have hpairsLength : pairs.length = elts.length := by simpa using (forall₂_of_mapM hpairs).length_eq.symm
    have hflat := flatMap_eq_of_disjunction_eq (by simp; omega) (by simpa using hmore) heq
    simp only [List.flatMap_map] at hflat
    exact ⟨by omega, isOrdinary_of_flatMap_eq hjs hcheck hpairs hflat⟩
  · rintro ⟨_, hall⟩
    obtain ⟨pairs, hpairs, htests⟩ := exists_pairs_of_ordinary hall hjs
    have hpairsCheck : ∀ pair ∈ pairs,
        (instanceTest (cfg.origin none) (cfg.origin none) pair).check = Script.passed := by
      have hboth := (List.forall₂_and_left _ _).mpr ⟨hcheck, htests⟩
      refine ((List.forall₂_and_left _ _).mp (hboth.flip.imp fun pair j h => ⟨?_, h.2⟩)).1
      obtain ⟨hj, _, rfl⟩ := h
      exact Script.check_binOp_iff.mpr (Script.check_binOp_iff.mp hj)
    have htext : js.map Js.render =
        pairs.map fun pair => (instanceTest (cfg.origin none) (cfg.origin none) pair).render := by
      rw [← List.forall₂_eq_eq_eq, List.forall₂_map_left_iff, List.forall₂_map_right_iff]
      refine htests.imp fun j pair => ?_
      rintro ⟨_, rfl⟩
      exact String.toList_inj.mp ((chars_instanceTest _ _ pair).trans (chars_instanceTest _ _ pair).symm)
    exact ⟨pairs, s', hpairs, by rw [← htests.length_eq]; omega, hpairsCheck, by rw [htext]⟩

end

/-- Whether a value is an instance of one of several classes is tested by the disjunction of the tests for each of
them alone exactly if there are two classes or more and all are ordinary, in calls of `isinstance` as well as in
`except` clauses. -/
theorem written_disjunction_iff (cfg : Config) (here : Place) {classes : Expr} {elts : List Expr}
    (hclasses : sequence? classes = some elts) :
    (∀ p q value keywords s texts,
      Written (elts.map fun cls => compileExpr cfg here (.call p (.name q "isinstance") [value, cls] keywords))
        s texts →
      (Written [compileExpr cfg here (.call p (.name q "isinstance") [value, classes] keywords)]
          s [disjunction texts] ↔
        2 ≤ elts.length ∧ ∀ cls ∈ elts, isOrdinary cls = true)) ∧
    ∀ caught s texts, Written (elts.map (compileCatchTest cfg here caught)) s texts →
      (Written [compileCatchTest cfg here caught classes] s [disjunction texts] ↔
        2 ≤ elts.length ∧ ∀ cls ∈ elts, isOrdinary cls = true) := by
  constructor
  · intro p q value keywords s texts h
    simp only [compileExpr_isInstance] at h ⊢
    exact written_classTest_disjunction_iff hclasses h
  · intro caught s texts h
    rw [compileCatchTest_eq]
    exact written_classTest_disjunction_iff hclasses h

def instanceCall (cls : Expr) : Expr :=
  .call none (.name none "isinstance") [.name none "x", cls] []

def twoClasses : Expr :=
  .tuple none [.name none "A", .attr none (.name none "m") "B"]

theorem written_twoClasses : Written [compileExpr (.standard false false) .top (instanceCall twoClasses)] .start
      [disjunction ["(x instanceof A)", "(x instanceof m.B)"]] ∧
    Written [compileCatchTest (.standard false false) .top "e" twoClasses] .start
      [disjunction ["(e instanceof A)", "(e instanceof m.B)"]] := by
  have h := written_disjunction_iff (.standard false false) .top (rfl : sequence? twoClasses = some _)
  constructor
  · refine (h.1 none none (.name none "x") [] .start _ ⟨_, _, rfl, .cons ?_ (.cons ?_ .nil)⟩).mpr (by decide)
    all_goals decide +kernel
  · refine (h.2 "e" .start _ ⟨_, _, rfl, .cons ?_ (.cons ?_ .nil)⟩).mpr (by decide)
    all_goals decide +kernel

/-- The test of a sequence of one class is built but cannot be written, and `str` is tested in another way in a
sequence than alone. -/
theorem written_instanceCall_sequences :
    Written [compileExpr (.standard false false) .top (instanceCall (.name none "A"))] .start
      ["(x instanceof A)"] ∧
    (∃ j s', compileExpr (.standard false false) .top (instanceCall (.tuple none [.name none "A"])) .start =
      .ok j s' ∧ j.render? = .error (.unmet "")) ∧
    Written [compileExpr (.standard false false) .top (instanceCall (.name none "str"))] .start
      ["(((typeof x) === \"string\") || (x instanceof String))"] ∧
    Written [compileExpr (.standard false false) .top
      (instanceCall (.tuple none [.name none "str", .name none "A"]))] .start
        ["((x instanceof str) || (x instanceof A))"] := by
  refine ⟨?_, ?_, ?_, ?_⟩
  · exact written_singleton.mpr ⟨_, _, rfl, by decide +kernel⟩
  · exact ⟨_, _, rfl, by decide +kernel⟩
  · exact written_singleton.mpr ⟨_, _, rfl, by decide +kernel⟩
  · exact written_singleton.mpr ⟨_, _, rfl, by decide +kernel⟩

end Transpiler.Compile
