import Transpiler.Proofs.Compile.Does
import Transpiler.Proofs.Meaning.Expr

/-!
# Chains of comparisons

A chain `a < b <= c` asks one test for each of its operators, between the operand before it and the one after
it. A tree does the same if it is the conjunction of such tests in order (`Chained`), where a test of membership
is the call of a helper (`Relates`).

A chain that starts with `in` or `not in` is compiled as if it ended after its first test, and an `in` further on
is compiled to the operator of that name. So a chain keeps its tests exactly if none of them is a test of
membership, or if it is a single test and there are helpers (`chained_compare_iff`).
-/

namespace Transpiler.Compile

open Script (Js Operator Origin)
open Source (CmpOp Expr)

variable {o : Origin} {right : Expr}

/-! ### Conjunctions -/

inductive Conjunction : List Js → Js → Prop
  | one (test : Js) : Conjunction [test] test
  | more {tests : List Js} {front : Js} (h : Conjunction tests front) (o o' : Origin) (test : Js) :
      Conjunction (tests ++ [test]) (.binOp o front (.op o' .and) test)

namespace Conjunction

variable {tests others : List Js} {j front : Js}

theorem ne_nil (h : Conjunction tests j) : tests ≠ [] := by
  cases h <;> simp

theorem exists_binOp (h : Conjunction tests j) (hlength : 2 ≤ tests.length) :
    ∃ o left op right, j = .binOp o left op right := by
  cases h with
  | one => simp at hlength
  | more => exact ⟨_, _, _, _, rfl⟩

theorem unique (h : Conjunction tests j) (h' : Conjunction others j)
    (hlength : tests.length = others.length) : tests = others := by
  induction h generalizing others with
  | one =>
    cases h' with
    | one => rfl
    | more h' => simpa using h'.ne_nil (by simpa using hlength)
  | more h _ _ _ ih =>
    cases h' with
    | one => simpa using h.ne_nil (by simpa using hlength)
    | more h' => rw [ih h' (by simpa using hlength)]

theorem foldl (h : Conjunction tests front) (n n' : Origin) (rest : List Js) :
    Conjunction (tests ++ rest) (rest.foldl (fun acc j => .binOp n acc (.op n' .and) j) front) := by
  induction rest generalizing tests front with
  | nil => simpa using h
  | cons j _ ih => simpa using ih (h.more n n' j)

theorem joinTests (o n n' : Origin) (hne : tests ≠ []) :
    Conjunction tests ((Compile.joinTests o n (.op n' .and) tests).getD .absent) := by
  obtain ⟨first, rest, rfl⟩ := List.exists_cons_of_ne_nil hne
  rcases List.eq_nil_or_concat rest with rfl | ⟨rest, last, rfl⟩
  · exact one first
  · rw [List.concat_eq_append, joinTests_append]
    exact ((one first).foldl n n' rest).more o n' last

end Conjunction

/-! ### Tests -/

def isMembership (op : CmpOp) : Bool :=
  op = .isIn || op = .notIn

def memberHelper (cfg : Config) : Snippet :=
  if cfg.es6 then .containsEs6 else .contains

inductive Operates : CmpOp → Js × Js → Js → Prop
  | mk {op : CmpOp} {symbol : Operator} (h : CmpOp.operator? op = some symbol) (o o' : Origin) (l r : Js) :
      Operates op (l, r) (.binOp o l (.op o' symbol) r)

/-- A tree tests two operands as the source says: by an operator, or for membership by a call of the helper, which
is negated for `not in`. -/
inductive Relates (cfg : Config) : CmpOp → Js × Js → Js → Prop
  | operator {op : CmpOp} {pair : Js × Js} {j : Js} (hop : isMembership op = false) (h : Operates op pair j) :
      Relates cfg op pair j
  | member (o o' : Origin) (l r : Js) :
      Relates cfg .isIn (l, r) (plainCall o (.dot o' (.text "_pj") (memberHelper cfg).name) [l, r])
  | noMember (o o' o₁ o₂ : Origin) (l r : Js) : Relates cfg .notIn (l, r)
      (.unaryOp o (.op o' .not) (plainCall o₁ (.dot o₂ (.text "_pj") (memberHelper cfg).name) [l, r]))

theorem not_relates_of_binOp {cfg : Config} {op : CmpOp} {pair : Js × Js} {l symbol r : Js}
    (hop : isMembership op = true) : ¬ Relates cfg op pair (.binOp o l symbol r) := by
  intro h
  cases h with
  | operator hplain => simp [hop] at hplain

/-! ### Chains -/

section

variable (cfg : Config) (here : Place)

def operandPairs (left : Expr) (comparators : List Expr) : Run (List (Js × Js)) :=
  ((left :: comparators).zip comparators).mapM fun (a, b) => do
    let l ← compileExpr cfg here a
    return (l, ← compileExpr cfg here b)

def noteHelper (ops : List CmpOp) : Run Unit :=
  if ops.any isMembership then useSnippet (memberHelper cfg) else pure ()

/-- From a session to another one the operands of a chain are compiled, and a tree is the conjunction of their
tests, which are as `tested` says for each operator. -/
def Chained (tested : CmpOp → Js × Js → Js → Prop) (left : Expr) (ops : List CmpOp) (comparators : List Expr)
    (s : Session) (j : Js) (s' : Session) : Prop :=
  ∃ pairs tests, operandPairs cfg here left comparators s = .ok pairs s' ∧
    List.Forall₂ (fun x test => tested x.1 x.2 test) (ops.zip pairs) tests ∧ Conjunction tests j

end

variable {cfg : Config} {here : Place} {p : Source.At} {left : Expr} {op : CmpOp} {ops : List CmpOp}
  {comparators : List Expr} {s s' : Session} {j : Js}

theorem operandPairs_cons (right : Expr) (rest : List Expr) : operandPairs cfg here left (right :: rest) = do
    let l ← compileExpr cfg here left
    let r ← compileExpr cfg here right
    return (l, r) :: (← operandPairs cfg here right rest) := by
  simp only [operandPairs, List.zip_cons_cons, List.mapM_cons, bind_assoc, pure_bind]

theorem length_of_operandPairs {pairs : List (Js × Js)}
    (h : operandPairs cfg here left comparators s = .ok pairs s') : pairs.length = comparators.length := by
  simpa using (forall₂_of_mapM h).length_eq.symm

theorem exists_of_testNodes {tests : List Js} (hlength : comparators.length = ops.length)
    (h : testNodes cfg o (compileExpr cfg here left) ops (compileRuns cfg here comparators) s = .ok tests s') :
    ∃ pairs, operandPairs cfg here left comparators s = .ok pairs s' ∧
      List.Forall₂ (fun x test => Operates x.1 x.2 test) (ops.zip pairs) tests := by
  induction comparators generalizing left ops s tests with
  | nil =>
    obtain rfl : ops = [] := List.length_eq_zero_iff.mp hlength.symm
    obtain ⟨rfl, rfl⟩ := pure_eq_ok_iff.mp h
    exact ⟨[], rfl, .nil⟩
  | cons _ _ ih =>
    cases ops with
    | nil => simp at hlength
    | cons op =>
      simp only [compileRuns, testNodes, bind_eq_ok_iff, pure_eq_ok_iff] at h
      obtain ⟨l, _, hl, _, _, hsymbol, r, _, hr, _, _, htests, rfl, rfl⟩ := h
      obtain ⟨pairs, hpairs, hoperates⟩ := ih (by simpa using hlength) htests
      cases hop : CmpOp.operator? op with
      | none => simp [hop, operatorNode] at hsymbol; cases hsymbol
      | some =>
        rw [hop] at hsymbol
        obtain ⟨rfl, rfl⟩ := pure_eq_ok_iff.mp hsymbol
        refine ⟨(l, r) :: pairs, ?_, .cons (.mk hop _ _ l r) hoperates⟩
        simp only [operandPairs_cons, bind_eq_ok_iff, pure_eq_ok_iff]
        exact ⟨l, _, hl, r, _, hr, pairs, _, hpairs, rfl, rfl⟩

theorem relates_membershipNode (hop : isMembership op = true)
    (h : membershipNode cfg o (op = .notIn) (compileExpr cfg here left) (compileExpr cfg here right) s = .ok j s') :
    ∃ pair, operandPairs cfg here left [right] s = .ok [pair] s' ∧ Relates cfg op pair j := by
  simp only [membershipNode, bind_eq_ok_iff] at h
  obtain ⟨l, _, hl, r, t, hr, h⟩ := h
  have hpairs : operandPairs cfg here left [right] s = .ok [(l, r)] t := by
    simp only [operandPairs_cons, bind_eq_ok_iff, pure_eq_ok_iff]
    exact ⟨l, _, hl, r, _, hr, [], _, rfl, rfl, rfl⟩
  cases op with
  | isIn =>
    obtain ⟨rfl, rfl⟩ := pure_eq_ok_iff.mp h
    exact ⟨(l, r), hpairs, .member _ _ l r⟩
  | notIn =>
    obtain ⟨rfl, rfl⟩ := pure_eq_ok_iff.mp h
    exact ⟨(l, r), hpairs, .noMember _ _ _ _ l r⟩
  | _ => cases hop

def isCut (cfg : Config) (ops : List CmpOp) : Bool :=
  cfg.snippets && ops.head?.any isMembership

theorem isCut_cons : isCut cfg (op :: ops) = true ↔ cfg.snippets = true ∧ isMembership op = true := by
  simp [isCut]

theorem compileExpr_compare_cut (hcut : isCut cfg (op :: ops) = true) (right : Expr) (rest : List Expr) :
    compileExpr cfg here (.compare p left (op :: ops) (right :: rest)) = useSnippet (memberHelper cfg) >>= fun _ =>
        membershipNode cfg (cfg.origin (some (Expr.compare p left [op] [right]).ref)) (op = .notIn)
          (compileExpr cfg here left) (compileExpr cfg here right) := by
  have hfirst : ((decide (op = .isIn) || decide (op = .notIn)) && cfg.snippets) = true := by
    rw [Bool.and_comm]
    exact hcut
  rw [compileExpr]
  unfold compareRule
  dsimp only
  rw [if_pos hfirst, compileRuns]
  rfl

theorem chained_of_single (hcut : isCut cfg [op] = true)
    (h : compileExpr cfg here (.compare p left [op] [right]) s = .ok j s') :
    ∃ t, noteHelper cfg [op] s = .ok () t ∧ Chained cfg here (Relates cfg) left [op] [right] t j s' := by
  have hop : isMembership op = true := (isCut_cons.mp hcut).2
  rw [compileExpr_compare_cut hcut] at h
  obtain ⟨_, t, hnote, h⟩ := bind_eq_ok_iff.mp h
  obtain ⟨pair, hpairs, hrelates⟩ := relates_membershipNode hop h
  refine ⟨t, ?_, [pair], [j], hpairs, .cons hrelates .nil, .one j⟩
  rw [noteHelper, if_pos (by simp [hop])]
  exact hnote

section

variable (hlength : comparators.length = ops.length)

include hlength

theorem chained_of_not_isCut (hcut : isCut cfg ops = false)
    (h : compileExpr cfg here (.compare p left ops comparators) s = .ok j s') :
    Chained cfg here Operates left ops comparators s j s' := by
  rw [compileExpr] at h
  unfold compareRule at h
  cases ops with
  | nil => cases h
  | cons op ops =>
    have hop : ¬ ((decide (op = .isIn) || decide (op = .notIn)) && cfg.snippets) = true := by
      rw [Bool.and_comm]
      exact Bool.eq_false_iff.mp hcut
    have hruns : ¬ (compileRuns cfg here comparators).length < (op :: ops).length := by
      rw [compileRuns_eq_map, List.length_map, hlength]
      exact Nat.lt_irrefl _
    dsimp only at h
    rw [if_neg hop, if_neg hruns] at h
    obtain ⟨tests, _, htests, h⟩ := bind_eq_ok_iff.mp h
    obtain ⟨rfl, rfl⟩ := pure_eq_ok_iff.mp h
    obtain ⟨pairs, hpairs, hoperates⟩ := exists_of_testNodes hlength htests
    refine ⟨pairs, tests, hpairs, hoperates, .joinTests _ _ _ ?_⟩
    rintro rfl
    have hzip := hoperates.length_eq
    rw [List.length_zip, length_of_operandPairs hpairs, hlength] at hzip
    simp at hzip

theorem Chained.exists_tests {tested : CmpOp → Js × Js → Js → Prop}
    (h : Chained cfg here tested left ops comparators s j s') :
    ∃ tests, List.Forall₂ (fun op test => ∃ pair, tested op pair test) ops tests ∧ Conjunction tests j := by
  obtain ⟨pairs, tests, hpairs, htests, hconj⟩ := h
  refine ⟨tests, ?_, hconj⟩
  have hops : ops = (ops.zip pairs).map Prod.fst := by
    rw [List.map_fst_zip]
    exact Nat.le_of_eq (hlength.symm.trans (length_of_operandPairs hpairs).symm)
  rw [hops, List.forall₂_map_left_iff]
  exact htests.imp fun x _ htest => ⟨x.2, htest⟩

theorem not_chained_of_isCut (hcut : isCut cfg ops = true)
    (hmore : ops.length ≠ 1) (h : compileExpr cfg here (.compare p left ops comparators) s = .ok j s')
    (tested : CmpOp → Js × Js → Js → Prop) (t : Session) :
    ¬ Chained cfg here tested left ops comparators t j s' := by
  intro hchained
  obtain ⟨_, htests, hconj⟩ := hchained.exists_tests hlength
  cases ops with
  | nil => simp [isCut] at hcut
  | cons op =>
    cases comparators with
    | nil => simp at hlength
    | cons =>
      have hop : isMembership op = true := (isCut_cons.mp hcut).2
      rw [compileExpr_compare_cut hcut] at h
      obtain ⟨_, _, -, h⟩ := bind_eq_ok_iff.mp h
      obtain ⟨_, -, hrelates⟩ := relates_membershipNode hop h
      obtain ⟨_, _, _, _, rfl⟩ := hconj.exists_binOp (by
        rw [← htests.length_eq]
        simp only [List.length_cons] at hmore ⊢
        omega)
      exact not_relates_of_binOp hop hrelates

theorem not_chained_relates
    (h : Chained cfg here Operates left ops comparators s j s') (hop : op ∈ ops) (hmember : isMembership op = true)
    (t : Session) : ¬ Chained cfg here (Relates cfg) left ops comparators t j s' := by
  intro hrelates
  obtain ⟨_, htests, hconj⟩ := h.exists_tests hlength
  obtain ⟨_, hothers, hconj'⟩ := hrelates.exists_tests hlength
  obtain rfl := hconj.unique hconj' (htests.length_eq.symm.trans hothers.length_eq)
  obtain ⟨test, ⟨pair, htest⟩, _, htest'⟩ : ∃ test, (∃ pair, Operates op pair test) ∧
      ∃ pair, Relates cfg op pair test := by
    obtain ⟨_, hi, rfl⟩ := List.mem_iff_getElem.mp hop
    exact ⟨_, htests.get hi (htests.length_eq ▸ hi), hothers.get hi (hothers.length_eq ▸ hi)⟩
  cases htest
  exact not_relates_of_binOp hmember htest'

end

theorem Chained.relates (hplain : ∀ op ∈ ops, isMembership op = false)
    (h : Chained cfg here Operates left ops comparators s j s') :
    Chained cfg here (Relates cfg) left ops comparators s j s' := by
  obtain ⟨pairs, tests, hpairs, htests, hconj⟩ := h
  have hboth := (List.forall₂_and_left _ _).mpr
    ⟨fun x (hx : x ∈ ops.zip pairs) => hplain x.1 (List.of_mem_zip hx).1, htests⟩
  exact ⟨pairs, tests, hpairs, hboth.imp fun x _ htest => .operator htest.1 htest.2, hconj⟩

/-- A chain of comparisons is compiled to the conjunction of its tests, with a call of the helper for each test of
membership, exactly if it has no such test, or if it is a single one and there are helpers. Any other chain is cut
after its first test if that is one of membership, or else its tests of membership are done by operators. -/
theorem chained_compare_iff (hlength : comparators.length = ops.length)
    (h : compileExpr cfg here (.compare p left ops comparators) s = .ok j s') :
    ((∃ t, noteHelper cfg ops s = .ok () t ∧ Chained cfg here (Relates cfg) left ops comparators t j s') ↔
      (∀ op ∈ ops, isMembership op = false) ∨ ops.length = 1 ∧ cfg.snippets = true) ∧
    if isCut cfg ops then
      compileExpr cfg here (.compare p left (ops.take 1) (comparators.take 1)) s = .ok j s'
    else Chained cfg here Operates left ops comparators s j s' := by
  cases hcut : isCut cfg ops with
  | true =>
    cases ops with
    | nil => simp [isCut] at hcut
    | cons op ops =>
      obtain ⟨hsnippets, hop⟩ := isCut_cons.mp hcut
      cases comparators with
      | nil => simp at hlength
      | cons right rest =>
        rw [if_pos rfl]
        constructor
        · by_cases hmore : (op :: ops).length = 1
          · obtain rfl : ops = [] := by simpa using hmore
            obtain rfl : rest = [] := by simpa using hlength
            exact iff_of_true (chained_of_single hcut h) (.inr ⟨rfl, hsnippets⟩)
          · refine iff_of_false ?_ ?_
            · rintro ⟨t, -, hchained⟩
              exact not_chained_of_isCut hlength hcut hmore h _ t hchained
            · rintro (hplain | ⟨hone, -⟩)
              · simp [hplain op (by simp)] at hop
              · exact hmore hone
        · have hsingle : isCut cfg [op] = true := hcut
          show compileExpr cfg here (.compare p left [op] [right]) s = .ok j s'
          rw [compileExpr_compare_cut hcut] at h
          rwa [compileExpr_compare_cut hsingle]
  | false =>
    have hchained := chained_of_not_isCut hlength hcut h
    refine ⟨?_, by rwa [if_neg Bool.false_ne_true]⟩
    by_cases hplain : ∀ op ∈ ops, isMembership op = false
    · refine iff_of_true ⟨s, ?_, hchained.relates hplain⟩ (.inl hplain)
      have hnone : ops.any isMembership = false := by simpa using hplain
      rw [noteHelper, hnone]
      rfl
    · refine iff_of_false ?_ ?_
      · rintro ⟨t, -, hrelates⟩
        obtain ⟨op, hop, hmember⟩ : ∃ op ∈ ops, isMembership op = true := by simpa using hplain
        exact not_chained_relates hlength hchained hop hmember t hrelates
      · rintro (hall | ⟨hone, hsnippets⟩)
        · exact hplain hall
        · -- a single test of membership is cut where there are helpers
          obtain ⟨op, rfl⟩ := List.length_eq_one_iff.mp hone
          have hop : isMembership op = false := by simpa [isCut, hsnippets] using hcut
          exact hplain (by simpa using hop)

/-- A chain of two tests with a list comprehension between them, which is compiled for each of the two. -/
def comprehensionChain : Expr :=
  .compare none (.name none "a") [.lt, .isNot]
    [.listComp none (.name none "x") [.mk (.name none "x") (.name none "xs") []], .name none "b"]

theorem chained_comprehensionChain : ∃ j s',
    compileExpr (.standard false false) .top comprehensionChain .start = .ok j s' ∧
      ∃ t, noteHelper (.standard false false) [.lt, .isNot] .start = .ok () t ∧
        Chained (.standard false false) .top (Relates (.standard false false)) (.name none "a") [.lt, .isNot]
          [.listComp none (.name none "x") [.mk (.name none "x") (.name none "xs") []], .name none "b"]
            t j s' := by
  obtain ⟨j, s', h⟩ : ∃ j s', compileExpr (.standard false false) .top comprehensionChain .start = .ok j s' :=
    ⟨_, _, rfl⟩
  exact ⟨j, s', h, (chained_compare_iff rfl h).1.mpr (.inl (by decide))⟩

def memberChain : Expr :=
  .compare none (.name none "a") [.isIn, .isIn] [.name none "b", .name none "c"]

/-- Only the first test is left, and the last operand is lost. -/
theorem compileExpr_memberChain : ∃ j s',
    compileExpr (.standard false false) .top memberChain .start = .ok j s' ∧ j.render = "_pj._in(a, b)" ∧
      ¬ ∃ t, Chained (.standard false false) .top (Relates (.standard false false)) (.name none "a") [.isIn, .isIn]
        [.name none "b", .name none "c"] t j s' := by
  obtain ⟨j, s', h, htext⟩ : ∃ j s', compileExpr (.standard false false) .top memberChain .start = .ok j s' ∧
      j.render = "_pj._in(a, b)" := ⟨_, _, rfl, by decide +kernel⟩
  refine ⟨j, s', h, htext, ?_⟩
  rintro ⟨t, hchained⟩
  exact not_chained_of_isCut rfl rfl (by decide) h _ t hchained

end Transpiler.Compile
