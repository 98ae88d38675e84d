import Transpiler.Proofs.Compile.Does
import Transpiler.Proofs.Compile.Origins
import Transpiler.Proofs.Script.Grouping

/-!
# Expressions with prefixes

Names, attributes, indices, `await`, calls and `new(…)` are compiled to chains (`chained_compileExpr`). So
the texts of two such expressions are the same just if the rows of their trees are, and grouped trees that
differ have different texts (`ne_of_shape_ne`). Others may not: an attribute of an `await` is written like an
`await` of the attribute.
-/

namespace Transpiler.Compile

open Script (IsPlain Js Origin Unbroken isDelimiter namedArgs passed)
open Source (At Expr Keyword Ref)

variable {cfg : Config} {here : Place} {id op : String} {keywords : List Keyword} {o : Origin}

/-! ### The source -/

/-- Whether a name of the source can hold a character: a letter, a digit, an underscore or one beyond ASCII. -/
def isNameChar (c : Char) : Bool :=
  c.isAlphanum || c == '_' || 128 ≤ c.toNat

def isSourceName (id : String) : Bool :=
  id != "" && id.toList.all isNameChar

def hasCallRule (id : String) : Bool :=
  (Builtin.ofName? id).isSome || ["super", "list", "dict"].contains id

def endsCapital : Expr → Bool
  | .name _ id => makesObject id
  | .attr _ _ field => makesObject field
  | _ => false

/-- The expressions made of names, attributes, indices, `await` and calls, `new(…)` of a call included. -/
inductive Prefixed : Expr → Prop
  | name {p : At} {id : String} (hid : isSourceName id = true)
      (hconstant : id ∉ ["True", "False", "None"]) : Prefixed (.name p id)
  | attr {p : At} {value : Expr} {field : String} (hvalue : Prefixed value) :
      Prefixed (.attr p value field)
  | index {p : At} {value key : Expr} (hvalue : Prefixed value) (hkey : Prefixed key) :
      Prefixed (.subscript p value (.index key))
  | await {p : At} {value : Expr} (hvalue : Prefixed value) : Prefixed (.await p value)
  | call {p : At} {func : Expr} {args : List Expr} {keywords : List Keyword} (hfunc : Prefixed func)
      (hrule : ∀ id ∈ func.name?, hasCallRule id = false) (hargs : ∀ a ∈ args, Prefixed a)
      (hkeywords : ∀ k ∈ keywords, Prefixed k.value) : Prefixed (.call p func args keywords)
  | new {p q r : At} {func : Expr} {args : List Expr} {keywords : List Keyword}
      (hfunc : Prefixed func) (hargs : ∀ a ∈ args, Prefixed a) (hkeywords : ∀ k ∈ keywords, Prefixed k.value) :
      Prefixed (.call p (.name q "new") [.call r func args keywords] [])

/-! ### Names -/

theorem isPlain_normalizeName (h : isSourceName id = true) : IsPlain (normalizeName id) := by
  simp only [isSourceName, Bool.and_eq_true, bne_iff_ne, List.all_eq_true] at h
  have hchars : ∀ c ∈ (normalizeName id).toList, isDelimiter c = false ∧ c ≠ ' ' := by
    intro c hc
    rw [normalizeName, String.toList_ofList] at hc
    rcases mem_normalizeChars hc with rfl | hc
    · decide
    · refine ⟨Script.isDelimiter_eq_false (by decide) (h.2 c hc), ?_⟩
      rintro rfl
      cases h.2 ' ' hc
  exact ⟨normalizeName_ne_empty h.1, fun c hc => (hchars c hc).1, fun hblank => (hchars ' ' hblank).2 rfl⟩

theorem makesObject_normalizeName (id : String) : makesObject (normalizeName id) = makesObject id := by
  rw [makesObject, normalizeName, String.toList_ofList, map_isUpper_normalizeChars, makesObject]

/-! ### Rules -/

theorem Prefixed.called_ne {p q : At} {called : String} {args : List Expr}
    (h : Prefixed (.call p (.name q called) args keywords)) : called ∉ ["super", "list", "dict"] := by
  cases h with
  | call _ hrule =>
    have hnone := hrule called rfl
    simp only [hasCallRule, Bool.or_eq_false_iff] at hnone
    simpa using hnone.2
  | new => decide

theorem attrRule_eq {value : Expr} (h : Prefixed value) (node : Ref) (field : String) (whole : Run Js)
    (args : List (Run Js)) : attrRule cfg here node value field whole args =
      do return .dot (cfg.origin (some node)) (← whole) (normalizeName field) := by
  unfold attrRule
  split
  · have hcalled := h.called_ne
    split
    · simp at hcalled
    · simp at hcalled
    · rfl
  · rfl

theorem subscriptRule_eq {value key : Expr} (h : Prefixed value) (hkey : Prefixed key) (node : Ref)
    (whole item : Run Js) : subscriptRule cfg here node value (.index key) whole [item] =
      do return .subscript (cfg.origin (some node)) (← whole) (← item) := by
  have hsuper : refuseSuper here node value = pure () := by
    unfold refuseSuper
    split
    · exact absurd h.called_ne (by simp)
    · rfl
  have hnegation : isNegation key = false := by cases hkey <;> rfl
  simp [subscriptRule, hsuper, hnegation]

theorem callRule_eq {func : Expr} (h : Prefixed func) (hrule : ∀ id ∈ func.name?, hasCallRule id = false)
    (node : Ref) (keywords : List Keyword) (whole : Run Js) (inner : List (Run Js)) (args : List Operand)
    (values : Run (List Js)) : callRule cfg here node func keywords whole inner args values =
      callNode cfg (cfg.origin (some node)) node (if endsCapital func then "new " else "") whole
        (inOrder (args.map (·.whole))) keywords values := by
  unfold callRule
  dsimp only
  split
  next id =>
    have hnone := hrule id rfl
    simp only [hasCallRule, Bool.or_eq_false_iff, Option.isSome_eq_false_iff, Option.isNone_iff_eq_none] at hnone
    rw [hnone.1]
    rfl
  · cases h with
    | attr hvalue =>
      have hcalled := hvalue.called_ne
      rw [endsCapital]
      split
      · rfl
      · unfold methodRule
        split
        · simp at hcalled
        · simp at hcalled
        · rfl
  · rfl
  next hname hcalled hattr =>
    cases h with
    | name => exact (hname _ _ rfl).elim
    | attr => exact (hattr _ _ _ rfl).elim
    | index | await | call | new => rfl

/-! ### Trees -/

def WritesChain (j : Js) : Prop :=
  j.check = passed → Script.Chained makesObject j

theorem chained_nameNode (h : isSourceName id = true) (hconstant : id ∉ ["True", "False", "None"])
    (o : Origin) : (nameNode o id).ending?.any makesObject = makesObject id ∧ WritesChain (nameNode o id) := by
  simp only [List.mem_cons, List.not_mem_nil, or_false, not_or] at hconstant
  by_cases hself : id = "self"
  · subst hself
    exact ⟨(by decide : (none : Option String).any makesObject = makesObject "self"), fun _ => .this⟩
  · have hnode : nameNode o id = .name o (.text (normalizeName id)) := by simp [nameNode, hself, hconstant]
    refine hnode ▸ ⟨makesObject_normalizeName id, fun hcheck => .name (isPlain_normalizeName h) ?_⟩
    -- the word `this` is reserved
    intro hthis
    have hreserved (es6 : Bool) : Script.isReserved es6 "this" = true := by cases es6 <;> decide
    rw [hthis, Js.check, Script.firstFault_cons] at hcheck
    obtain ⟨_, _ | _⟩ := o <;> simp [Origin.checkWord, hreserved, passed] at hcheck

theorem chained_dot {obj : Js} {field : String} (h : WritesChain obj) : WritesChain (.dot o obj field) := by
  intro hcheck
  obtain ⟨hfield, -, hobj⟩ := Script.check_dot_iff.mp hcheck
  refine .dot (h hobj) fun c hc => ?_
  obtain ⟨_, hword, hchars⟩ := Script.exists_word_of_isField hfield
  have hcases : c = '\n' ∨ Script.isWordChar c = true := by
    rcases hchars with hchars | hchars <;> rw [hchars] at hc
    · exact .inr (hword c hc)
    · rcases List.mem_append.mp hc with hc | hc
      · exact .inr (hword c hc)
      · exact .inl (List.mem_singleton.mp hc)
  rcases hcases with rfl | hc
  · decide
  · exact Script.isDelimiter_eq_false (by decide) hc

theorem chained_subscript {obj key : Js} (hobj : WritesChain obj) (hkey : WritesChain key) :
    WritesChain (.subscript o obj key) := by
  intro hcheck
  rw [Js.check] at hcheck
  simp only [Script.firstFault_cons] at hcheck
  exact .subscript (hobj hcheck.1) (hkey hcheck.2.1)

theorem chained_call {n : Origin} {func : Js} {args : List Js} {pairs : List (String × Js)}
    (hfunc : WritesChain func) (hop : op = "new " ∨ op = "" ∧ func.ending?.any makesObject = false)
    (hargs : ∀ a ∈ args, WritesChain a) (hnamed : ∀ p ∈ pairs, WritesChain p.2) :
    WritesChain (.call o op func args (namedArgs n pairs)) := by
  intro hcheck
  rw [Js.check] at hcheck
  simp only [Script.firstFault_eq_passed_iff, Script.checkEach_eq_map, List.forall_mem_append,
    List.forall_mem_cons, List.forall_mem_map] at hcheck
  obtain ⟨⟨hfuncCheck, hargsCheck⟩, hnamedCheck, -⟩ := hcheck
  refine .call (hfunc hfuncCheck) hop (fun a ha => hargs a ha (hargsCheck a ha)) fun p hp => hnamed p hp ?_
  cases pairs with
  | nil => cases hp
  | cons =>
    rw [namedArgs, Js.check, Script.firstFault_cons] at hnamedCheck
    have hvalues := Script.check_of_inTurns (by simp [Script.checkEach_eq_map]) hnamedCheck.2
    rw [List.forall_mem_map] at hvalues
    exact hvalues p hp

theorem namedArgs_zip {names : List String} {values : List Js} (hne : names ≠ [])
    (hlength : values.length = names.length) (n : Origin) :
    namedArgs n (names.zip values) = .dict n (names.map fun s => .json n (.str s)) values := by
  have hkeys : (names.zip values).map (fun q => Js.json n (.str q.1)) = names.map fun s => .json n (.str s) := by
    conv_rhs => rw [← List.map_fst_zip (Nat.le_of_eq hlength.symm), List.map_map]
    rfl
  have hvalues : (names.zip values).map (·.2) = values := List.map_snd_zip (Nat.le_of_eq hlength)
  cases hzip : names.zip values with
  | nil => simp_all
  | cons => rw [namedArgs, ← hzip, hkeys, hvalues]

theorem chained_callNode {node : Ref} {func : Run Js} {args values : Run (List Js)}
    (hfunc : Yields func fun f => (op = "new " ∨ op = "" ∧ f.ending?.any makesObject = false) ∧ WritesChain f)
    (hargs : Yields args fun js => ∀ a ∈ js, WritesChain a)
    (hvalues : Yields values fun vs => vs.length = keywords.length ∧ ∀ v ∈ vs, WritesChain v) :
    Yields (callNode cfg o node op func args keywords values) fun j => j.ending? = none ∧ WritesChain j := by
  refine .andThen _ fun _ => hfunc.bind fun f hf => hargs.bind fun js hjs => ?_
  dsimp only
  split
  · have hcall : WritesChain (.call o op f js (namedArgs default [])) := chained_call hf.2 hf.1 hjs (by simp)
    exact .pure ⟨rfl, hcall⟩
  next hne =>
    refine hvalues.bind fun vs hvs => .pure ⟨rfl, ?_⟩
    have hnamed := @namedArgs_zip (keywords.map fun k => k.arg.getD "") vs (by simpa using hne)
      (by simpa using hvs.1) (cfg.origin none)
    rw [List.map_map] at hnamed
    exact hnamed ▸ chained_call hf.2 hf.1 hjs fun p hp => hvs.2 p.2 (List.of_mem_zip hp).2

theorem chained_compileValues (h : ∀ k ∈ keywords, Yields (compileExpr cfg here k.value) WritesChain) :
    Yields (compileValues cfg here keywords) fun vs =>
      vs.length = keywords.length ∧ ∀ v ∈ vs, WritesChain v := by
  induction keywords with
  | nil => exact .pure ⟨rfl, by simp⟩
  | cons k _ ih =>
    obtain ⟨p, arg, value⟩ := k
    rw [compileValues]
    refine (h (.mk p arg value) (by simp)).bind fun v hv => ?_
    refine (ih fun k hk => h k (by simp [hk])).bind fun _ hvs => .pure ?_
    exact ⟨by simp [hvs.1], List.forall_mem_cons.mpr ⟨hv, hvs.2⟩⟩

theorem chained_compileExpr {e : Expr} (h : Prefixed e) : Yields (compileExpr cfg here e) fun j =>
    j.ending?.any makesObject = endsCapital e ∧ WritesChain j := by
  have hplain {j : Js} (hj : j.ending? = none ∧ WritesChain j) : j.ending?.any makesObject = false ∧ WritesChain j := by
    simpa [hj.1] using hj.2
  have hall {es : List Expr} (h : ∀ e ∈ es, Yields (compileExpr cfg here e) WritesChain) :
      Yields (inOrder (compileRuns cfg here es)) fun js => ∀ j ∈ js, WritesChain j := by
    rw [compileRuns_eq_map]
    exact .mapM (List.forall_mem_map.mpr h)
  have hwhole (es : List Expr) : (compileOperands cfg here es).map (·.whole) = compileRuns cfg here es := by
    simp [compileOperands_eq_map, compileRuns_eq_map]
  induction h with
  | name hid hconstant =>
    rw [compileExpr]
    exact .pure (chained_nameNode hid hconstant _)
  | @attr _ _ field hvalue ih =>
    rw [compileExpr, attrRule_eq hvalue]
    refine ih.bind fun _ hobj => .pure ⟨?_, chained_dot hobj.2⟩
    exact makesObject_normalizeName field
  | index hvalue hkey ih ihkey =>
    rw [compileExpr, compileParts, Parts.ofArgs, subscriptRule_eq hvalue hkey]
    exact ih.bind fun _ hobj => ihkey.bind fun _ hkey => .pure ⟨rfl, chained_subscript hobj.2 hkey.2⟩
  | await hvalue ih =>
    rw [compileExpr]
    exact .andThen _ fun _ => ih.bind fun _ hvalue => .pure ⟨rfl, fun hcheck => .await (hvalue.2 hcheck)⟩
  | call hfunc hrule _ _ ih ihargs ihkeywords =>
    rw [compileExpr, callRule_eq hfunc hrule, hwhole]
    refine Yields.imp (chained_callNode (ih.imp fun f hf => ⟨?_, hf.2⟩)
      (hall fun a ha => (ihargs a ha).imp fun _ => And.right)
      (chained_compileValues fun k hk => (ihkeywords k hk).imp fun _ => And.right)) fun _ => hplain
    rw [hf.1]
    split
    · exact .inl rfl
    next hcapital => exact .inr ⟨rfl, by simpa using hcapital⟩
  | new _ _ _ ih ihargs ihkeywords =>
    rw [compileExpr]
    exact Yields.imp (chained_callNode (ih.imp fun f hf => ⟨.inl rfl, hf.2⟩)
      (hall fun a ha => (ihargs a ha).imp fun _ => And.right)
      (chained_compileValues fun k hk => (ihkeywords k hk).imp fun _ => And.right)) fun _ => hplain

/-! ### Texts -/

/-- The texts of two expressions with prefixes are the same just if the rows of their trees are. Trees that are
grouped the way a text is for have different texts if they differ in more than the origins of their nodes. -/
theorem text_ne_of_shape_ne {cfg cfg' : Config} {here here' : Place} {s s' : Session} {e e' : Expr} {j j' : Js}
    {text text' : String} (he : Prefixed e) (he' : Prefixed e')
    (hj : (compileExpr cfg here e).result s = .ok j) (hj' : (compileExpr cfg' here' e').result s' = .ok j')
    (htext : j.render? = .ok text) (htext' : j'.render? = .ok text') :
    (text = text' ↔ j.row = j'.row) ∧
      (j.grouped makesObject = true → j'.grouped makesObject = true → j.shape ≠ j'.shape → text ≠ text') := by
  obtain ⟨hcheck, hrender⟩ := Script.check_of_render? htext
  obtain ⟨hcheck', hrender'⟩ := Script.check_of_render? htext'
  have hchained := ((chained_compileExpr he).result hj).2 hcheck
  have hchained' := ((chained_compileExpr he').result hj').2 hcheck'
  have hrow : text = text' ↔ j.row = j'.row := by
    rw [← hrender, ← hrender', ← String.toList_inj]
    exact hchained.chars_eq_iff hchained'
  refine ⟨hrow, fun hgrouped hgrouped' hshape heq => hshape ?_⟩
  exact hchained.shape_eq hchained' hgrouped hgrouped' (hrow.mp heq)

def callOfNew : Expr :=
  .call none (.call none (.name none "new") [.call none (.name none "f") [] []] []) [.name none "x"] []

theorem prefixed_callOfNew : Prefixed callOfNew :=
  .call (.new (.name (by decide) (by decide)) (by simp) (by simp)) (by simp [Expr.name?])
    (by simpa using .name (by decide) (by decide)) (by simp)

def newOfCallOfNew : Expr :=
  .call none (.name none "new") [callOfNew] []

theorem prefixed_newOfCallOfNew : Prefixed newOfCallOfNew :=
  .new (.new (.name (by decide) (by decide)) (by simp) (by simp)) (by simpa using .name (by decide) (by decide))
    (by simp)

theorem text_ne_newOfCallOfNew : ∃ j j' text text',
    (compileExpr (.standard false false) .top callOfNew).result .start = .ok j ∧
    (compileExpr (.standard false false) .top newOfCallOfNew).result .start = .ok j' ∧
    j.render? = .ok text ∧ j'.render? = .ok text' ∧ j.grouped makesObject = true ∧
    j'.grouped makesObject = true ∧ j.shape ≠ j'.shape ∧ text ≠ text' := by
  refine ⟨_, _, _, _, rfl, rfl, rfl, rfl, by decide, by decide, ?_, ?_⟩
  · intro hshape
    exact absurd (Js.call.inj hshape).2.1 (by decide)
  · refine (text_ne_of_shape_ne prefixed_callOfNew prefixed_newOfCallOfNew
      (show (compileExpr (.standard false false) .top _).result .start = .ok _ from rfl)
      (show (compileExpr (.standard false false) .top _).result .start = .ok _ from rfl) rfl rfl).2
      (by decide) (by decide) fun hshape => ?_
    exact absurd (Js.call.inj hshape).2.1 (by decide)

def attrOfAwait : Expr := .attr none (.await none (.name none "a")) "b"

@[inherit_doc attrOfAwait]
def awaitOfAttr : Expr := .await none (.attr none (.name none "a") "b")

/-- The trees of the two are different, and the texts are the same. -/
theorem regrouped_attrOfAwait : (Prefixed attrOfAwait ∧ Prefixed awaitOfAttr) ∧
    ∃ j j', (compileExpr (.standard true true) .top attrOfAwait).result .start = .ok j ∧
      (compileExpr (.standard true true) .top awaitOfAttr).result .start = .ok j' ∧ j.shape ≠ j'.shape ∧
      j.render? = .ok "await a.b" ∧ j'.render? = .ok "await a.b" :=
  ⟨⟨.attr (.await (.name (by decide) (by decide))), .await (.attr (.name (by decide) (by decide)))⟩,
    _, _, rfl, rfl, nofun, rfl, rfl⟩

end Transpiler.Compile
