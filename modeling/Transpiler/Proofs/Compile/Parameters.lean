import Transpiler.Proofs.Compile.Scopes
import Transpiler.Proofs.Script.Reader
import Transpiler.Proofs.Source.Parameters

/-!
# Parameter lists

A function that is no member of a class is written with its parameters behind its name (`Callable.list`). The
list is `Faithful` if it holds all of them in order, each with its own default, and then the parameters that only
come by name, the one that collects the rest, or the one that collects keywords.

Parameters that only come by position are not written. The defaults are counted from the last parameter that is
written as long as there are enough of these, and else from the first. So a default of a parameter that is left
out goes to the next one, and all other defaults move on (`exists_parameterList`).
-/

namespace Transpiler.Compile

open Script (Content Func Item Js Line Origin Piece itemsAll itemsEach parameters str)
open Source (Expr Params Stmt)

variable {generator : Bool} {form : FuncForm} {args : List Js} {c : Callable}

/-! ### What is compiled for parameters -/

def Default.ofOption : Option Expr → Default
  | .none => .none
  | .some e => .value e

section

variable {ps : Params}

theorem zip_append_of_le {α β : Type} {as : List α} {bs : List β} (h : as.length ≤ bs.length) (rest : List β) :
    as.zip (bs ++ rest) = as.zip bs := by
  refine List.ext_getElem (by simp; omega) fun i hi _ => ?_
  have hbound : i < bs.length := by
    simp at hi
    omega
  simp [List.getElem_append_left hbound]

theorem positional_eq_dropSelf : positional false ps = Source.dropSelf (ps.args.map (·.name)) := by
  simp [positional, Source.dropSelf]

theorem length_positional : (positional false ps).length = ps.ordinary.length := by
  rw [positional_eq_dropSelf, ps.length_ordinary]

theorem withDefaults_of_le (h : ps.defaults.length ≤ ps.ordinary.length) :
    withDefaults (positional false ps) ps = ps.ordinary.map (Prod.map id Default.ofOption) ++
      (ps.kwarg.map fun k => (k.name, Default.emptyDict)).toList := by
  have hpairs : ps.ordinary.map (Prod.map id Default.ofOption) = (positional false ps).zip
      (List.replicate ((positional false ps).length - (ps.defaults.map Default.value).length) Default.none ++
        ps.defaults.map Default.value) := by
    rw [ps.ordinary_eq_alignRight h, ← positional_eq_dropSelf, Source.alignRight_eq_zip, ← List.zip_map_right,
      List.map_append, List.map_replicate, List.map_map, List.length_map]
    rfl
  rw [hpairs]
  cases hkwarg : ps.kwarg with
  | none => simp [withDefaults, hkwarg]
  | some =>
    simp only [withDefaults, hkwarg]
    rw [List.zip_append (by simp [length_positional]; omega)]
    rfl

theorem withDefaults_of_lt (h : ps.ordinary.length < ps.defaults.length) : withDefaults (positional false ps) ps =
    ((ps.ordinary.map (·.1) ++ (ps.kwarg.map (·.name)).toList).zip (ps.defaults.map some)).map
      (Prod.map id Default.ofOption) := by
  have hnone : (positional false ps).length - (ps.defaults.map Default.value).length = 0 := by
    rw [length_positional, List.length_map]
    omega
  rw [ps.map_fst_ordinary, ← positional_eq_dropSelf, ← List.zip_map_right, List.map_map]
  cases hkwarg : ps.kwarg with
  | none =>
    simp only [withDefaults, hkwarg, hnone, List.replicate_zero, List.nil_append, Option.map_none,
      Option.toList_none, List.append_nil]
    rfl
  | some k =>
    simp only [withDefaults, hkwarg, hnone, List.replicate_zero, List.nil_append, Option.map_some, Option.toList_some]
    have hlength : (positional false ps ++ [k.name]).length ≤ (ps.defaults.map Default.value).length := by
      simp [length_positional]
      omega
    exact zip_append_of_le hlength _

end

/-! ### Texts of parameters -/

inductive ShownParam (cfg : Config) (here : Place) : String × Option Expr → String → Prop
  | bare (name : String) : ShownParam cfg here (name, none) name
  | default {e : Expr} {j : Js} {t t' : Session} (name : String) (h : compileExpr cfg here e t = .ok j t') :
      ShownParam cfg here (name, some e) (name ++ " = " ++ j.render)

variable {cfg : Config} {here : Place}

theorem render_text (s : String) : (Js.text s).render = s := by
  simp [Js.render, Js.items]

theorem render_assign_text (o : Origin) (name : String) (j : Js) :
    (Js.assign o (.text name) j).render = name ++ " = " ++ j.render := by
  rw [← String.toList_inj]
  refine (Js.chars_of_items rfl Script.cons_str_ne_line).trans ?_
  simp [Js.render]

theorem render_rest (o : Origin) (name : String) : (Js.marked o .rest (.text name)).render = "..." ++ name := by
  rw [← String.toList_inj]
  refine (Js.chars_of_items rfl Script.cons_str_ne_line).trans ?_
  simp [Js.items, Script.Mark.word]

theorem shown_of_compileParam {p : String × Option Expr} {j : Js} {t t' : Session}
    (h : compileParam cfg here (Prod.map id Default.ofOption p) t = .ok j t') :
    ShownParam cfg here p j.render := by
  obtain ⟨name, d⟩ := p
  cases d with
  | none =>
    obtain ⟨rfl, -⟩ := pure_eq_ok_iff.mp h
    rw [render_text]
    exact .bare name
  | some =>
    obtain ⟨_, _, hj, h⟩ := bind_eq_ok_iff.mp h
    obtain ⟨rfl, -⟩ := pure_eq_ok_iff.mp h
    rw [render_assign_text]
    exact .default name hj

/-- The texts in the parameter list of a function: parameters that come by position, those that only come by name
in one pattern, and the one that collects the rest. -/
def Callable.texts (c : Callable) : List String :=
  c.args.map Js.render ++
    (if c.named.isEmpty then [] else ["\x7b" ++ ", ".intercalate (c.named.map Js.render) ++ "\x7d=\x7b\x7d"]) ++
    (if c.rest.isTruthy then [c.rest.render] else [])

def Callable.list (c : Callable) : String :=
  "(" ++ ", ".intercalate c.texts ++ ") "

theorem toList_intercalate_comma (texts : List String) :
    (", ".intercalate texts).toList = Script.listed (texts.map String.toList) := by
  rw [String.toList_intercalate, Script.listed, Script.separated_eq_intercalate]
  rfl

theorem joinAll_parameters (o : Origin) (c : Callable) :
    Item.joinAll (parameters o (itemsEach c.args) (if c.rest.isTruthy then some c.rest.items else none)
      (itemsEach c.named)) = c.list := by
  let chars (items : List Item) : List Char := (Item.joinAll items).toList
  have heach (js : List Js) : (itemsEach js).map chars = (js.map Js.render).map String.toList := by
    simp [chars, Script.itemsEach_eq_map, Function.comp_def, Js.render]
  have hrest : (if c.rest.isTruthy then some c.rest.items else none).toList.map chars =
      (if c.rest.isTruthy then [c.rest.render] else []).map String.toList := by
    split <;> rfl
  have hnamed (js : List Js) : (if (itemsEach js).isEmpty then [] else
        [[o.part .none ([str "\x7b"] ++ Script.separated [str ", "] (itemsEach js) ++
          [str "\x7d=\x7b\x7d"])]]).map chars =
      (if js.isEmpty then [] else
        ["\x7b" ++ ", ".intercalate (js.map Js.render) ++ "\x7d=\x7b\x7d"]).map String.toList := by
    cases js with
    | nil => rfl
    | cons =>
      simp only [Script.itemsEach_eq_map, List.map_cons, List.isEmpty_cons, Bool.false_eq_true, if_false, chars]
      rw [Item.joinAll_cons, Item.joinAll_nil, o.toString_part _ Script.append_str_ne_line]
      simp only [Item.joinAll_append, String.toList_append, Script.toList_joinAll_listed, toList_intercalate_comma]
      simp [Js.render, Function.comp_def]
  rw [← String.toList_inj]
  simp only [parameters, Callable.list, Callable.texts, Item.joinAll_append, String.toList_append,
    Script.toList_joinAll_listed, toList_intercalate_comma]
  rw [List.map_append, List.map_append, List.map_append, List.map_append, ← hrest, ← hnamed, ← heach]
  rfl

/-! ### Texts of functions -/

def opening (name : String) : Func → String
  | .arrow => if name = "" then "" else name ++ " = "
  | f => f.word ++ name

/-- What is written before the parameter list of a function that is no member of a class: as the case may be, it is
an arrow function that is assigned to a variable. -/
def openings (name : String) : List String :=
  ["var " ++ name ++ ";\n" ++ opening name .arrow, opening name .plain, opening name .async,
    opening name .generator]

theorem toString_line {o : Origin} {delim : Bool} {content : Content} :
    (Line.mk o 0 delim content).toString = content.toString ++ (if delim then ";" else "") ++ "\n" := by
  have hmargin : Script.margin 0 = "" := rfl
  simp [Line.toString, hmargin]

theorem toString_lineOf (o : Origin) (items : List Item) :
    (o.lineOf false items).toString = Item.joinAll items ++ "\n" := by
  rw [Origin.lineOf, Item.toString, toString_line]
  simp [Content.toString, Piece.toString, Piece.joinAll_eq_join, Item.joinAll,
    Script.Item.toString_toPiece, Function.comp_def]

theorem exists_items_func (o : Origin) (f : Func) (name : String) (c : Callable) :
    ∃ l more rest, (Js.func o f (some name) c.args c.body c.rest c.named).items = .line l :: more ∧
      l.toString = opening name f ++ (c.list ++ rest) := by
  have hline (front back : List Item) (more : List Item) : ∃ l more' rest,
      o.lineOf false (front ++ parameters o (itemsEach c.args)
        (if c.rest.isTruthy then some c.rest.items else none) (itemsEach c.named) ++ back) :: more = .line l :: more' ∧
      l.toString = Item.joinAll front ++ (c.list ++ rest) := by
    refine ⟨_, more, Item.joinAll back ++ "\n", rfl, ?_⟩
    refine (toString_lineOf o _).trans ?_
    rw [Item.joinAll_append, Item.joinAll_append, joinAll_parameters, String.append_assoc, String.append_assoc]
  have hword (f : Func) (hf : f ≠ .arrow) : Item.joinAll [str f.word, str name] = opening name f := by
    cases f <;> simp_all [opening]
  cases f with
  | arrow =>
    by_cases hname : name = ""
    · subst hname
      exact hline [] [str "=> ", str "\x7b"] _
    · have hhead : Item.joinAll [str name, str " = "] = opening name .arrow := by simp [opening, hname]
      rw [← hhead]
      unfold Js.items
      dsimp only [Option.getD_some]
      split
      · exact absurd rfl hname
      · exact hline [str _, str " = "] [str "=> ", str "\x7b"] _
      · exact absurd rfl ‹Func.arrow = Func.arrow → False›
  | plain | async | generator =>
    rw [← hword _ (by simp)]
    exact hline [str _, str name] [str "\x7b"] _

theorem exists_render_func (o : Origin) (f : Func) (name : String) (c : Callable) : ∃ rest,
    (Js.func o f (some name) c.args c.body c.rest c.named).render = opening name f ++ (c.list ++ rest) := by
  obtain ⟨_, more, rest, hitems, hline⟩ := exists_items_func o f name c
  refine ⟨rest ++ Item.joinAll more, ?_⟩
  rw [Js.render, hitems, Item.joinAll_cons, Item.toString, hline]
  simp [String.append_assoc]

theorem items_statements_pair (o : Origin) {first second : Js}
    (hslots : Script.slottedItems [first, second] = [(first.slot, first.items), (second.slot, second.items)])
    (hfirst : first.slot = .variable ∨ first.slot = .other) (hsecond : second.slot = .other) :
    (Js.statements o [first, second]).items =
      first.items.map (o.toLine 0 true) ++ second.items.map (o.toLine 0 true) := by
  rw [Js.items, hslots, hsecond]
  rcases hfirst with hfirst | hfirst <;> simp [hfirst, Script.arrange]

theorem exists_render_bound (o o' n : Origin) (f : Func) (name : String) (c : Callable) (value : Js) :
    ∃ rest, (Js.statements o [.func o' f (some name) c.args c.body c.rest c.named, .exprStmt n value]).render =
      opening name f ++ (c.list ++ rest) := by
  obtain ⟨l, more, rest, hitems, hline⟩ := exists_items_func o' f name c
  refine ⟨rest ++ Item.joinAll (more.map (o.toLine 0 true) ++ (Js.exprStmt n value).items.map (o.toLine 0 true)), ?_⟩
  rw [Js.render, items_statements_pair o rfl (.inr rfl) rfl, hitems, List.map_cons, List.cons_append, Item.joinAll_cons]
  show l.toString ++ _ = _
  rw [hline, String.append_assoc, String.append_assoc]

theorem exists_render_arrow (o o' n : Origin) (name : String) (c : Callable) :
    ∃ rest, (Js.statements o [.declare n .var true [name] [.absent],
        .func o' .arrow (some name) c.args c.body c.rest c.named]).render =
      "var " ++ name ++ ";\n" ++ opening name .arrow ++ (c.list ++ rest) := by
  obtain ⟨l, more, rest, hitems, hline⟩ := exists_items_func o' .arrow name c
  have hdeclare : Item.joinAll ((Js.declare n .var true [name] [.absent]).items.map (o.toLine 0 true)) =
      "var " ++ name ++ ";\n" := by
    show Item.joinAll [.line ⟨o, 0, true, .piece (.group n .none [.text "var ", .text name])⟩] = _
    rw [Item.joinAll_cons, Item.toString, toString_line]
    simp [Content.toString, Piece.toString, Piece.joinAll, String.append_assoc]
  refine ⟨rest ++ Item.joinAll (more.map (o.toLine 0 true)), ?_⟩
  rw [Js.render, items_statements_pair o rfl (.inl rfl) rfl, hitems, Item.joinAll_append, hdeclare, List.map_cons,
    Item.joinAll_cons]
  show _ ++ (l.toString ++ _) = _
  rw [hline]
  simp only [String.append_assoc]

/-! ### Functions that are no members -/

def funcKind (isAsync generator : Bool) : Func :=
  if generator then .generator else if isAsync then .async else .plain

variable {templates : Templates} {s s' : Session} {j : Js} {h : Header}

theorem formOf_free {count : Nat} (hfree : here.owner = none) (hform : formOf here h generator count s = .ok form s') :
    form = .arrow ∨ form = .func (funcKind h.isAsync generator) ∨ form = .bound (funcKind h.isAsync generator) := by
  unfold formOf at hform
  simp only [hfree, Option.isNone_none, if_true] at hform
  generalize (!"fn_".toList.isPrefixOf h.name.toList && here.underClass) = inMethod at hform
  cases inMethod <;> cases generator <;> cases hasync : h.isAsync <;>
  · rw [hasync] at hform
    obtain ⟨rfl, -⟩ := pure_eq_ok_iff.mp hform
    simp [funcKind]

theorem opening_mem_openings (name : String) (isAsync generator : Bool) :
    opening name (funcKind isAsync generator) ∈ openings name := by
  cases generator <;> cases isAsync <;> simp [funcKind, openings]

theorem exists_callable_of_functionNode {args : List (Run Js)}
    {block named : Run (List Js)} (hform : form = .arrow ∨ form = .func (funcKind h.isAsync generator) ∨
      form = .bound (funcKind h.isAsync generator))
    (hnode : functionNode cfg h form args block named s = .ok j s') : ∃ c, callable? j = some c ∧
      (∃ start ∈ openings (normalizeName h.name), ∃ rest, j.render = start ++ (c.list ++ rest)) ∧
      c.rest = restParam (cfg.origin none) h.params ∧ (∃ t t', inOrder args t = .ok c.args t') ∧
      ∃ t t', named t = .ok c.named t' := by
  rcases hform with rfl | rfl | rfl <;>
    simp only [functionNode, bind_eq_ok_iff, pure_eq_ok_iff] at hnode
  · obtain ⟨_, _, ⟨as, _, has, bs, _, -, ns, _, hns, rfl, -⟩, rfl, -⟩ := hnode
    refine ⟨⟨as, bs, _, ns⟩, rfl, ⟨_, .head _, ?_⟩, rfl, ⟨_, _, has⟩, _, _, hns⟩
    exact exists_render_arrow _ _ _ _ ⟨as, bs, _, ns⟩
  · obtain ⟨as, _, has, bs, _, -, ns, _, hns, rfl, -⟩ := hnode
    refine ⟨⟨as, bs, _, ns⟩, rfl, ⟨_, opening_mem_openings _ h.isAsync generator, ?_⟩, rfl, ⟨_, _, has⟩, _, _, hns⟩
    exact exists_render_func _ _ _ ⟨as, bs, _, ns⟩
  · obtain ⟨_, _, ⟨as, _, has, bs, _, -, ns, _, hns, rfl, -⟩, rfl, -⟩ := hnode
    refine ⟨⟨as, bs, _, ns⟩, rfl, ⟨_, opening_mem_openings _ h.isAsync generator, ?_⟩, rfl, ⟨_, _, has⟩, _, _, hns⟩
    exact exists_render_bound _ _ _ _ _ ⟨as, bs, _, ns⟩ _

/-- The texts of the parameters `positional` and then `collecting`, with those of the parameters that only come by
name behind them in one pattern, or that of the parameter that collects the rest. -/
def Lists (cfg : Config) (here : Place) (positional : List (String × Option Expr)) (collecting : List String)
    (ps : Params) (texts : List String) : Prop :=
  ∃ first named, List.Forall₂ (ShownParam cfg here) positional first ∧
    List.Forall₂ (ShownParam cfg here) ps.byName named ∧
    texts = first ++ collecting ++
      (if ps.kwOnly.isEmpty then [] else ["\x7b" ++ ", ".intercalate named ++ "\x7d=\x7b\x7d"]) ++
      (ps.vararg.map fun a => "..." ++ a.name).toList

theorem Lists.length_eq {positional : List (String × Option Expr)} {collecting texts : List String} {ps : Params}
    (h : Lists cfg here positional collecting ps texts) : texts.length = positional.length + collecting.length +
      ((if ps.kwOnly.isEmpty then 0 else 1) + ps.vararg.toList.length) := by
  obtain ⟨_, _, hfirst, -, rfl⟩ := h
  rw [hfirst.length_eq]
  cases ps.vararg <;> split <;> simp [Nat.add_assoc]

/-- The texts of all parameters of a function, each with its own default; the one that collects keywords has an
empty object. -/
def Faithful (cfg : Config) (here : Place) (ps : Params) (texts : List String) : Prop :=
  Lists cfg here ps.positional (ps.kwarg.map fun k => k.name ++ " = \x7b\x7d").toList ps texts

theorem shown_compileKeywordParams {ps : Params} {named : List Js}
    (h : compileKeywordParams cfg here ps s = .ok named s') :
    List.Forall₂ (ShownParam cfg here) ps.byName (named.map Js.render) := by
  rw [Params.byName, List.forall₂_map_left_iff, List.forall₂_map_right_iff]
  refine (forall₂_of_mapM h).imp fun (k, v) j => ?_
  rintro ⟨_, _, hj⟩
  dsimp only at hj ⊢
  split at hj
  next habsent =>
    obtain ⟨rfl, -⟩ := pure_eq_ok_iff.mp hj
    rw [if_pos habsent, render_text]
    exact .bare _
  next habsent =>
    obtain ⟨_, _, hv, hj⟩ := bind_eq_ok_iff.mp hj
    obtain ⟨rfl, -⟩ := pure_eq_ok_iff.mp hj
    rw [if_neg habsent, render_assign_text]
    exact .default _ hv

theorem shown_compileParams {params : List (String × Option Expr)}
    (h : inOrder ((params.map (Prod.map id Default.ofOption)).map (compileParam cfg here)) s = .ok args s') :
    List.Forall₂ (ShownParam cfg here) params (args.map Js.render) := by
  have heach := forall₂_of_mapM h
  rw [List.forall₂_map_left_iff, List.forall₂_map_left_iff] at heach
  rw [List.forall₂_map_right_iff]
  refine heach.imp fun p j => ?_
  rintro ⟨_, _, hj⟩
  exact shown_of_compileParam hj

theorem Callable.lists {ps : Params} {positional : List (String × Option Expr)}
    {first collecting : List String} (haligned : ps.Aligned)
    (hrest : c.rest = restParam (cfg.origin none) ps) (hargs : c.args.map Js.render = first ++ collecting)
    (hfirst : List.Forall₂ (ShownParam cfg here) positional first)
    (hnamed : ∃ t t', compileKeywordParams cfg here ps t = .ok c.named t') :
    Lists cfg here positional collecting ps c.texts := by
  obtain ⟨_, _, hnamed⟩ := hnamed
  have hshown := shown_compileKeywordParams hnamed
  refine ⟨first, c.named.map Js.render, hfirst, hshown, ?_⟩
  have hlength : c.named.length = ps.kwOnly.length := by
    simpa [Params.byName, haligned.kwDefaults] using hshown.length_eq.symm
  have hempty : c.named.isEmpty = ps.kwOnly.isEmpty := by
    rw [Bool.eq_iff_iff, List.isEmpty_iff, List.isEmpty_iff, ← List.length_eq_zero_iff, hlength,
      List.length_eq_zero_iff]
  have hrestText : (if c.rest.isTruthy then [c.rest.render] else []) =
      (ps.vararg.map fun a => "..." ++ a.name).toList := by
    rw [hrest, restParam]
    cases ps.vararg with
    | none => rfl
    | some a => exact congrArg ([·]) (render_rest _ a.name)
  rw [Callable.texts, hargs, hempty, hrestText]

theorem render_collecting {ps : Params}
    (h : inOrder ((ps.kwarg.map fun k => (k.name, Default.emptyDict)).toList.map (compileParam cfg here)) s =
      .ok args s') :
    args.map Js.render = (ps.kwarg.map fun k => k.name ++ " = \x7b\x7d").toList := by
  cases hkwarg : ps.kwarg with
  | none =>
    rw [hkwarg] at h
    obtain ⟨rfl, -⟩ := pure_eq_ok_iff.mp h
    rfl
  | some =>
    have hempty (n : Origin) : (Js.dict n [] []).render = "\x7b\x7d" := rfl
    simp only [hkwarg, Option.map_some, Option.toList_some, List.map_cons, List.map_nil, inOrder, List.mapM_cons,
      List.mapM_nil, compileParam, id_eq, bind_eq_ok_iff, pure_eq_ok_iff] at h
    obtain ⟨_, _, ⟨rfl, -⟩, _, _, ⟨rfl, -⟩, rfl, -⟩ := h
    rw [List.map_cons, render_assign_text, hempty, String.append_assoc]
    rfl

/-- The parameters of a function are listed with their own defaults, as long as there are not more defaults than
parameters; else they are listed with the first of the defaults. -/
theorem Callable.lists_ordinary {ps : Params} (haligned : ps.Aligned) (hrest : c.rest = restParam (cfg.origin none) ps)
    (hargs : inOrder ((withDefaults (positional false ps) ps).map (compileParam cfg here)) s = .ok c.args s')
    (hnamed : ∃ t t', compileKeywordParams cfg here ps t = .ok c.named t') :
    if ps.defaults.length ≤ ps.ordinary.length then
      Lists cfg here ps.ordinary (ps.kwarg.map fun k => k.name ++ " = \x7b\x7d").toList ps c.texts
    else Lists cfg here
      ((ps.ordinary.map (·.1) ++ (ps.kwarg.map (·.name)).toList).zip (ps.defaults.map some)) [] ps c.texts := by
  split
  next hle =>
    rw [withDefaults_of_le hle, List.map_append, inOrder, List.mapM_append] at hargs
    simp only [bind_eq_ok_iff, pure_eq_ok_iff] at hargs
    obtain ⟨_, _, hown, _, _, hlast, hargs, -⟩ := hargs
    refine c.lists haligned hrest ?_ (shown_compileParams hown) hnamed
    rw [hargs, List.map_append, render_collecting hlast]
  next hlt =>
    rw [withDefaults_of_lt (Nat.lt_of_not_le hlt)] at hargs
    exact c.lists haligned hrest (List.append_nil _).symm (shown_compileParams hargs) hnamed

/-- A function that is no member of a class is written with its parameters behind its name. All parameters are
there, each with its own default, if none but a leading `self` only comes by position and `self` has no default.
Parameters that only come by position are left out. If there are more defaults than other parameters, these have
the first of the defaults, the parameter that collects keywords included. -/
theorem exists_parameterList {p : Source.At} {isAsync : Bool} {name : String} {ps : Params} {body : List Stmt}
    {ds : List Expr} {returns : Expr} (haligned : ps.Aligned) (hfree : here.owner = none)
    (h : compileStmt templates cfg here (.functionDef p isAsync name ps body ds returns) s = .ok j s') :
    ∃ c, callable? j = some c ∧
      (∃ start ∈ openings (normalizeName name), ∃ rest, j.render = start ++ (c.list ++ rest)) ∧
      (Faithful cfg (here.inside name isAsync) ps c.texts → ps.FreeOfPosOnly) ∧
      (ps.FreeOfPosOnly → ps.defaults.length ≤ ps.positional.length →
        Faithful cfg (here.inside name isAsync) ps c.texts) ∧
      if ps.defaults.length ≤ ps.ordinary.length then
        Lists cfg (here.inside name isAsync) ps.ordinary (ps.kwarg.map fun k => k.name ++ " = \x7b\x7d").toList ps
          c.texts
      else Lists cfg (here.inside name isAsync)
        ((ps.ordinary.map (·.1) ++ (ps.kwarg.map (·.name)).toList).zip (ps.defaults.map some)) [] ps c.texts := by
  obtain ⟨t, h, -⟩ := inFrame_eq_ok_iff.mp h
  simp only [compileFunction, bind_eq_ok_iff] at h
  obtain ⟨_, _, -, vars, _, -, form, _, hform, hnode⟩ := h
  obtain ⟨c, hc, htext, hrest, ⟨_, _, hargs⟩, hnamed⟩ :=
    exists_callable_of_functionNode (formOf_free hfree hform) hnode
  rw [hfree] at hargs
  have hlists := c.lists_ordinary haligned hrest hargs hnamed
  refine ⟨c, hc, htext, ?_, ?_, hlists⟩
  · intro hfaithful
    refine Params.freeOfPosOnly_of_length_eq ?_
    have hlength := hfaithful.length_eq
    split at hlists
    next hle =>
      have := hlists.length_eq
      omega
    next hlt =>
      have hshifted := hlists.length_eq
      cases hkwarg : ps.kwarg <;> simp [hkwarg] at hlength hshifted <;> omega
  · intro hposOnly hle
    rw [hposOnly.positional_eq] at hle
    rw [if_pos hle] at hlists
    rw [Faithful, hposOnly.positional_eq]
    exact hlists

def idleFunction (ps : Params) : Stmt :=
  .functionDef none false "f" ps [.pass none] [] .absent

def keywordParams : Params :=
  ⟨[], [⟨none, "self", .absent⟩, ⟨none, "a", .absent⟩, ⟨none, "b", .absent⟩], none,
    [⟨none, "c", .absent⟩, ⟨none, "d", .absent⟩], [.absent, .constant none (.number "2")], none,
    [.constant none (.number "1")]⟩

theorem faithful_keywordParams : keywordParams.Aligned ∧ ∃ j s',
    compileStmt compileTemplate (.standard true false) .top (idleFunction keywordParams) .start = .ok j s' ∧
      ∃ c, callable? j = some c ∧
        Faithful (.standard true false) (Place.top.inside "f" false) keywordParams c.texts := by
  have haligned : keywordParams.Aligned := ⟨by decide, rfl⟩
  obtain ⟨j, s', h⟩ : ∃ j s', compileStmt compileTemplate (.standard true false) .top (idleFunction keywordParams)
      .start = .ok j s' := ⟨_, _, rfl⟩
  obtain ⟨c, hc, -, -, hfaithful, -⟩ := exists_parameterList haligned rfl h
  exact ⟨haligned, j, s', h, c, hc, hfaithful (.inl rfl) (by decide)⟩

def posOnlyParams : Params :=
  ⟨[⟨none, "a", .absent⟩], [⟨none, "b", .absent⟩], none, [], [], none,
    [.constant none (.number "1"), .constant none (.number "2")]⟩

def selfDefaultParams : Params :=
  ⟨[], [⟨none, "self", .absent⟩, ⟨none, "a", .absent⟩], none, [], [], some ⟨none, "kw", .absent⟩,
    [.constant none (.number "1"), .constant none (.number "2")]⟩

/-- A default of `self` goes to the next parameter, and the last default to the one that collects keywords. A
parameter that only comes by position is lost, and the next one has its default. -/
theorem not_faithful_shifted :
    (∃ j s' c, compileStmt compileTemplate (.standard true false) .top (idleFunction selfDefaultParams) .start =
        .ok j s' ∧ callable? j = some c ∧ j.render = "function f(a = 1, kw = 2) \x7b\n\x7d\n" ∧
      ¬ Faithful (.standard true false) (Place.top.inside "f" false) selfDefaultParams c.texts) ∧
    ∃ j s' c, compileStmt compileTemplate (.standard true false) .top (idleFunction posOnlyParams) .start =
        .ok j s' ∧ callable? j = some c ∧ j.render = "function f(b = 1) \x7b\n\x7d\n" ∧
      ¬ Faithful (.standard true false) (Place.top.inside "f" false) posOnlyParams c.texts := by
  constructor
  · refine ⟨_, _, _, rfl, rfl, by decide +kernel, ?_⟩
    rintro ⟨first, named, hfirst, hnamed, htexts⟩
    obtain rfl : named = [] := List.forall₂_nil_left_iff.mp hnamed
    cases hfirst with
    | cons hshown hrest =>
      obtain rfl := List.forall₂_nil_left_iff.mp hrest
      cases hshown with
      | default name h =>
        obtain ⟨rfl, -⟩ := pure_eq_ok_iff.mp h
        exact absurd htexts (by decide +kernel)
  · refine ⟨_, _, _, rfl, rfl, by decide +kernel, fun hfaithful => ?_⟩
    exact absurd hfaithful.length_eq (by decide +kernel)

end Transpiler.Compile
