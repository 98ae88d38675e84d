import Transpiler.Proofs.Compile.Instances
import Transpiler.Proofs.Text.Trimmed

/-!
# Texts put into the output

`tmpl(s)` and `__(s, tag)` put a text between back quotes, and `JS(s)` puts it into the output as it is. In all three
the lines of a text of several lines are trimmed and end in line feeds. So a text stands unchanged in the output
(`StandsBetween`) exactly if it has one line or is trimmed already (`standsBetween_iff_keeps`).
-/

namespace Transpiler.Script

open Text (relaid splitLines trimLines)

/-! ### Texts of several lines -/

section

variable {o : Origin} {opening closing value : String}

def closingOf (opening closing : String) : String :=
  if opening != "" && closing == "" then opening else closing

def lineEnd (s : String) : String :=
  if (splitLines s).length ≤ 1 then "" else "\n"

theorem toString_textLine (o : Origin) (s : String) : (o.textLine false s).toString = s ++ "\n" := by
  simp [Origin.textLine, Item.toString, Line.toString, margin, Content.toString, Piece.toString]

theorem toString_toLine_part {items : List Item} (h : ∀ l, items ≠ [.line l]) :
    (o.toLine 0 false (o.part .none items)).toString = Item.joinAll items ++ "\n" := by
  have hpart := o.toString_part .none h
  rw [o.part_eq_group .none h] at hpart ⊢
  simp_all [Origin.toLine, Item.toString, Line.toString, margin, Item.toContent, Content.toString]

theorem intercalate_concat {α : Type} (sep : α) (lines : List (List α)) (last : List α) :
    [sep].intercalate (lines ++ [last]) = lines.flatMap (· ++ [sep]) ++ last := by
  induction lines with
  | nil => simp
  | cons _ rest => cases rest <;> simp_all [List.intercalate_cons_cons]

theorem multiLine_of_length_le_one (h : (splitLines value).length ≤ 1) (pad : String) :
    o.multiLine opening closing pad value =
      [o.part .none [str opening, str pad, str value, str pad, str (closingOf opening closing)]] := by
  match hlines : splitLines value, h with
  | [], _ => simp [Origin.multiLine, hlines, str, closingOf]
  | [line], _ => simp [Origin.multiLine, hlines, str, closingOf]

theorem exists_multiLine_eq (o : Origin) (opening closing pad : String) (h : 1 < (splitLines value).length) :
    ∃ first middle last, splitLines value = first :: middle ++ [last] ∧ o.multiLine opening closing pad value =
      o.toLine 0 false (o.part .none [str opening, str (Text.strip first)]) ::
        (middle.map fun l => o.textLine false (Text.strip l)) ++
        [o.toLine 0 false (o.part .none [str (Text.strip last), str (closingOf opening closing)])] := by
  match hlines : splitLines value, h with
  | first :: second :: rest, _ =>
    obtain ⟨middle, last, hmore⟩ := (second :: rest).eq_nil_or_concat.resolve_left (by simp)
    refine ⟨first, middle, last, by simp [hmore], ?_⟩
    rw [Origin.multiLine, hlines]
    dsimp only
    rw [hmore]
    simp [str, closingOf]

theorem multiLine_of_one_lt_length (h : 1 < (splitLines value).length) (pad : String) :
    (∀ i ∈ o.multiLine opening closing pad value, ∃ l : Line, i = .line l) ∧
      2 ≤ (o.multiLine opening closing pad value).length ∧
      Item.joinAll (o.multiLine opening closing pad value) =
        opening ++ trimLines value ++ closingOf opening closing ++ "\n" := by
  obtain ⟨first, middle, last, hlines, hitems⟩ := exists_multiLine_eq o opening closing pad h
  have hend : ∀ items : List Item, ∃ l : Line, o.toLine 0 false (o.part .none items) = .line l := by
    intro items
    cases o.part .none items <;> exact ⟨_, rfl⟩
  rw [hitems]
  refine ⟨?_, by simp, ?_⟩
  · simp only [List.cons_append, List.forall_mem_cons, List.forall_mem_append, List.forall_mem_map]
    exact ⟨hend _, fun l _ => ⟨_, rfl⟩, hend _, by simp⟩
  · have htrim : (trimLines value).toList = ['\n'].intercalate
        ((first :: middle ++ [last]).map fun l => (Text.strip l).toList) := by
      simp [trimLines, hlines, String.toList_intercalate, Function.comp_def]
    rw [List.map_append, List.map_singleton, intercalate_concat] at htrim
    rw [← String.toList_inj]
    simp [toString_toLine_part, toString_textLine, htrim, Item.joinAll, Function.comp_def, List.flatMap_map]

theorem joinAll_multiLine : Item.joinAll (o.multiLine opening closing "" value) =
    opening ++ relaid value ++ closingOf opening closing ++ lineEnd value := by
  rw [relaid, lineEnd]
  split
  next h => simp [multiLine_of_length_le_one h, o.toString_part _ cons_str_ne_line, String.append_assoc]
  next h => exact (multiLine_of_one_lt_length (Nat.lt_of_not_le h) "").2.2

theorem append_multiLine_ne_line (items : List Item) (l : Line) :
    items ++ o.multiLine opening closing "" value ≠ [.line l] := by
  by_cases h : (splitLines value).length ≤ 1
  · simp [multiLine_of_length_le_one h, o.part_eq_group _ cons_str_ne_line, List.append_eq_singleton_iff]
  · intro heq
    have hlong : 2 ≤ (o.multiLine opening closing "" value).length :=
      (multiLine_of_one_lt_length (Nat.lt_of_not_le h) "").2.1
    have hlength := congrArg List.length heq
    rw [List.length_append, List.length_singleton] at hlength
    omega

theorem isNode_of_render? {j : Js} {text : String} (h : j.render? = .ok text) : j.isNode = true := by
  by_contra hnode
  simp [Js.render?, Js.items?, checkNode, hnode, firstFault, bind, Except.bind] at h

theorem render?_template (o : Origin) (s : String) :
    (Js.template o s).render? = .ok ("`" ++ relaid s ++ "`" ++ lineEnd s) :=
  (render?_eq_ok_iff rfl).mpr ⟨rfl, joinAll_multiLine⟩

theorem render?_tagged {tag : Js} {text : String} (h : tag.render? = .ok text) (o : Origin) (s : String) :
    (Js.tagged o s tag).render? = .ok (text ++ "`" ++ relaid s ++ "`" ++ lineEnd s) := by
  obtain ⟨hcheck, rfl⟩ := check_of_render? h
  refine (render?_eq_ok_iff rfl).mpr ⟨?_, ?_⟩
  · simp [Js.check, firstFault_cons, firstFault_nil, checkNode, isNode_of_render? h, hcheck]
  · rw [Js.render, Js.items, Item.joinAll_cons, o.toString_part _ (append_multiLine_ne_line _), Item.joinAll_append,
      joinAll_multiLine]
    simp [Js.render, closingOf, String.append_assoc]

theorem items_tagged_ne_line {s : String} {tag : Js} (l : Line) : (Js.tagged o s tag).items ≠ [.line l] := by
  simp [Js.items, o.part_eq_group _ (append_multiLine_ne_line _)]

theorem items_literal_of_several {s : String} (h : 1 < (splitLines s).length) :
    (Js.literal o s).items = o.multiLine "" "" "" s := by
  rw [Js.items, List.map_congr_left, List.map_id']
  intro i hi
  obtain ⟨_, rfl⟩ := (multiLine_of_one_lt_length h "").1 i hi
  rfl

theorem render_literal (o : Origin) (s : String) : (Js.literal o s).render = relaid s ++ "\n" := by
  rw [Js.render, relaid]
  split
  next h =>
    rw [Js.items, multiLine_of_length_le_one h]
    simp [toString_toLine_part cons_str_ne_line, closingOf]
  next h =>
    rw [items_literal_of_several (Nat.lt_of_not_le h), (multiLine_of_one_lt_length (Nat.lt_of_not_le h) "").2.2]
    simp [closingOf]

/-! ### Texts that stay as they are -/

theorem render?_exprStmt {j : Js} {text : String} (hline : ∀ l, j.items ≠ [.line l]) (h : j.render? = .ok text) :
    (Js.exprStmt o j).render? = .ok text := by
  obtain ⟨hcheck, rfl⟩ := check_of_render? h
  have hgroup := o.part_eq_group .none hline
  refine (render?_eq_ok_iff rfl).mpr ⟨?_, ?_⟩
  · simp [Js.check, firstFault_cons, firstFault_nil, hcheck, hgroup, checkOutput, Item.isOutput, Piece.isGroup]
  · rw [Js.render, Js.items, Item.joinAll_cons, o.toString_part _ hline, Item.joinAll_nil, String.append_empty, Js.render]

theorem render?_exprStmt_literal (o o' : Origin) (s : String) : (Js.exprStmt o (.literal o' s)).render? =
    .ok (relaid s ++ lineEnd s) := by
  by_cases h : (splitLines s).length ≤ 1
  · have hitems : (Js.literal o' s).items = [.line ⟨o', 0, false, .piece (.group o' .none
        ([str "", str "", str s, str "", str (closingOf "" "")].map Item.toPiece))⟩] := by
      rw [Js.items, multiLine_of_length_le_one h, o'.part_eq_group _ cons_str_ne_line]
      rfl
    refine (render?_eq_ok_iff rfl).mpr ⟨?_, ?_⟩
    · simp [Js.check, firstFault_cons, firstFault_nil, checkOutput, hitems, Origin.part, Item.ofContent,
        Item.isOutput, Piece.isGroup]
    · rw [Js.render, Js.items, hitems, relaid, lineEnd, if_pos h, if_pos h]
      simp [Origin.part, Item.ofContent, Item.toString, Piece.toString, Piece.joinAll, Item.toPiece, str, closingOf]
  · refine render?_exprStmt (fun l => ?_) ((render?_eq_ok_iff rfl).mpr ⟨rfl, ?_⟩)
    · rw [items_literal_of_several (Nat.lt_of_not_le h)]
      exact append_multiLine_ne_line [] l
    · rw [render_literal, lineEnd, if_neg h]

/-- A text as it stands in the output: unchanged between two delimiters, and maybe with a line feed after it. -/
def StandsBetween (opening closing s text : String) : Prop :=
  text = opening ++ s ++ closing ∨ text = opening ++ s ++ closing ++ "\n"

theorem standsBetween_quotes_iff {opening s t : String} :
    StandsBetween opening "`" s (opening ++ t ++ "`" ++ lineEnd s) ↔ t = s := by
  have h : lineEnd s = "" ∨ lineEnd s = "\n" := by
    unfold lineEnd
    split <;> simp
  generalize lineEnd s = after at h
  constructor
  · rintro (heq | heq) <;> obtain rfl | rfl := h <;> rw [← String.toList_inj] at heq ⊢
    · simpa using heq
    · have hlast := congrArg List.getLast? heq
      simp at hlast
    · have hlast := congrArg List.getLast? heq
      simp at hlast
    · simpa using heq
  · rintro rfl
    obtain rfl | rfl := h
    · exact .inl (by simp)
    · exact .inr rfl

theorem standsBetween_nothing_iff {s t : String} : StandsBetween "" "" s (t ++ "\n") ↔ t = s ∨ t ++ "\n" = s := by
  simp [StandsBetween, or_comm]

end

end Transpiler.Script

namespace Transpiler.Compile

open Script (Js Origin StandsBetween)
open Source (At Expr Keyword)
open Text (KeepsLines relaid splitLines trimLines)

inductive Marker where
  | template
  | tagged (tag : Option Expr)
  | script

namespace Marker

def call (p q r : At) (keywords : List Keyword) (s : String) : Marker → Expr
  | template => .call p (.name q "tmpl") [.constant r (.str s)] keywords
  | tagged tag => .call p (.name q "__") (.constant r (.str s) :: tag.toList) keywords
  | script => .call p (.name q "JS") [.constant r (.str s)] keywords

inductive Delimits (cfg : Config) (here : Place) : Marker → String → String → Session → Session → Prop
  | template {s : Session} (h : cfg.es6 = true) : Delimits cfg here template "`" "`" s s
  | untagged {s : Session} (h : cfg.es6 = true) : Delimits cfg here (tagged none) ("__" ++ "`") "`" s s
  | tagged {tag : Expr} {j : Js} {text : String} {s s' : Session} (h : cfg.es6 = true)
      (htag : compileExpr cfg here tag s = .ok j s') (htext : j.render? = .ok text) :
      Delimits cfg here (tagged (some tag)) (text ++ "`") "`" s s'
  | script {s : Session} : Delimits cfg here script "" "" s s

def Keeps (s : String) : Marker → Prop
  | script => KeepsLines s ∨ trimLines s ++ "\n" = s
  | _ => KeepsLines s

section

variable (cfg : Config) (here : Place) (p q r : At) (keywords : List Keyword) (s : String)

theorem compileExpr_template : compileExpr cfg here (template.call p q r keywords s) = do
    let node := (template.call p q r keywords s).ref
    guardFeature cfg.es6 node .template
    return .template (cfg.origin (some node)) s := by
  rw [call, compileExpr]
  rfl

theorem compileExpr_untagged : compileExpr cfg here ((tagged none).call p q r keywords s) = do
    let node := ((tagged none).call p q r keywords s).ref
    guardFeature cfg.es6 node .taggedTemplate
    return .tagged (cfg.origin (some node)) s (.name (cfg.origin none) (.text "__")) := by
  rw [call, compileExpr]
  rfl

theorem compileExpr_tagged (tag : Expr) : compileExpr cfg here ((tagged (some tag)).call p q r keywords s) = do
    let node := ((tagged (some tag)).call p q r keywords s).ref
    guardFeature cfg.es6 node .taggedTemplate
    return .tagged (cfg.origin (some node)) s (← compileExpr cfg here tag) := by
  rw [call, compileExpr]
  rfl

theorem compileExpr_script : compileExpr cfg here (script.call p q r keywords s) =
    pure (.literal (cfg.origin (some (script.call p q r keywords s).ref)) s) := by
  rw [call, compileExpr]
  rfl

variable {cfg here s}

theorem keeps_script_iff : script.Keeps s ↔ relaid s = s ∨ relaid s ++ "\n" = s := by
  rw [Keeps, ← Text.relaid_eq_self_iff]
  by_cases h : (splitLines s).length ≤ 1 <;> simp [relaid, h]

theorem quoted {j : Js} {opening : String} (hline : ∀ l, j.items ≠ [.line l])
    (hwritten : j.render? = .ok (opening ++ relaid s ++ "`" ++ Script.lineEnd s)) (o : Origin) :
    ∀ written ∈ [j, .exprStmt o j], ∃ text, written.render? = .ok text ∧
      (StandsBetween opening "`" s text ↔ KeepsLines s) := by
  have hstands : StandsBetween opening "`" s (opening ++ relaid s ++ "`" ++ Script.lineEnd s) ↔ KeepsLines s :=
    Script.standsBetween_quotes_iff.trans Text.relaid_eq_self_iff
  simpa using ⟨⟨_, hwritten, hstands⟩, _, Script.render?_exprStmt hline hwritten, hstands⟩

/-- A text stands unchanged between the delimiters exactly if it has one line or is trimmed. -/
theorem standsBetween_iff_keeps {m : Marker} {opening closing : String} {t t' : Session}
    (h : m.Delimits cfg here opening closing t t') (o : Origin) :
    ∃ j, compileExpr cfg here (m.call p q r keywords s) t = .ok j t' ∧
      ∀ written ∈ [j, .exprStmt o j], ∃ text, written.render? = .ok text ∧
        (StandsBetween opening closing s text ↔ m.Keeps s) := by
  cases h with
  | template hes6 =>
    refine ⟨_, by rw [compileExpr_template, hes6]; rfl, quoted ?_ (Script.render?_template _ s) o⟩
    exact Script.append_multiLine_ne_line []
  | untagged hes6 =>
    refine ⟨_, by rw [compileExpr_untagged, hes6]; rfl,
      quoted Script.items_tagged_ne_line (Script.render?_tagged ?_ _ s) o⟩
    have hfree : ∀ es6, Script.isReserved es6 "__" = false := by decide
    refine (Script.render?_eq_ok_iff rfl).mpr ⟨?_, ?_⟩
    · simp [Js.check, Script.firstFault_cons, Script.firstFault_nil, Script.Origin.checkWord, Config.origin, hfree,
        Script.checkOutput, Script.Origin.part, Js.items, Script.str, Script.Item.isOutput, Script.Piece.isGroup]
    · rw [← String.toList_inj, ← Js.chars, Js.chars_name]
  | @tagged tag j text _ _ hes6 htag htext =>
    have hcompile : ∃ o', compileExpr cfg here ((tagged (some tag)).call p q r keywords s) t =
        .ok (.tagged o' s j) t' := by
      rw [compileExpr_tagged, hes6]
      exact ⟨_, bind_of_ok htag⟩
    obtain ⟨o', hcompile⟩ := hcompile
    exact ⟨_, hcompile, quoted Script.items_tagged_ne_line (Script.render?_tagged htext _ s) o⟩
  | script =>
    refine ⟨_, by rw [compileExpr_script]; rfl, ?_⟩
    have hwritten := fun o' => (Script.render?_eq_ok_iff rfl).mpr ⟨rfl, Script.render_literal o' s⟩
    simp only [List.forall_mem_cons]
    refine ⟨⟨_, hwritten _, ?_⟩, ⟨_, Script.render?_exprStmt_literal o _ s, ?_⟩, by simp⟩
    · rw [Script.standsBetween_nothing_iff, keeps_script_iff]
    · by_cases h : (splitLines s).length ≤ 1
      · simp [Script.lineEnd, h, StandsBetween, Keeps, KeepsLines, relaid]
      · rw [Script.lineEnd, if_neg h, Script.standsBetween_nothing_iff, keeps_script_iff]

end

/-- Two trimmed lines stand between back quotes as they are, with the tag before them. -/
theorem standsBetween_trimmed :
    (tagged (some (.name none "html"))).Delimits (.standard true false) .top ("html" ++ "`") "`" .start .start ∧
      (tagged (some (.name none "html"))).Keeps "<p>\n</p>" ∧
      ∃ j text, compileExpr (.standard true false) .top
          ((tagged (some (.name none "html"))).call none none none [] "<p>\n</p>") .start = .ok j .start ∧
        j.render? = .ok text ∧ StandsBetween ("html" ++ "`") "`" "<p>\n</p>" text := by
  have hdelimits : (tagged (some (.name none "html"))).Delimits (.standard true false) .top ("html" ++ "`") "`"
      .start .start := .tagged rfl rfl (by decide +kernel)
  have hkeeps : (tagged (some (.name none "html"))).Keeps "<p>\n</p>" :=
    (by decide +kernel : KeepsLines "<p>\n</p>")
  obtain ⟨j, hcompile, hwritten⟩ := standsBetween_iff_keeps none none none [] (s := "<p>\n</p>") hdelimits default
  obtain ⟨text, htext, hstands⟩ := hwritten j (by simp)
  exact ⟨hdelimits, hkeeps, j, text, hcompile, htext, hstands.mpr hkeeps⟩

/-- The blank at the end of a line of a template is lost, and so is the indentation of a script. -/
theorem not_standsBetween_untrimmed :
    (∃ j, compileExpr (.standard true false) .top (template.call none none none [] "a \nb") .start = .ok j .start ∧
      j.render? = .ok "`a\nb`\n" ∧ ¬ StandsBetween "`" "`" "a \nb" "`a\nb`\n") ∧
    (∃ j, compileExpr (.standard true false) .top (script.call none none none [] "if (a)\n  b;") .start = .ok j .start ∧
      j.render? = .ok "if (a)\nb;\n" ∧ ¬ StandsBetween "" "" "if (a)\n  b;" "if (a)\nb;\n") := by
  refine ⟨⟨_, rfl, ?_, ?_⟩, ⟨_, rfl, ?_, ?_⟩⟩
  · decide +kernel
  · simp [StandsBetween]
  · decide +kernel
  · simp [StandsBetween]

end Marker

end Transpiler.Compile
