import Transpiler.Proofs.Script.Brackets
import Transpiler.Proofs.Script.Reader
import Transpiler.Proofs.Text.Trimmed

/-!
# Layouts without their brackets

Blotting out brackets goes along with everything that is done to a text on its way into a layout: cutting it
into lines, stripping it, quoting it. So the layouts of a tree and of the tree without the brackets of verbatim
text are the same lines and pieces, and their texts differ in brackets only (`Js.hidden_items`).
-/

namespace Transpiler.Script

open Text (escapeChar quote splitLines splitLinesFrom strip)

variable {c d : Char} {s : String}

/-! ### Texts -/

theorem hideChar_of_not_bracket (h : isBracket c = false) : hideChar c = c := by
  simp [hideChar, h]

theorem map_hideChar_of_not_bracket {cs : List Char} (h : ∀ c ∈ cs, isBracket c = false) : cs.map hideChar = cs := by
  rw [List.map_congr_left fun c hc => hideChar_of_not_bracket (h c hc), List.map_id']

theorem eq_of_isBracket (h : isBracket c = true) : c = '(' ∨ c = '[' ∨ c = '\x7b' ∨ c = ')' ∨ c = ']' ∨ c = '\x7d' := by
  simpa [isBracket, isOpening, isClosing, or_assoc] using h

theorem hideChar_congr {α : Type} {f : Char → α} (h : f '_' = f '(' ∧ f '_' = f '[' ∧ f '_' = f '\x7b' ∧
    f '_' = f ')' ∧ f '_' = f ']' ∧ f '_' = f '\x7d') (c : Char) : f (hideChar c) = f c := by
  cases hc : isBracket c with
  | true =>
    obtain ⟨_, _, _, _, _, _⟩ := h
    rw [hideChar, if_pos hc]
    obtain rfl | rfl | rfl | rfl | rfl | rfl := eq_of_isBracket hc <;> assumption
  | false => rw [hideChar_of_not_bracket hc]

@[simp]
theorem isBlank_hideChar (c : Char) : Text.isBlank (hideChar c) = Text.isBlank c :=
  hideChar_congr ⟨rfl, rfl, rfl, rfl, rfl, rfl⟩ c

@[simp]
theorem isLineEnd_hideChar (c : Char) : Text.isLineEnd (hideChar c) = Text.isLineEnd c :=
  hideChar_congr ⟨rfl, rfl, rfl, rfl, rfl, rfl⟩ c

@[simp]
theorem toList_hide (s : String) : (hide s).toList = s.toList.map hideChar := by
  simp [hide]

theorem bracketFree_iff_hide : bracketFree s = true ↔ hide s = s := by
  refine ⟨fun h => ?_, fun h => h ▸ bracketFree_hide s⟩
  rw [← String.toList_inj, toList_hide]
  exact map_hideChar_of_not_bracket (by simpa [bracketFree] using h)

@[simp]
theorem hide_hide (s : String) : hide (hide s) = hide s :=
  bracketFree_iff_hide.mp (bracketFree_hide s)

@[simp]
theorem hide_append (s t : String) : hide (s ++ t) = hide s ++ hide t := by
  simp [← String.toList_inj]

@[simp]
theorem allBlank_hide (s : String) : Text.allBlank (hide s) = Text.allBlank s := by
  simp [Text.allBlank, Function.comp_def]

theorem stripLeft_map_hideChar (cs : List Char) :
    Text.stripLeft (cs.map hideChar) = (Text.stripLeft cs).map hideChar := by
  simp [Text.stripLeft, List.dropWhile_map, Function.comp_def]

@[simp]
theorem strip_hide (s : String) : strip (hide s) = hide (strip s) := by
  simp [← String.toList_inj, strip, Text.stripChars, stripLeft_map_hideChar, ← List.map_reverse]

theorem hideChar_eq_iff (h : isBracket d = false) (hblot : d ≠ '_') : hideChar c = d ↔ c = d := by
  cases hc : isBracket c with
  | true =>
    have hne : c ≠ d := by
      rintro rfl
      simp [h] at hc
    simp [hideChar, hc, hblot.symm, hne]
  | false => rw [hideChar_of_not_bracket hc]

theorem splitLinesFrom_map_hideChar (current cs : List Char) :
    splitLinesFrom (current.map hideChar) (cs.map hideChar) =
      (splitLinesFrom current cs).map (List.map hideChar) := by
  have hfeeds {c : Char} {rest : List Char} (hnot : ∀ more, c = '\r' → rest = '\n' :: more → False) :
      ∀ more, hideChar c = '\r' → rest.map hideChar = '\n' :: more → False := by
    intro _ hc hrest
    obtain ⟨_, rest, rfl, hd, -⟩ := List.map_eq_cons_iff.mp hrest
    rw [hideChar_eq_iff (by decide) (by decide)] at hc hd
    exact hnot rest hc (by rw [hd])
  fun_induction splitLinesFrom current cs with
  | case1 => simp_all [splitLinesFrom]
  | case2 => simp_all [splitLinesFrom]
  | case3 _ rest ih =>
    have hends : ('\r' :: '\n' :: rest).map hideChar = '\r' :: '\n' :: rest.map hideChar := rfl
    simp [hends, splitLinesFrom, ← ih]
  | case4 _ _ _ hnot hend ih =>
    rw [List.map_cons, splitLinesFrom.eq_3 _ _ _ (hfeeds hnot), isLineEnd_hideChar, if_pos hend]
    simp [← ih]
  | case5 _ _ _ hnot hend ih =>
    rw [List.map_cons, splitLinesFrom.eq_3 _ _ _ (hfeeds hnot), isLineEnd_hideChar, if_neg hend]
    exact ih

@[simp]
theorem splitLines_hide (s : String) : splitLines (hide s) = (splitLines s).map hide := by
  have h := splitLinesFrom_map_hideChar [] s.toList
  simp only [List.map_nil] at h
  simp [splitLines, h, Function.comp_def, hide]

theorem isBracket_hexDigit {n : Nat} (h : n < 16) : isBracket (Text.hexDigit n) = false := by
  revert n
  decide

theorem isBracket_of_mem_escapeChar (hc : isBracket c = false) (hd : d ∈ escapeChar c) : isBracket d = false := by
  unfold escapeChar at hd
  split at hd
  case h_8 =>
    split at hd
    · rwa [List.mem_singleton.mp hd]
    · obtain ⟨_, -, hd⟩ := List.mem_flatMap.mp hd
      have hdigit (m : Nat) : isBracket (Text.hexDigit (m % 16)) = false :=
        isBracket_hexDigit (Nat.mod_lt m (by decide))
      simp only [Text.unitEscape, List.mem_cons, List.not_mem_nil, or_false] at hd
      rcases hd with rfl | rfl | rfl | rfl | rfl | rfl
      · decide
      · decide
      all_goals exact hdigit _
  all_goals
    simp only [List.mem_cons, List.not_mem_nil, or_false] at hd
    rcases hd with rfl | rfl <;> decide

theorem escapeChar_hideChar (c : Char) : escapeChar (hideChar c) = (escapeChar c).map hideChar := by
  cases hc : isBracket c with
  | true =>
    obtain rfl | rfl | rfl | rfl | rfl | rfl := eq_of_isBracket hc <;> rfl
  | false =>
    rw [hideChar_of_not_bracket hc, map_hideChar_of_not_bracket fun d => isBracket_of_mem_escapeChar hc]

@[simp]
theorem quote_hide (s : String) : quote (hide s) = hide (quote s) := by
  have hflat : (s.toList.map hideChar).flatMap escapeChar = (s.toList.flatMap escapeChar).map hideChar := by
    simp [List.flatMap_map, List.map_flatMap, escapeChar_hideChar]
  have hquote : hideChar '"' = '"' := by decide
  simp [← String.toList_inj, quote, hflat, hquote]

theorem isBracket_of_isDigit (h : c.isDigit = true) : isBracket c = false := by
  cases hc : isBracket c with
  | true =>
    obtain rfl | rfl | rfl | rfl | rfl | rfl := eq_of_isBracket hc <;> cases h
  | false => rfl

theorem bracketFree_scalar (v : Scalar) : bracketFree v.text = true := by
  cases v with
  | none => decide
  | bool b => cases b <;> decide
  | int n =>
    have hdigits (n : Nat) : bracketFree (toString n) = true := by
      simpa [bracketFree] using fun c hc => isBracket_of_isDigit (isDigit_of_mem_toString hc)
    cases n with
    | ofNat n => exact hdigits n
    | negSucc n =>
      have htext : toString (Int.negSucc n) = "-" ++ toString (n + 1) := rfl
      rw [Scalar.text, htext, bracketFree_iff_hide, hide_append, bracketFree_iff_hide.mp (hdigits _)]
      rfl

/-! ### Items -/

def Label.hidden : Label → Label
  | .named s => .named (hide s)
  | l => l

mutual
def Piece.hidden : Piece → Piece
  | .text s => .text (hide s)
  | .group o label parts => .group o label.hidden (hiddenAll parts)

def hiddenAll : List Piece → List Piece
  | [] => []
  | p :: rest => p.hidden :: hiddenAll rest
end

def Content.hidden : Content → Content
  | .piece p => .piece p.hidden
  | .bare v => .bare v

def Item.hidden : Item → Item
  | .line l => .line { l with content := l.content.hidden }
  | .piece p => .piece p.hidden
  | .bare v => .bare v

theorem hiddenAll_eq_map (ps : List Piece) : hiddenAll ps = ps.map Piece.hidden := by
  induction ps with
  | nil => rfl
  | cons _ _ ih => simp [hiddenAll, ih]

mutual
theorem Piece.toString_hidden : ∀ p : Piece, p.hidden.toString = hide p.toString
  | .text s => rfl
  | .group o label parts => by
    rw [Piece.hidden, Piece.toString, Piece.toString, joinAll_hiddenAll parts]

theorem joinAll_hiddenAll : ∀ ps : List Piece, Piece.joinAll (hiddenAll ps) = hide (Piece.joinAll ps)
  | [] => rfl
  | p :: rest => by
    rw [hiddenAll, Piece.joinAll, Piece.joinAll, p.toString_hidden, joinAll_hiddenAll rest, hide_append]
end

theorem Content.toString_hidden (c : Content) : c.hidden.toString = hide c.toString := by
  cases c with
  | piece p => exact p.toString_hidden
  | bare v => exact (bracketFree_iff_hide.mp (bracketFree_scalar v)).symm

theorem hide_margin (indent : Nat) : hide (margin indent) = margin indent := by
  refine bracketFree_iff_hide.mp ?_
  simp only [bracketFree, margin, String.toList_ofList, List.all_eq_true]
  intro _ hc
  rw [List.eq_of_mem_replicate hc]
  rfl

theorem Item.toString_hidden (i : Item) : i.hidden.toString = hide i.toString := by
  cases i with
  | line l =>
    have hdelim : hide (if l.delim then ";" else "") = if l.delim then ";" else "" := by
      cases l.delim <;> rfl
    have hfront (blank : Bool) : hide (if blank then "" else margin l.indent) =
        if blank then "" else margin l.indent := by
      cases blank with
      | true => rfl
      | false => exact hide_margin l.indent
    have hend : hide "\n" = "\n" := rfl
    have hblank := allBlank_hide (l.content.toString ++ if l.delim then ";" else "")
    rw [hide_append, hdelim] at hblank
    rw [Item.hidden, Item.toString, Item.toString, Line.toString, Line.toString]
    simp only [l.content.toString_hidden, hide_append, hblank, hdelim, hend, hfront]
  | piece p => exact p.toString_hidden
  | bare v => exact (bracketFree_iff_hide.mp (bracketFree_scalar v)).symm

theorem joinAll_map_hidden (items : List Item) : Item.joinAll (items.map Item.hidden) = hide (Item.joinAll items) := by
  induction items with
  | nil => rfl
  | cons _ _ ih => simp [ih, Item.toString_hidden]

theorem Item.hidden_toPiece (i : Item) : i.hidden.toPiece = i.toPiece.hidden := by
  cases i with
  | line l => exact congrArg Piece.text (Item.line l).toString_hidden
  | piece => rfl
  | bare v => exact congrArg Piece.text (Item.bare v).toString_hidden

theorem map_hidden_toPiece (items : List Item) :
    hiddenAll (items.map Item.toPiece) = (items.map Item.hidden).map Item.toPiece := by
  simp [hiddenAll_eq_map, Function.comp_def, Item.hidden_toPiece]

@[simp]
theorem hidden_str (s : String) : (str s).hidden = str (hide s) :=
  rfl

@[simp]
theorem hidden_text (s : String) : (Item.piece (.text s)).hidden = .piece (.text (hide s)) :=
  rfl

@[simp]
theorem hidden_lineOf (o : Origin) (delim : Bool) (items : List Item) :
    (o.lineOf delim items).hidden = o.lineOf delim (items.map Item.hidden) := by
  simp [Origin.lineOf, Item.hidden, Content.hidden, Piece.hidden, Label.hidden, map_hidden_toPiece]

@[simp]
theorem hidden_textLine (o : Origin) (delim : Bool) (s : String) :
    (o.textLine delim s).hidden = o.textLine delim (hide s) :=
  rfl

@[simp]
theorem hidden_toLine (o : Origin) (indent : Nat) (delim : Bool) (i : Item) :
    (o.toLine indent delim i).hidden = o.toLine indent delim i.hidden := by
  cases i <;> rfl

theorem hidden_block (o : Origin) (items : List Item) :
    (o.block items).map Item.hidden = o.block (items.map Item.hidden) := by
  simp [Origin.block, Function.comp_def]

@[simp]
theorem hidden_part (o : Origin) (label : Label) (items : List Item) :
    (o.part label items).hidden = o.part label.hidden (items.map Item.hidden) := by
  by_cases hline : ∃ l, items = [.line l]
  · obtain ⟨l, rfl⟩ := hline
    cases hcontent : l.content <;> simp [Origin.part, Item.hidden, Item.ofContent, Content.hidden, hcontent]
  · have hline : ∀ l, items ≠ [.line l] := fun l hl => hline ⟨l, hl⟩
    have hhidden : ∀ l, items.map Item.hidden ≠ [.line l] := by
      intro l hl
      obtain ⟨i, rfl, hi⟩ := List.map_eq_singleton_iff.mp hl
      cases i with
      | line l => exact hline l rfl
      | _ => cases hi
    rw [o.part_eq_group label hline, o.part_eq_group label.hidden hhidden, ← map_hidden_toPiece]
    rfl

theorem hide_eq_empty_iff : hide s = "" ↔ s = "" := by
  constructor
  · intro h
    have hlist := congrArg String.toList h
    simpa using hlist
  · rintro rfl
    rfl

@[simp]
theorem hidden_multiLine (o : Origin) (opening closing pad value : String) :
    (o.multiLine opening closing pad value).map Item.hidden =
      o.multiLine (hide opening) (hide closing) (hide pad) (hide value) := by
  have hclosing : (if hide opening != "" && hide closing == "" then hide opening else hide closing) =
      hide (if opening != "" && closing == "" then opening else closing) := by
    simp only [bne, beq_eq_beq.mpr hide_eq_empty_iff]
    split <;> rfl
  unfold Origin.multiLine
  dsimp only
  rw [hclosing, splitLines_hide]
  generalize (if opening != "" && closing == "" then opening else closing) = closing
  rcases splitLines value with _ | ⟨_, _ | ⟨second, rest⟩⟩
  · rfl
  · rfl
  · have hlast : ((second :: rest).map hide).getLastD "" = hide ((second :: rest).getLastD "") := by
      simp only [List.getLastD_eq_getLast?, List.getLast?_map]
      cases (second :: rest).getLast? <;> rfl
    have hmiddle : ((second :: rest).map hide).dropLast = (second :: rest).dropLast.map hide :=
      (List.map_dropLast ..).symm
    rw [List.map_cons] at hlast hmiddle
    simp only [List.map_cons, List.map_append, List.map_map, hlast, hmiddle]
    simp [Label.hidden, Function.comp_def]

/-! ### Trees -/

@[simp]
theorem Js.isTruthy_masked (j : Js) : j.masked.isTruthy = j.isTruthy := by
  cases j with
  | json _ value => cases value <;> rfl
  | exportDefault _ value => cases value <;> rfl
  | _ => rfl

@[simp]
theorem Js.isAbsent_masked (j : Js) : j.masked.isAbsent = j.isAbsent := by
  cases j with
  | json _ value => cases value <;> rfl
  | exportDefault _ value => cases value <;> rfl
  | _ => rfl

@[simp]
theorem Js.slot_masked (j : Js) : j.masked.slot = j.slot := by
  cases j with
  | declare _ d movable => cases d <;> cases movable <;> rfl
  | json _ value => cases value <;> rfl
  | exportDefault _ value => cases value <;> rfl
  | _ => rfl

theorem flattenOnce_masked (js : List Js) : flattenOnce (js.map Js.masked) = (flattenOnce js).map Js.masked := by
  refine flattenOnce_map (fun j => ?_) js
  cases j with
  | statements => simp [flattenOnce]
  | json _ value => cases value <;> rfl
  | exportDefault _ value => cases value <;> rfl
  | _ => rfl

/-- The layouts of a tree and of the tree without the brackets of verbatim text differ in brackets only. -/
def Js.KeepsHidden (j : Js) : Prop :=
  j.masked.items.map Item.hidden = j.items.map Item.hidden

variable {o : Origin}

theorem hidden_import (i : Import) : (i.masked.items o).map Item.hidden = (i.items o).map Item.hidden := by
  cases i <;> simp [Import.masked, Import.items]

theorem hidden_exported (names : List Js) : (itemsEach (names.map maskedName)).map (List.map Item.hidden) =
    (itemsEach names).map (List.map Item.hidden) := by
  simp only [itemsEach_eq_map, List.map_map]
  refine List.map_congr_left fun j _ => ?_
  cases j with
  | text => simp [maskedName, Js.items]
  | _ => rfl

theorem hidden_exportDefault {value : Js} (h : value.KeepsHidden) : (Js.exportDefault o value).KeepsHidden := by
  by_cases htext : ∃ s, value = .text s
  · obtain ⟨_, rfl⟩ := htext
    simp [Js.KeepsHidden, Js.items]
  · have hmasked : (Js.exportDefault o value).masked = .exportDefault o value.masked := by
      cases value with
      | text s => exact absurd ⟨s, rfl⟩ htext
      | _ => rfl
    rw [Js.KeepsHidden] at h
    rw [Js.KeepsHidden, hmasked, Js.items, Js.items]
    simp [h]

attribute [local simp] maskedAll_eq_map map_separated hidden_block hidden_import hidden_exported itemsAll_congr
  itemsEach_congr pairItems_map_congr testItems_map_congr declarations_map_congr Label.hidden in
theorem Js.hidden_items (j : Js) : j.KeepsHidden := by
  induction j using Js.parts_induction with | step j ih
  simp only [Js.KeepsHidden] at ih
  have hparams (o : Origin) := @parameters_congr _ Js.masked Item.hidden o o (by simp +contextual)
  cases j
  case json o value => cases value <;> simp [Js.KeepsHidden, Js.items, Json.render]
  case statements o es =>
    have harrange := arrange_congr Js.slot_masked (flattenOnce_masked es) fun k hk => ih k (by simp [hk])
    have hlines (xss : List (List Item)) : (xss.flatMap (·.map (o.toLine 0 true))).map Item.hidden =
          (xss.map (List.map Item.hidden)).flatMap (·.map (o.toLine 0 true)) := by
      simp [List.map_flatMap, List.flatMap_map, Function.comp_def]
    rw [Js.KeepsHidden, Js.masked, maskedAll_eq_map, Js.items, Js.items, hlines, hlines, harrange]
  case exportDefault o e => exact hidden_exportDefault (ih e (by simp))
  case literal o value | comment o value =>
    have hlines (items : List Item) : (items.map (o.toLine 0 false)).map Item.hidden =
        (items.map Item.hidden).map (o.toLine 0 false) := by
      simp [Function.comp_def]
    rw [Js.KeepsHidden, Js.masked, Js.items, Js.items, hlines, hlines, hidden_multiLine, hidden_multiLine, hide_hide]
  case augAssign o target sign value =>
    have hlabel := congrArg Item.joinAll (ih target (by simp))
    rw [joinAll_map_hidden, joinAll_map_hidden] at hlabel
    simp_all [Js.KeepsHidden, Js.items]
  case func o f given es fs e gs =>
    simp only [Js.parts, List.forall_mem_cons, List.forall_mem_append] at ih
    have hparams := hparams o ih.2.1.1 ih.2.2 ih.1
    rw [Js.KeepsHidden, Js.masked, Js.items.eq_def, Js.items.eq_def]
    dsimp only
    split <;> simp +contextual [hparams, ih]
  case member o m static given es fs e gs =>
    simp only [Js.parts, List.forall_mem_cons, List.forall_mem_append] at ih
    have hparams := hparams o ih.2.1.1 ih.2.2 ih.1
    cases static <;> simp +contextual [Js.KeepsHidden, Js.items, hparams, ih]
  all_goals
    simp only [Js.parts, List.forall_mem_cons, List.forall_mem_append] at ih
    simp +contextual [Js.KeepsHidden, Js.items, apply_ite (List.map _), ih]

end Transpiler.Script
