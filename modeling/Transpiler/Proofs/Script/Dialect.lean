import Transpiler.Proofs.Script.Hoisting
import Transpiler.Proofs.Script.Traced
import Transpiler.Script.Check

/-!
# Trees of the two dialects

A tree that is built with ES6 can be lowered to the one that is built without it: its nodes name the
other dialect, and three functions have other names (`Js.lower`). The layout of the two differs at
most in the words on its lines, and not at all if only the dialect changes (`Js.view_items`). A tree
can be written if the lowered one can, since ES6 reserves no further words (`Js.check_of_lower`).
-/

namespace Transpiler.Script

variable {j obj : Js} {field word : String} {α : Type} {vs : List Verdict} {js : List Js}

inductive Lowering where
  | same
  | dialect
  | functions
  deriving DecidableEq

variable {c : Lowering} {keep : Bool} {o : Origin}

def Origin.lower (c : Lowering) (o : Origin) : Origin :=
  match c with
  | .same => o
  | _ => { o with settings := o.settings.map fun s => { s with es6 := false } }

@[simp]
theorem Origin.source_lower (o : Origin) : (o.lower c).source = o.source := by
  cases c <;> rfl

@[simp]
theorem Origin.isMapped_lower (o : Origin) : (o.lower c).isMapped = o.isMapped := by
  cases c <;> rcases o with ⟨source, _ | s⟩ <;> rfl

def es5Function? (o : Origin) (obj : Js) (field : String) : Option Js :=
  match obj with
  | .text s =>
    if s = "Number" ∧ (field = "parseInt" ∨ field = "parseFloat") then some (.name o (.text field))
    else if s = "_pj" ∧ field = "in_es6" then some (.dot o (.text "_pj") "_in")
    else none
  | _ => none

/-- A field, or the function that stands for it. Only a node that no part of the source was compiled
to is such a function. -/
def lowerDot (c : Lowering) (o : Origin) (obj : Js) (field : String) : Js :=
  if c = .functions ∧ o.source = none then (es5Function? o obj field).getD (.dot o obj field)
  else .dot o obj field

mutual
def Js.lower (c : Lowering) : Js → Js
  | .bare v => .bare v
  | .text s => .text s
  | .name o id => .name (o.lower c) (id.lower c)
  | .num o digits => .num (o.lower c) digits
  | .json o value => .json (o.lower c) value
  | .atom o a => .atom (o.lower c) a
  | .op o s => .op (o.lower c) s
  | .paren o e => .paren (o.lower c) (e.lower c)
  | .assign o left right => .assign (o.lower c) (left.lower c) (right.lower c)
  | .ifExp o test body orelse => .ifExp (o.lower c) (test.lower c) (body.lower c) (orelse.lower c)
  | .call o operator func args kwargs =>
    .call (o.lower c) operator (func.lower c) (lowerAll c args) (kwargs.lower c)
  | .dot o obj field => lowerDot c (o.lower c) (obj.lower c) field
  | .subscript o obj key => .subscript (o.lower c) (obj.lower c) (key.lower c)
  | .keySubscript o key => .keySubscript (o.lower c) (key.lower c)
  | .binOp o left op right => .binOp (o.lower c) (left.lower c) (op.lower c) (right.lower c)
  | .tests o conj ops lefts rights =>
    .tests (o.lower c) (conj.lower c) (lowerAll c ops) (lowerAll c lefts) (lowerAll c rights)
  | .unaryOp o op right => .unaryOp (o.lower c) (op.lower c) (right.lower c)
  | .tagged o value tag => .tagged (o.lower c) value (tag.lower c)
  | .template o value => .template (o.lower c) value
  | .literal o value => .literal (o.lower c) value
  | .dict o keys values => .dict (o.lower c) (lowerAll c keys) (lowerAll c values)
  | .list o elts => .list (o.lower c) (lowerAll c elts)
  | .marked o m value => .marked (o.lower c) m (value.lower c)
  | .statements o items => .statements (o.lower c) (lowerAll c items)
  | .exprStmt o value => .exprStmt (o.lower c) (value.lower c)
  | .declare o d movable keys values => .declare (o.lower c) d movable keys (lowerAll c values)
  | .augAssign o target op value =>
    .augAssign (o.lower c) (target.lower c) (op.lower c) (value.lower c)
  | .ret o value => .ret (o.lower c) (value.lower c)
  | .jump o j => .jump (o.lower c) j
  | .command o d value => .command (o.lower c) d (value.lower c)
  | .ifStmt o test body orelse =>
    .ifStmt (o.lower c) (test.lower c) (lowerAll c body) (lowerAll c orelse)
  | .whileStmt o test body => .whileStmt (o.lower c) (test.lower c) (lowerAll c body)
  | .forStmt o left test right body =>
    .forStmt (o.lower c) (left.lower c) (test.lower c) (right.lower c) (lowerAll c body)
  | .forEach o each target source body =>
    .forEach (o.lower c) each (target.lower c) (source.lower c) (lowerAll c body)
  | .tryStmt o body target catchBody finallyBody =>
    .tryStmt (o.lower c) (lowerAll c body) (target.lower c) (lowerAll c catchBody) (lowerAll c finallyBody)
  | .func o f name args body rest kwargs =>
    .func (o.lower c) f name (lowerAll c args) (lowerAll c body) (rest.lower c) (lowerAll c kwargs)
  | .classDef o name superclass members =>
    .classDef (o.lower c) (name.lower c) (superclass.lower c) (lowerAll c members)
  | .member o m static name args body rest kwargs =>
    .member (o.lower c) m static name (lowerAll c args) (lowerAll c body) (rest.lower c) (lowerAll c kwargs)
  | .importOf o i => .importOf (o.lower c) i
  | .exportNames o names => .exportNames (o.lower c) (lowerAll c names)
  | .exportDefault o value => .exportDefault (o.lower c) (value.lower c)
  | .pass o => .pass (o.lower c)
  | .comment o value => .comment (o.lower c) value

def lowerAll (c : Lowering) : List Js → List Js
  | [] => []
  | j :: rest => j.lower c :: lowerAll c rest
end

theorem lowerAll_eq_map (c : Lowering) (js : List Js) : lowerAll c js = js.map (Js.lower c) := by
  induction js with
  | nil => rfl
  | cons _ _ ih => rw [lowerAll, ih, List.map_cons]

theorem lowerDot_cases (c : Lowering) (o : Origin) (obj : Js) (field : String) :
    lowerDot c o obj field = .dot o obj field ∨ c = .functions ∧
        (obj = .text "Number" ∧ (field = "parseInt" ∨ field = "parseFloat") ∧
            lowerDot c o obj field = .name o (.text field) ∨
          obj = .text "_pj" ∧ field = "in_es6" ∧
            lowerDot c o obj field = .dot o (.text "_pj") "_in") := by
  unfold lowerDot
  by_cases hc : c = .functions ∧ o.source = none
  · rw [if_pos hc]
    unfold es5Function?
    split
    · split_ifs with hnumber hmember
      · exact .inr ⟨hc.1, .inl ⟨by rw [hnumber.1], hnumber.2, rfl⟩⟩
      · exact .inr ⟨hc.1, .inr ⟨by rw [hmember.1], hmember.2, rfl⟩⟩
      · exact .inl rfl
    · exact .inl rfl
  · rw [if_neg hc]
    exact .inl rfl

@[simp]
theorem lowerDot_eq_dot (h : o.source ≠ none ∨ obj.isNode = true ∨ field ∉ ["parseInt", "parseFloat", "in_es6"]) :
    lowerDot c o obj field = .dot o obj field := by
  unfold lowerDot
  split
  next hc =>
    rw [es5Function?.eq_def]
    cases obj
    case text s =>
      have hfield : field ≠ "parseInt" ∧ field ≠ "parseFloat" ∧ field ≠ "in_es6" := by
        simpa [hc.2, Js.isNode] using h
      simp [hfield]
    all_goals rfl
  · rfl

/-! ### Lowered trees have the same form -/

theorem apply_lowerDot (f : Js → α) {a : α} (hdot : ∀ obj field, f (.dot o obj field) = a)
    (hname : ∀ s, f (.name o (.text s)) = a) (obj : Js) (field : String) :
    f (lowerDot c o obj field) = a := by
  rcases lowerDot_cases c o obj field with h | ⟨-, ⟨-, -, h⟩ | ⟨-, -, h⟩⟩
  · rw [h, hdot]
  · rw [h, hname]
  · rw [h, hdot]

@[simp]
theorem Js.isNode_lower (j : Js) : (j.lower c).isNode = j.isNode := by
  cases j
  case dot => exact apply_lowerDot isNode (fun _ _ => rfl) (fun _ => rfl) _ _
  all_goals simp only [Js.lower, Js.isNode]

@[simp]
theorem Js.isAbsent_lower (j : Js) : (j.lower c).isAbsent = j.isAbsent := by
  cases j
  case dot => exact apply_lowerDot isAbsent (fun _ _ => rfl) (fun _ => rfl) _ _
  all_goals simp only [Js.lower, Js.isAbsent]

@[simp]
theorem Js.isTruthy_lower (j : Js) : (j.lower c).isTruthy = j.isTruthy := by
  cases j
  case dot => exact apply_lowerDot isTruthy (fun _ _ => rfl) (fun _ => rfl) _ _
  all_goals simp only [Js.lower, Js.isTruthy]

@[simp]
theorem Js.slot_lower (j : Js) : (j.lower c).slot = j.slot := by
  cases j
  case dot => exact apply_lowerDot slot (fun _ _ => rfl) (fun _ => rfl) _ _
  case declare o d movable keys values => cases d <;> cases movable <;> rfl
  all_goals simp only [Js.lower, Js.slot]

theorem Js.lower_same (j : Js) : j.lower .same = j := by
  induction j using Js.parts_induction with | step j ih
  have hall (js : List Js) (h : ∀ k ∈ js, k.lower .same = k) : lowerAll .same js = js := by
    rw [lowerAll_eq_map, List.map_congr_left h, List.map_id']
  cases j
  all_goals
    simp only [Js.parts, List.forall_mem_cons, List.forall_mem_append] at ih
    simp +contextual [Js.lower, Origin.lower, lowerDot, hall, ih]

/-! ### What is kept of a layout -/

/-- What is kept of the content of a line: whether it is a group, and its words if they are kept. -/
inductive Shown where
  | piece (isGroup : Bool) (text : String)
  | bare (v : Scalar)

inductive View where
  | line (mapped : Bool) (indent : Nat) (delim : Bool) (content : Shown)
  | loose (content : Shown)

def kept (keep : Bool) (s : String) : String :=
  if keep then s else ""

def Content.shown (keep : Bool) : Content → Shown
  | .piece p => .piece p.isGroup (kept keep p.toString)
  | .bare v => .bare v

def Item.view (keep : Bool) : Item → View
  | .line l => .line l.origin.isMapped l.indent l.delim (l.content.shown keep)
  | i => .loose (i.toContent.shown keep)

def Shown.text : Shown → String
  | .piece _ s => s
  | .bare v => v.text

def View.text : View → String
  | .line _ indent delim content =>
    let text := content.text ++ (if delim then ";" else "")
    (if Text.allBlank text then "" else margin indent) ++ text ++ "\n"
  | .loose content => content.text

theorem Content.text_shown (content : Content) : (content.shown true).text = content.toString := by
  cases content <;> rfl

theorem Item.text_view (i : Item) : (i.view true).text = i.toString := by
  cases i with
  | line => simp [Item.view, View.text, Content.text_shown, Item.toString, Line.toString]
  | piece => rfl
  | bare => rfl

def View.joined (keep : Bool) (vs : List View) : String :=
  kept keep (String.join (vs.map View.text))

theorem Piece.joinAll_eq_join (ps : List Piece) : joinAll ps = String.join (ps.map toString) := by
  induction ps with
  | nil => rfl
  | cons _ _ ih => simp [joinAll, ih]

theorem Item.toString_toPiece (i : Item) : i.toPiece.toString = i.toString := by
  cases i <;> rfl

theorem kept_joinAll (keep : Bool) (items : List Item) : kept keep (Piece.joinAll (items.map Item.toPiece)) =
    View.joined keep (items.map (Item.view keep)) := by
  cases keep with
  | false => rfl
  | true =>
    simp [kept, View.joined, Piece.joinAll_eq_join, Function.comp_def, Item.toString_toPiece, Item.text_view]

def View.part (keep : Bool) : List View → View
  | [.line _ _ _ content] => .loose content
  | vs => .loose (.piece true (View.joined keep vs))

@[simp]
theorem view_part (o : Origin) (label : Label) (items : List Item) :
    (o.part label items).view keep = View.part keep (items.map (Item.view keep)) := by
  have hgroup : (Item.piece (.group o label (items.map Item.toPiece))).view keep =
      .loose (.piece true (View.joined keep (items.map (Item.view keep)))) := by
    rw [← kept_joinAll]
    rfl
  unfold Origin.part
  split
  next l => rcases hl : l.content with p | v <;> simp [Item.view, View.part, Item.ofContent, Item.toContent, hl]
  next hline =>
    rw [hgroup]
    rcases items with _ | ⟨i, _ | ⟨_, _⟩⟩
    · rfl
    · cases i with
      | line l => exact absurd rfl (hline l)
      | piece => rfl
      | bare => rfl
    · cases i <;> rfl

@[simp]
theorem view_lineOf (o : Origin) (delim : Bool) (items : List Item) :
    (o.lineOf delim items).view keep = .line o.isMapped 0 delim
      (.piece true (View.joined keep (items.map (Item.view keep)))) := by
  rw [← kept_joinAll]
  rfl

@[simp]
theorem view_textLine (o : Origin) (delim : Bool) (s : String) :
    (o.textLine delim s).view keep = .line o.isMapped 0 delim (.piece false (kept keep s)) :=
  rfl

@[simp]
theorem view_str (s : String) : (str s).view keep = .loose (.piece false (kept keep s)) :=
  rfl

def View.toLine (mapped : Bool) (indent : Nat) (delim : Bool) : View → View
  | .line mapped' indent' delim' content => .line mapped' (indent' + indent) delim' content
  | .loose content => .line mapped indent delim content

@[simp]
theorem view_toLine (o : Origin) (indent : Nat) (delim : Bool) (i : Item) :
    (o.toLine indent delim i).view keep = (i.view keep).toLine o.isMapped indent delim := by
  cases i <;> rfl

@[simp]
theorem view_multiLine_lower (o : Origin) (opening closing pad value : String) :
    ((o.lower c).multiLine opening closing pad value).map (Item.view keep) =
      (o.multiLine opening closing pad value).map (Item.view keep) := by
  unfold Origin.multiLine
  dsimp only
  generalize (if opening != "" && closing == "" then opening else closing) = closing
  rcases Text.splitLines value with _ | ⟨first, _ | ⟨second, rest⟩⟩ <;> simp [Function.comp_def]

theorem map_separated {β : Type} (g : α → β) (sep : List α) (xss : List (List α)) :
    (separated sep xss).map g = separated (sep.map g) (xss.map (List.map g)) := by
  fun_induction separated sep xss with
  | case1 => rfl
  | case2 => rfl
  | case3 _ rest hne ih =>
    obtain ⟨_, _, rfl⟩ := List.exists_cons_of_ne_nil hne
    simp [ih, separated]

section

variable {β : Type} {g : Item → β} {f : Js → Js} {es fs gs : List Js}

theorem itemsAll_congr (h : ∀ j ∈ es, (f j).items.map g = j.items.map g) :
    (itemsAll (es.map f)).map g = (itemsAll es).map g := by
  simp only [itemsAll_eq_flatMap, List.flatMap_map, List.map_flatMap]
  exact List.flatMap_congr h

theorem itemsEach_congr (h : ∀ j ∈ es, (f j).items.map g = j.items.map g) :
    (itemsEach (es.map f)).map (List.map g) = (itemsEach es).map (List.map g) := by
  simp only [itemsEach_eq_map, List.map_map]
  exact List.map_congr_left h

section

variable (he : ∀ j ∈ es, (f j).items.map g = j.items.map g) (hf : ∀ j ∈ fs, (f j).items.map g = j.items.map g)

include he hf

theorem pairItems_map_congr : (pairItems (itemsEach (es.map f)) (itemsEach (fs.map f))).map (List.map g) =
    (pairItems (itemsEach es) (itemsEach fs)).map (List.map g) := by
  induction es generalizing fs with
  | nil => rfl
  | cons _ _ ih =>
    cases fs with
    | nil => rfl
    | cons =>
      rw [List.forall_mem_cons] at he hf
      simp [itemsEach, pairItems, he.1, hf.1, ih he.2 hf.2]

theorem testItems_map_congr (hg : ∀ j ∈ gs, (f j).items.map g = j.items.map g) :
    (testItems (itemsEach (es.map f)) (itemsEach (fs.map f)) (itemsEach (gs.map f))).map (List.map g) =
      (testItems (itemsEach es) (itemsEach fs) (itemsEach gs)).map (List.map g) := by
  induction es generalizing fs gs with
  | nil => rfl
  | cons _ _ ih =>
    cases fs with
    | nil => rfl
    | cons =>
      cases gs with
      | nil => rfl
      | cons =>
        rw [List.forall_mem_cons] at he hf hg
        simp [itemsEach, testItems, he.1, hf.1, hg.1, ih he.2 hf.2 hg.2]

end

theorem declarations_map_congr (keys : List String) (habsent : ∀ j, (f j).isAbsent = j.isAbsent)
    (h : ∀ j ∈ es, (f j).items.map g = j.items.map g) :
    (declarations keys (valueItems (es.map f))).map (List.map g) = (declarations keys (valueItems es)).map (List.map g) := by
  induction es generalizing keys with
  | nil => rfl
  | cons _ _ ih =>
    cases keys with
    | nil => rfl
    | cons _ keys =>
      rw [List.forall_mem_cons] at h
      simp only [List.map_cons, valueItems, declarations, habsent, ih keys h.2]
      split <;> simp [h.1]

theorem parameters_congr (f : Js → Js) (g : Item → β) (o o' : Origin)
    (hpart : ∀ xs xs', xs.map g = xs'.map g → g (o.part .none xs) = g (o'.part .none xs')) {es gs : List Js} {e : Js}
    (hes : ∀ j ∈ es, (f j).items.map g = j.items.map g) (hgs : ∀ j ∈ gs, (f j).items.map g = j.items.map g)
    (he : (f e).items.map g = e.items.map g) :
    (parameters o (itemsEach (es.map f)) (if e.isTruthy then some (f e).items else none) (itemsEach (gs.map f))).map g =
      (parameters o' (itemsEach es) (if e.isTruthy then some e.items else none) (itemsEach gs)).map g := by
  have hempty : (itemsEach (gs.map f)).isEmpty = (itemsEach gs).isEmpty := by simp [itemsEach_eq_map]
  have hnamed := hpart ([str "\x7b"] ++ separated [str ", "] (itemsEach (gs.map f)) ++ [str "\x7d=\x7b\x7d"])
    ([str "\x7b"] ++ separated [str ", "] (itemsEach gs) ++ [str "\x7d=\x7b\x7d"])
    (by simp [map_separated, itemsEach_congr hgs])
  have hrest : (if e.isTruthy then some (f e).items else none).toList.map (List.map g) =
      (if e.isTruthy then some e.items else none).toList.map (List.map g) := by
    split <;> simp [he]
  simp only [parameters, hempty, List.map_append, map_separated, itemsEach_congr hes, hrest]
  split
  · rfl
  · simp only [List.map_cons, List.map_nil, hnamed]

theorem arrange_congr (hslot : ∀ j, (f j).slot = j.slot) (hflat : flattenOnce (es.map f) = (flattenOnce es).map f)
    (h : ∀ j ∈ flattenOnce es, (f j).items.map g = j.items.map g) :
    (arrange (slottedItems (es.map f))).map (List.map g) = (arrange (slottedItems es)).map (List.map g) := by
  rw [← arrange_map, ← arrange_map, slottedItems_eq_map, slottedItems_eq_map, hflat]
  simp only [List.map_map]
  exact congrArg arrange (List.map_congr_left fun j hj => by simp [h j hj, hslot])

end

theorem insertImport_perm (n : String × Option String) (ns : List (String × Option String)) :
    (insertImport n ns).Perm (n :: ns) := by
  induction ns with
  | nil => exact .refl _
  | cons m rest ih =>
    rw [insertImport]
    split
    · exact .refl _
    · exact (ih.cons m).trans (.swap n m rest)

theorem sortImports_perm (ns : List (String × Option String)) : (sortImports ns).Perm ns := by
  have hfold (acc : List (String × Option String)) :
      (ns.foldl (fun acc n => insertImport n acc) acc).Perm (acc ++ ns) := by
    induction ns generalizing acc with
    | nil => simp
    | cons n rest ih =>
      refine (ih _).trans (((insertImport_perm n acc).append_right rest).trans ?_)
      exact List.perm_middle.symm
  exact hfold []

theorem view_import (i : Import) : (i.items (o.lower c)).map (Item.view keep) = (i.items o).map (Item.view keep) := by
  cases i with
  | depend => simp [Import.items]
  | named =>
    simp only [Import.items, List.map_cons, List.map_nil, view_lineOf, Origin.isMapped_lower,
      List.map_append, map_separated, List.map_map]
    congr 7
    refine List.map_congr_left fun n _ => ?_
    dsimp only [Function.comp_apply]
    split
    · split <;> simp
    · simp
  | star => simp [Import.items]
  | default => simp [Import.items]

theorem flattenOnce_map {f : Js → Js} (h : ∀ j, flattenOnce [f j] = (flattenOnce [j]).map f) (js : List Js) :
    flattenOnce (js.map f) = (flattenOnce js).map f := by
  have hcons (j : Js) (rest : List Js) : flattenOnce (j :: rest) = flattenOnce [j] ++ flattenOnce rest := by
    simp only [flattenOnce, List.flatMap_cons, List.flatMap_nil, List.append_nil]
  induction js with
  | nil => rfl
  | cons j _ ih => rw [List.map_cons, hcons, hcons j, h, ih, List.map_append]

theorem flattenOnce_lower (js : List Js) : flattenOnce (js.map (Js.lower c)) = (flattenOnce js).map (Js.lower c) := by
  refine flattenOnce_map (fun j => ?_) js
  cases j
  case statements o inner => simp [Js.lower, lowerAll_eq_map, flattenOnce]
  case dot o obj field =>
    rw [Js.lower]
    rcases lowerDot_cases c (o.lower c) (obj.lower c) field with h | ⟨-, ⟨-, -, h⟩ | ⟨-, -, h⟩⟩ <;>
      simp [Js.lower, h, flattenOnce]
  all_goals simp [Js.lower, flattenOnce]

theorem view_block (o : Origin) (items : List Item) : (o.block items).map (Item.view keep) =
    (items.map (Item.view keep)).map (View.toLine o.isMapped 1 true) := by
  simp [Origin.block, Function.comp_def]

def Js.KeepsView (c : Lowering) (keep : Bool) (j : Js) : Prop :=
  (j.lower c).items.map (Item.view keep) = j.items.map (Item.view keep)

theorem view_lines (delim : Bool) (items : List Item) : (items.map (o.toLine 0 delim)).map (Item.view keep) =
    (items.map (Item.view keep)).map (View.toLine o.isMapped 0 delim) := by
  simp [Function.comp_def]

attribute [local simp] Js.lower lowerAll_eq_map map_separated view_block view_import itemsAll_congr itemsEach_congr
  pairItems_map_congr testItems_map_congr declarations_map_congr in
theorem Js.view_items (hkeep : keep = true → c ≠ .functions) (j : Js) : j.KeepsView c keep := by
  induction j using Js.parts_induction with | step j ih
  simp only [Js.KeepsView] at ih ⊢
  have hparams (o : Origin) := @parameters_congr _ (Js.lower c) (Item.view keep) (o.lower c) o (by simp +contextual)
  cases j
  case literal o value | comment o value =>
    simp only [Js.lower, Js.items, view_lines, view_multiLine_lower, Origin.isMapped_lower]
  case dot o e field =>
    have he := ih e (by simp)
    rw [Js.lower]
    rcases lowerDot_cases c (o.lower c) (e.lower c) field with h | ⟨hc, h⟩
    · simp [h, Js.items, he]
    · -- the words differ, and they are not kept
      obtain rfl : keep = false := by
        cases keep with
        | false => rfl
        | true => exact absurd hc (hkeep rfl)
      rcases h with ⟨hobj, -, h⟩ | ⟨hobj, -, h⟩
      all_goals
        rw [hobj, Js.items] at he
        simp [h, Js.items, ← he, View.part, View.joined, kept]
  case statements o es =>
    have harrange := arrange_congr (fun j => j.slot_lower) (flattenOnce_lower es) fun k hk => ih k (by simp [hk])
    have hlines (o : Origin) (xss : List (List Item)) : (xss.flatMap (·.map (o.toLine 0 true))).map (Item.view keep) =
          (xss.map (List.map (Item.view keep))).flatMap (·.map (View.toLine o.isMapped 0 true)) := by
      simp [List.map_flatMap, List.flatMap_map, Function.comp_def]
    rw [Js.lower, lowerAll_eq_map, Js.items, Js.items, hlines, hlines, harrange, Origin.isMapped_lower]
  case func o f given es fs e gs =>
    simp only [Js.parts, List.forall_mem_cons, List.forall_mem_append] at ih
    have hparams := hparams o ih.2.1.1 ih.2.2 ih.1
    rw [Js.lower, Js.items.eq_def, Js.items.eq_def]
    dsimp only
    split <;> simp +contextual [hparams, ih]
  case member o m static given es fs e gs =>
    simp only [Js.parts, List.forall_mem_cons, List.forall_mem_append] at ih
    have hparams := hparams o ih.2.1.1 ih.2.2 ih.1
    cases static <;> simp +contextual [Js.items, hparams, ih]
  all_goals
    simp only [Js.parts, List.forall_mem_cons, List.forall_mem_append] at ih
    simp +contextual [Js.items, apply_ite (List.map _), ih]

theorem joinAll_of_view {items items' : List Item} (h : items.map (Item.view true) = items'.map (Item.view true)) :
    Item.joinAll items = Item.joinAll items' := by
  have hjoin (items : List Item) : Item.joinAll items = String.join ((items.map (Item.view true)).map View.text) := by
    simp [Item.joinAll, Function.comp_def, Item.text_view]
  rw [hjoin, hjoin, h]

def View.isMappable : View → Bool
  | .line mapped _ _ (.bare _) => !mapped
  | .loose (.bare _) => false
  | _ => true

theorem isOk_fragments? (keep : Bool) (i : Item) : i.fragments?.isOk = (i.view keep).isMappable := by
  cases i with
  | piece => rfl
  | bare => rfl
  | line l =>
    obtain ⟨o, _, _, content⟩ := l
    rcases content with (s | ⟨o', label, parts⟩) | v <;>
      cases hmapped : o.isMapped <;>
        simp [Item.fragments?, Item.view, Content.shown, View.isMappable, hmapped, Except.isOk, Except.toBool]

/-! ### What can be written -/

theorem firstFault_eq_passed_iff : firstFault vs = passed ↔ ∀ v ∈ vs, v = passed := by
  induction vs with
  | nil => simp [firstFault]
  | cons v _ ih =>
    cases v with
    | error => simp [firstFault, passed]
    | ok => simpa [firstFault, passed] using ih

theorem firstFault_nil : firstFault [] = passed :=
  rfl

theorem firstFault_cons {v : Verdict} : firstFault (v :: vs) = passed ↔ v = passed ∧ firstFault vs = passed := by
  rw [firstFault_eq_passed_iff, List.forall_mem_cons, firstFault_eq_passed_iff]

theorem firstFault_append {ws : List Verdict} :
    firstFault (vs ++ ws) = passed ↔ firstFault vs = passed ∧ firstFault ws = passed := by
  simp only [firstFault_eq_passed_iff, List.forall_mem_append]

theorem checkEach_eq_map (js : List Js) : checkEach js = js.map Js.check := by
  induction js with
  | nil => rfl
  | cons _ _ ih => rw [checkEach, ih, List.map_cons]

theorem forall_mem_inTurns {as bs : List Verdict} :
    (∀ v ∈ inTurns as bs, v = passed) ↔ ∀ p ∈ as.zip bs, p.1 = passed ∧ p.2 = passed := by
  fun_induction inTurns as bs with
  | case1 _ _ _ _ ih => simp [ih, and_assoc]
  | case2 as bs h =>
    rcases as with _ | ⟨a, as⟩
    · simp
    · rcases bs with _ | ⟨b, bs⟩
      · simp
      · exact absurd rfl (h a as b bs rfl)

theorem statementChecks_eq_map (js : List Js) :
    statementChecks js = js.map fun j => (j.slot, firstFault [checkNode j, j.check]) := by
  induction js with
  | nil => rfl
  | cons _ _ ih => rw [statementChecks, ih, List.map_cons]

theorem slottedChecks_eq_map (js : List Js) : slottedChecks js =
    (flattenOnce js).map fun j => (j.slot, firstFault [checkNode j, j.check]) := by
  induction js with
  | nil => rfl
  | cons j _ ih =>
    rw [flattenOnce, List.flatMap_cons, List.map_append]
    cases j
    case statements o inner => rw [slottedChecks, statementChecks_eq_map, ih]; rfl
    all_goals
      rw [slottedChecks, ih]
      · rfl
      · simp

theorem mem_arrange_of_mem {xs : List (Slot × α)} {x : Slot × α} (h : x ∈ xs) : x.2 ∈ arrange xs := by
  have hsplit (ys : List (Slot × α)) (p : Slot × α → Bool) (hy : x ∈ ys) : x ∈ ys.takeWhile p ∨ x ∈ ys.dropWhile p := by
    rwa [← List.mem_append, List.takeWhile_append_dropWhile]
  refine List.mem_map_of_mem ?_
  simp only [List.mem_append]
  by_cases himport : x.1 = .importing
  · exact .inl (.inl (.inr (List.mem_filter.mpr ⟨h, by simp [himport]⟩)))
  · by_cases hvar : x.1 = .variable
    · exact .inl (.inr (List.mem_filter.mpr ⟨h, by simp [hvar]⟩))
    · have hother := List.mem_filter (p := fun x => x.1 != .importing && x.1 != .variable).mpr
        ⟨h, by simp [himport, hvar]⟩
      rcases hsplit _ (·.1 == .comment) hother with hx | hx
      · exact .inl (.inl (.inl hx))
      · exact .inr hx

theorem check_statements_iff : (Js.statements o js).check = passed ↔
    ∀ j ∈ flattenOnce js, j.isNode = true ∧ j.check = passed := by
  have hone (j : Js) : firstFault [checkNode j, j.check] = passed ↔ j.isNode = true ∧ j.check = passed := by
    rw [firstFault_eq_passed_iff]
    unfold checkNode
    cases j.isNode <;> simp [passed]
  rw [Js.check, firstFault_eq_passed_iff, slottedChecks_eq_map]
  constructor
  · intro h j hj
    exact (hone j).mp (h _ (mem_arrange_of_mem
      (List.mem_map_of_mem (f := fun j => (j.slot, firstFault [checkNode j, j.check])) hj)))
  · intro h _ hv
    obtain ⟨_, hmem⟩ := mem_of_mem_arrange hv
    obtain ⟨j, hj, hpair⟩ := List.mem_map.mp hmem
    cases hpair
    exact (hone j).mpr (h j hj)

theorem isReserved_of_es6 {b : Bool} (h : isReserved b word = true) : isReserved false word = true := by
  simp only [isReserved, Bool.and_eq_true] at h ⊢
  exact ⟨h.1, by simp⟩

theorem Origin.checkWord_of_lower (h : (o.lower c).checkWord word = passed) : o.checkWord word = passed := by
  rcases o with ⟨_, _ | settings⟩
  · cases c <;> exact h
  · have hword : isReserved settings.es6 word = false := by
      by_contra hreserved
      rw [Bool.not_eq_false] at hreserved
      cases c <;> simp [lower, checkWord, hreserved, isReserved_of_es6 hreserved, passed] at h
    simp [checkWord, hword]

theorem isOutput_of_view {i i' : Item} (h : i.view false = i'.view false) : i.isOutput = i'.isOutput := by
  cases i <;> cases i' <;> simp_all [Item.view, Item.isOutput, Content.shown, Item.toContent]

def Js.ChecksAfter (c : Lowering) (j : Js) : Prop :=
  (j.lower c).check = passed → j.check = passed

theorem checkOutput_of_lower {label label' : Label}
    (h : checkOutput ((o.lower c).part label (j.lower c).items) = passed) :
    checkOutput (o.part label' j.items) = passed := by
  have hview : ((o.lower c).part label (j.lower c).items).view false = (o.part label' j.items).view false := by
    have hj : _ = _ := Js.view_items (show false = true → c ≠ .functions by simp) j
    simp [hj]
  simpa [checkOutput, isOutput_of_view hview] using h

theorem check_name_iff {id : Js} : (Js.name o id).check = passed ↔
    (∀ s, id = .text s → o.checkWord s = passed) ∧ id.check = passed ∧ checkOutput (o.part .own id.items) = passed := by
  rw [Js.check.eq_def]
  dsimp only
  rw [firstFault_eq_passed_iff]
  split
  · simp
  next hne => simpa using fun _ _ s hs => absurd hs (hne s)

theorem check_unaryOp_iff {op right : Js} : (Js.unaryOp o op right).check = passed ↔
    (∃ m s, op = .op m s ∧ s.isUnary = true) ∧ right.check = passed := by
  rw [Js.check.eq_def]
  dsimp only
  rw [firstFault_eq_passed_iff]
  cases op
  case op m s => cases hs : s.isUnary <;> simp [expect, passed, Js.check, hs]
  all_goals simp [expect, passed]

theorem Js.lower_eq_op {m : Origin} {s : Operator} (h : j.lower c = .op m s) : ∃ m', j = .op m' s := by
  cases j
  case op => simp_all [Js.lower]
  case dot o obj field =>
    rw [Js.lower] at h
    rcases lowerDot_cases c (o.lower c) (obj.lower c) field with hdot | ⟨-, ⟨-, -, hdot⟩ | ⟨-, -, hdot⟩⟩ <;>
      simp [hdot] at h
  all_goals simp [Js.lower] at h

theorem check_dot_iff : (Js.dot o obj field).check = passed ↔
    isField field = true ∧ o.checkWord field = passed ∧ obj.check = passed := by
  rw [Js.check]
  simp only [firstFault_cons, firstFault_nil, and_true]
  cases h : isField field <;> simp [expect, passed]

theorem check_of_lowerDot (hobj : obj.ChecksAfter c) : (Js.dot o obj field).ChecksAfter c := by
  intro h
  have hfree (word : String) (hword : word ∉ reservedWords) : o.checkWord word = passed := by
    rcases o with ⟨source, _ | settings⟩ <;> simp [Origin.checkWord, isReserved, hword]
  rw [Js.lower] at h
  rcases lowerDot_cases c (o.lower c) (obj.lower c) field with
    hdot | ⟨-, ⟨htext, hfield, -⟩ | ⟨htext, rfl, -⟩⟩
  · rw [hdot, check_dot_iff] at h
    exact check_dot_iff.mpr ⟨h.1, Origin.checkWord_of_lower h.2.1, hobj h.2.2⟩
  · have hobj := hobj (by rw [htext, Js.check])
    rcases hfield with rfl | rfl
    · exact check_dot_iff.mpr ⟨by decide, hfree _ (by decide), hobj⟩
    · exact check_dot_iff.mpr ⟨by decide, hfree _ (by decide), hobj⟩
  · have hobj := hobj (by rw [htext, Js.check])
    exact check_dot_iff.mpr ⟨by decide, hfree _ (by decide), hobj⟩

theorem checkPairs_of_lower {keys values : List Js} (hkeys : ∀ j ∈ keys, j.ChecksAfter c)
    (hvalues : ∀ j ∈ values, j.ChecksAfter c)
    (h : firstFault (inTurns (checkEach (keys.map (Js.lower c))) (checkEach (values.map (Js.lower c)))) = passed) :
    firstFault (inTurns (checkEach keys) (checkEach values)) = passed := by
  simp only [firstFault_eq_passed_iff, forall_mem_inTurns, checkEach_eq_map, List.map_map,
    List.zip_map, List.forall_mem_map, Prod.map_fst, Prod.map_snd] at h ⊢
  rintro ⟨k, v⟩ hp
  obtain ⟨hk, hv⟩ := List.of_mem_zip hp
  exact ⟨hkeys k hk (h _ hp).1, hvalues v hv (h _ hp).2⟩

theorem checkTests_of_lower {lefts ops rights : List Js} (hlefts : ∀ j ∈ lefts, j.ChecksAfter c)
    (hops : ∀ j ∈ ops, j.ChecksAfter c) (hrights : ∀ j ∈ rights, j.ChecksAfter c)
    (h : firstFault (((checkEach (lefts.map (Js.lower c))).zip
      ((checkEach (ops.map (Js.lower c))).zip (checkEach (rights.map (Js.lower c))))).flatMap
        fun (l, op, r) => [l, op, r]) = passed) :
    firstFault (((checkEach lefts).zip ((checkEach ops).zip (checkEach rights))).flatMap
      fun (l, op, r) => [l, op, r]) = passed := by
  simp only [firstFault_eq_passed_iff, checkEach_eq_map, List.map_map, List.zip_map,
    List.flatMap_map, List.forall_mem_flatMap, List.forall_mem_cons, Prod.map_fst, Prod.map_snd] at h ⊢
  rintro ⟨l, op, r⟩ hp
  obtain ⟨hl, hrest⟩ := List.of_mem_zip hp
  obtain ⟨hop, hr⟩ := List.of_mem_zip hrest
  obtain ⟨h1, h2, h3, -⟩ := h _ hp
  exact ⟨hlefts l hl h1, hops op hop h2, hrights r hr h3, by simp⟩

theorem firstFault_checkEach : firstFault (checkEach js) = passed ↔ ∀ j ∈ js, j.check = passed := by
  rw [firstFault_eq_passed_iff, checkEach_eq_map, List.forall_mem_map]

theorem Js.check_of_lower (j : Js) : j.ChecksAfter c := by
  induction j using Js.parts_induction with | step j ih
  cases j
  case name o e =>
    intro h
    rw [Js.lower, check_name_iff] at h
    refine check_name_iff.mpr ⟨?_, ih e (by simp) h.2.1, checkOutput_of_lower h.2.2⟩
    rintro s rfl
    exact Origin.checkWord_of_lower (h.1 s (by rw [Js.lower]))
  case dot o e field => exact check_of_lowerDot (ih e (by simp))
  case unaryOp o e f =>
    intro h
    rw [Js.lower, check_unaryOp_iff] at h
    obtain ⟨⟨_, s, hop, hs⟩, hf⟩ := h
    obtain ⟨m', rfl⟩ := Js.lower_eq_op hop
    exact check_unaryOp_iff.mpr ⟨⟨m', s, rfl, hs⟩, ih f (by simp) hf⟩
  case exprStmt o e =>
    intro h
    simp only [Js.lower, Js.check, firstFault_cons, firstFault_nil, and_true] at h ⊢
    exact ⟨ih e (by simp) h.1, checkOutput_of_lower h.2⟩
  case statements o es =>
    intro h
    rw [Js.lower, check_statements_iff, lowerAll_eq_map, flattenOnce_lower] at h
    refine check_statements_iff.mpr fun j hj => ?_
    have := h _ (List.mem_map_of_mem hj)
    exact ⟨by simpa using this.1, ih j (by simp [hj]) this.2⟩
  all_goals
    simp only [Js.parts, List.forall_mem_cons, List.forall_mem_append] at ih
    intro h
    simp only [Js.lower, Js.check, lowerAll_eq_map, firstFault_cons, firstFault_append, firstFault_nil,
      firstFault_checkEach, List.forall_mem_map, and_true, List.cons_append, List.nil_append, List.length_map,
      checkNode, Js.isNode_lower, List.isEmpty_map] at h ⊢
  case dict o es fs => exact ⟨h.1, checkPairs_of_lower ih.1 ih.2 h.2⟩
  case tests o e es fs gs =>
    exact ⟨h.1, h.2.1, checkTests_of_lower ih.2.1.2 ih.2.1.1 ih.2.2 h.2.2.1, ih.1 h.2.2.2⟩
  case declare o d movable keys es =>
    refine ⟨⟨?_, h.1.2⟩, fun j hj => ih j hj (h.2 j hj)⟩
    rw [firstFault_eq_passed_iff, List.forall_mem_map] at h ⊢
    exact fun key hkey => Origin.checkWord_of_lower (h.1.1 key hkey)
  all_goals
    simp only [Js.ChecksAfter] at ih
    grind [firstFault_cons, firstFault_checkEach]

end Transpiler.Script
