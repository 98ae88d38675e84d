import Transpiler.Proofs.Script.Dialect
import Transpiler.Proofs.Text.Quoted

/-!
# Reading expressions back

The text of an expression made of names, literals, operators, calls, fields and subscripts can be
read in one way only. `readExpr?` reads such a text and is a left inverse of the layout.

The reader goes by the first characters. An operator stands in parentheses of its own, so after an
opening parenthesis there is a sign and its operand, or an operand and then a sign or a question
mark. Calls, fields and subscripts stand behind what they belong to: `readExpr?` reads the head of an
expression and hands it to `readTail?`, which collects them as long as there are any. What a text
means is therefore fixed only together with what follows it, and the statements below say what may
follow.
-/

namespace Transpiler.Script

open Text (escapeChar)

variable {items : List Item} {c close : Char} {field : String} {cs : List Char}

/-! ## The expressions -/

def isWordChar (c : Char) : Bool :=
  isFieldStart c || c.isDigit

def isIdentifier (s : String) : Bool :=
  match s.toList with
  | [] => false
  | c :: rest => isFieldStart c && rest.all isWordChar

/-- The expressions that are read back. Values of an object belong to keys that are texts, one to
each. -/
inductive Operational : Js → Prop
  | name {o : Origin} {s : String} (hword : isIdentifier s = true)
      (hfree : isReserved true s = false) (hatom : s ∉ ["true", "false", "null"]) :
      Operational (.name o (.text s))
  | num {o : Origin} (n : Nat) : Operational (.num o (toString n))
  | string {o : Origin} (s : String) : Operational (.json o (.str s))
  | atom {o : Origin} {a : Atom} (ha : a ≠ .super) : Operational (.atom o a)
  | binOp {o o' : Origin} {s : Operator} {left right : Js} (hs : s.isUnary = false)
      (hleft : Operational left) (hright : Operational right) :
      Operational (.binOp o left (.op o' s) right)
  | unaryOp {o o' : Origin} {s : Operator} {right : Js} (hs : s.isUnary = true)
      (hright : Operational right) : Operational (.unaryOp o (.op o' s) right)
  | ifExp {o : Origin} {test body orelse : Js} (htest : Operational test)
      (hbody : Operational body) (horelse : Operational orelse) :
      Operational (.ifExp o test body orelse)
  | call {o : Origin} {func : Js} {args : List Js} (hfunc : Operational func)
      (hargs : ∀ a ∈ args, Operational a) : Operational (.call o "" func args .absent)
  | dot {o : Origin} {obj : Js} {field : String} (hobj : Operational obj) :
      Operational (.dot o obj field)
  | subscript {o : Origin} {obj key : Js} (hobj : Operational obj) (hkey : Operational key) :
      Operational (.subscript o obj key)
  | list {o : Origin} {elts : List Js} (helts : ∀ e ∈ elts, Operational e) :
      Operational (.list o elts)
  | dict {o : Origin} (keys : List (Origin × String)) {values : List Js}
      (hlength : keys.length = values.length) (hvalues : ∀ v ∈ values, Operational v) :
      Operational (.dict o (keys.map fun k => .json k.1 (.str k.2)) values)

mutual
def Js.unplaced : Js → Js
  | .name _ id => .name default id
  | .num _ digits => .num default digits
  | .json _ value => .json default value
  | .atom _ a => .atom default a
  | .op _ s => .op default s
  | .binOp _ left op right => .binOp default left.unplaced op.unplaced right.unplaced
  | .unaryOp _ op right => .unaryOp default op.unplaced right.unplaced
  | .ifExp _ test body orelse => .ifExp default test.unplaced body.unplaced orelse.unplaced
  | .call _ operator func args kwargs => .call default operator func.unplaced (unplacedAll args) kwargs
  | .dot _ obj field => .dot default obj.unplaced field
  | .subscript _ obj key => .subscript default obj.unplaced key.unplaced
  | .list _ elts => .list default (unplacedAll elts)
  | .dict _ keys values => .dict default (unplacedAll keys) (unplacedAll values)
  | j => j

def unplacedAll : List Js → List Js
  | [] => []
  | j :: rest => j.unplaced :: unplacedAll rest
end

-- the equations are made here once, and not in each of the proofs that use them
attribute [local simp] Js.unplaced

/-! ## The reader -/

def wordNode (word : List Char) : Js :=
  match String.ofList word with
  | "this" => .atom default .this
  | "null" => .atom default .null
  | "true" => .atom default .true
  | "false" => .atom default .false
  | s => if word.all Char.isDigit then .num default s else .name default (.text s)

def binaryOperators : List Operator :=
  [.isIn, .and, .or, .instanceOf, .add, .sub, .mult, .div, .mod, .rShift, .lShift, .bitXor, .bitAnd,
    .bitOr, .strongEq, .strongNotEq, .lt, .ltE, .gt, .gtE]

def readOperator? (cs : List Char) : Option (Operator × List Char) :=
  (binaryOperators.find? fun s => s.symbol.toList == cs.takeWhile (· != ' ')).map fun s =>
    (s, cs.drop (s.symbol.length + 1))

def readSign? : List Char → Option (Operator × List Char)
  | '!' :: rest => some (.not, rest.drop 1)
  | '-' :: rest => some (.neg, rest.drop 1)
  | '~' :: rest => some (.invert, rest.drop 1)
  | cs => if cs.takeWhile isWordChar == "typeof".toList then some (.typeOf, cs.drop 7) else none

def readField (cs : List Char) : String × List Char :=
  let word := cs.takeWhile isWordChar
  match cs.dropWhile isWordChar with
  | '\n' :: rest => (String.ofList (word ++ ['\n']), rest)
  | rest => (String.ofList word, rest)

def skipComma : List Char → List Char
  | ',' :: ' ' :: rest => rest
  | cs => cs

mutual
def readExpr? : Nat → List Char → Option (Js × List Char)
  | 0, _ => none
  | n + 1, '"' :: cs => do
    let (s, rest) ← Json.readString? (cs.length + 1) [] cs
    readTail? n (.json default (.str s)) rest
  | n + 1, '[' :: cs => do
    let (elts, rest) ← readItems? n ']' cs
    readTail? n (.list default elts) rest
  | n + 1, '\x7b' :: cs => do
    let (keys, values, rest) ← readPairs? n cs
    readTail? n (.dict default keys values) rest
  | n + 1, '(' :: cs => do
    let (j, rest) ← readGroup? n cs
    readTail? n j rest
  | n + 1, cs => readTail? n (wordNode (cs.takeWhile isWordChar)) (cs.dropWhile isWordChar)

def readTail? : Nat → Js → List Char → Option (Js × List Char)
  | n + 1, j, '.' :: cs =>
    let (field, rest) := readField cs
    readTail? n (.dot default j field) rest
  | n + 1, j, '(' :: cs => do
    let (args, rest) ← readItems? n ')' cs
    readTail? n (.call default "" j args .absent) rest
  | n + 1, j, '[' :: cs => do
    let (key, rest) ← readExpr? n cs
    readTail? n (.subscript default j key) (rest.drop 1)
  | _, j, cs => some (j, cs)

def readGroup? : Nat → List Char → Option (Js × List Char)
  | 0, _ => none
  | n + 1, cs =>
    match readSign? cs with
    | some (s, rest) => do
      let (right, rest) ← readExpr? n rest
      some (.unaryOp default (.op default s) right, rest.drop 1)
    | none => do
      let (left, rest) ← readExpr? n cs
      match rest with
      | ' ' :: '?' :: ' ' :: rest => do
        let (body, rest) ← readExpr? n rest
        let (orelse, rest) ← readExpr? n (rest.drop 3)
        some (.ifExp default left body orelse, rest.drop 1)
      | _ => do
        let (s, rest) ← readOperator? (rest.drop 1)
        let (right, rest) ← readExpr? n rest
        some (.binOp default left (.op default s) right, rest.drop 1)

def readItems? : Nat → Char → List Char → Option (List Js × List Char)
  | 0, _, _ => none
  | n + 1, close, cs =>
    if cs.head? = some close then some ([], cs.tail)
    else do
      let (j, rest) ← readExpr? n cs
      let (js, rest) ← readItems? n close (skipComma rest)
      some (j :: js, rest)

def readPairs? : Nat → List Char → Option (List Js × List Js × List Char)
  | n + 1, '"' :: cs => do
    let (s, rest) ← Json.readString? (cs.length + 1) [] cs
    let (value, rest) ← readExpr? n (rest.drop 2)
    let (keys, values, rest) ← readPairs? n (skipComma rest)
    some (.json default (.str s) :: keys, value :: values, rest)
  | _, cs => some ([], [], cs.drop 1)
end

/-! ## The texts of the expressions -/

theorem Origin.part_eq_group (o : Origin) (label : Label) (h : ∀ l, items ≠ [.line l]) :
    o.part label items = .piece (.group o label (items.map Item.toPiece)) := by
  rw [part]
  exact h

theorem Origin.toString_part (o : Origin) (label : Label) (h : ∀ l, items ≠ [.line l]) :
    (o.part label items).toString = Item.joinAll items := by
  rw [o.part_eq_group label h, Item.toString, Piece.toString, Piece.joinAll_eq_join, Item.joinAll, List.map_map]
  congr 1
  exact List.map_congr_left fun i _ => Item.toString_toPiece i

theorem cons_str_ne_line {s : String} (l : Line) : str s :: items ≠ [.line l] := by
  simp [str]

theorem append_str_ne_line {s : String} (l : Line) : items ++ [str s] ≠ [.line l] := by
  simp [List.append_eq_singleton_iff, str]

theorem Operational.items_eq_group {j : Js} (h : Operational j) :
    ∃ o label parts, j.items = [.piece (.group o label parts)] := by
  have hpart : ∀ (o : Origin) (label : Label) {items : List Item}, (∀ l, items ≠ [.line l]) →
      ∃ o' label' parts, [o.part label items] = [.piece (.group o' label' parts)] :=
    fun o label _ hitems => ⟨o, label, _, by rw [o.part_eq_group label hitems]⟩
  cases h with
  | dot =>
    refine hpart _ _ fun l => ?_
    rw [show ∀ a b : Item, ∀ xs, xs ++ [a, b] = (xs ++ [a]) ++ [b] by simp]
    exact append_str_ne_line l
  | subscript => exact hpart _ _ (by simp)
  | _ => exact hpart _ _ cons_str_ne_line

theorem Operational.items_ne_line {j : Js} (h : Operational j) (l : Line) : j.items ≠ [.line l] := by
  obtain ⟨_, _, _, hitems⟩ := h.items_eq_group
  simp [hitems]

def Js.chars (j : Js) : List Char :=
  j.render.toList

theorem toList_joinAll_separated (sep : List Item) (each : List (List Item)) :
    (Item.joinAll (separated sep each)).toList =
      separated (Item.joinAll sep).toList (each.map fun items => (Item.joinAll items).toList) := by
  induction each with
  | nil => rfl
  | cons _ rest =>
    cases rest with
    | nil => rfl
    | cons => simp_all [separated]

theorem separated_eq_intercalate {α : Type} (sep : List α) (each : List (List α)) :
    separated sep each = sep.intercalate each := by
  induction each with
  | nil => rfl
  | cons _ rest ih =>
    cases rest with
    | nil => simp [separated]
    | cons => rw [separated, ih, List.intercalate_cons_cons]; simp

@[simp]
theorem toString_str (s : String) : (str s).toString = s :=
  rfl

theorem Js.chars_of_items {j : Js} {o : Origin} {label : Label} (hitems : j.items = [o.part label items])
    (h : ∀ l, items ≠ [.line l]) : j.chars = (Item.joinAll items).toList := by
  rw [chars, render, hitems, Item.joinAll_cons, o.toString_part label h, Item.joinAll_nil, String.append_empty]

section Chars

variable {o o' : Origin} {obj key left right test body orelse func : Js} {args values : List Js}

theorem Js.toList_joinAll_items (j : Js) : (Item.joinAll j.items).toList = j.chars :=
  rfl

theorem Js.chars_name (s : String) : (Js.name o (.text s)).chars = s.toList := by
  rw [chars_of_items rfl cons_str_ne_line]
  simp

theorem Js.chars_num (digits : String) : (Js.num o digits).chars = digits.toList := by
  rw [chars_of_items rfl cons_str_ne_line]
  simp

theorem Js.chars_string (s : String) :
    (Js.json o (.str s)).chars = '"' :: (s.toList.flatMap escapeChar ++ ['"']) := by
  rw [chars_of_items rfl cons_str_ne_line]
  simp [Json.render, Text.quote]

theorem Js.chars_atom (a : Atom) : (Js.atom o a).chars = a.word.toList := by
  rw [chars_of_items rfl cons_str_ne_line]
  simp

theorem Js.chars_op (s : Operator) : (Js.op o s).chars = s.symbol.toList := by
  rw [chars_of_items rfl cons_str_ne_line]
  simp

theorem Js.chars_binOp (s : Operator) : (Js.binOp o left (.op o' s) right).chars =
    '(' :: (left.chars ++ ' ' :: (s.symbol.toList ++ ' ' :: (right.chars ++ [')']))) := by
  rw [chars_of_items rfl cons_str_ne_line]
  simp [toList_joinAll_items, chars_op]

theorem Js.chars_unaryOp (s : Operator) : (Js.unaryOp o (.op o' s) right).chars =
    '(' :: (s.symbol.toList ++ ' ' :: (right.chars ++ [')'])) := by
  rw [chars_of_items rfl cons_str_ne_line]
  simp [toList_joinAll_items, chars_op]

theorem Js.chars_ifExp : (Js.ifExp o test body orelse).chars = '(' :: (test.chars ++ ' ' :: '?' :: ' ' ::
    (body.chars ++ ' ' :: ':' :: ' ' :: (orelse.chars ++ [')']))) := by
  rw [chars_of_items rfl cons_str_ne_line]
  simp [toList_joinAll_items]

def listed (each : List (List Char)) : List Char :=
  separated [',', ' '] each

theorem toList_joinAll_listed (each : List (List Item)) : (Item.joinAll (separated [str ", "] each)).toList =
    listed (each.map fun items => (Item.joinAll items).toList) := by
  rw [toList_joinAll_separated]
  rfl

theorem Js.chars_call : (Js.call o "" func args .absent).chars =
    func.chars ++ '(' :: (listed (args.map Js.chars) ++ [')']) := by
  rw [chars_of_items rfl cons_str_ne_line]
  simp [toList_joinAll_items, toList_joinAll_listed, itemsEach_eq_map, absent, isTruthy,
    Scalar.isTruthy, Function.comp_def]

theorem Js.chars_list : (Js.list o args).chars = '[' :: (listed (args.map Js.chars) ++ [']']) := by
  rw [chars_of_items rfl cons_str_ne_line]
  simp [toList_joinAll_items, toList_joinAll_listed, itemsEach_eq_map, Function.comp_def]

theorem Js.chars_dot (field : String) : (Js.dot o obj field).chars = obj.chars ++ '.' :: field.toList := by
  rw [chars_of_items rfl fun l => ?_]
  · simp [toList_joinAll_items]
  · exact (List.append_assoc obj.items [str "."] [str field]) ▸ append_str_ne_line l

theorem Js.chars_subscript (hobj : Operational obj) (hkey : Operational key) :
    (Js.subscript o obj key).chars = obj.chars ++ '[' :: (key.chars ++ [']']) := by
  rw [chars_of_items rfl (by simp)]
  simp [o.toString_part _ hobj.items_ne_line, o.toString_part _ hkey.items_ne_line, toList_joinAll_items]

def entry (k : Origin × String) (value : Js) : List Char :=
  (Js.json k.1 (.str k.2)).chars ++ ':' :: ' ' :: value.chars

theorem Js.chars_dict (keys : List (Origin × String)) :
    (Js.dict o (keys.map fun k => .json k.1 (.str k.2)) values).chars =
      '\x7b' :: (listed (List.zipWith entry keys values) ++ ['\x7d']) := by
  have hpairs : ∀ (keys : List (Origin × String)) (values : List Js),
      (pairItems (itemsEach (keys.map fun k => Js.json k.1 (.str k.2))) (itemsEach values)).map
        (fun items => (Item.joinAll items).toList) = List.zipWith entry keys values := by
    intro keys
    induction keys with
    | nil => intro values; rfl
    | cons _ _ ih =>
      intro values
      cases values with
      | nil => rfl
      | cons =>
        simp [itemsEach, pairItems, ih, entry, toList_joinAll_items]
  rw [chars_of_items rfl cons_str_ne_line]
  simp [toList_joinAll_listed, hpairs]

end Chars

/-! ## Words -/

def Loose (rest : List Char) : Prop :=
  ∀ c ∈ rest.head?, isWordChar c = false ∧ c ≠ '\n'

theorem loose_cons {rest : List Char} (h : isWordChar c = false) (hn : c ≠ '\n') : Loose (c :: rest) := by
  intro d hd
  obtain rfl : c = d := by simpa using hd
  exact ⟨h, hn⟩

section Words

variable {word rest : List Char} (hword : ∀ c ∈ word, isWordChar c = true)
  (hrest : ∀ c ∈ rest.head?, isWordChar c = false)

include hword hrest

theorem takeWhile_word : (word ++ rest).takeWhile isWordChar = word := by
  rw [List.takeWhile_append_of_pos hword]
  cases rest with
  | nil => simp
  | cons c => simp [hrest c rfl]

theorem dropWhile_word : (word ++ rest).dropWhile isWordChar = rest := by
  rw [List.dropWhile_append_of_pos hword]
  cases rest with
  | nil => simp
  | cons c => simp [hrest c rfl]

end Words

theorem Loose.ends_word {rest : List Char} (h : Loose rest) : ∀ c ∈ rest.head?, isWordChar c = false :=
  fun c hc => (h c hc).1

theorem isIdentifier_word {s : String} (h : isIdentifier s = true) : ∀ c ∈ s.toList, isWordChar c = true := by
  rw [isIdentifier] at h
  cases hs : s.toList with
  | nil => simp
  | cons =>
    simp only [hs, Bool.and_eq_true, List.all_eq_true] at h
    exact List.forall_mem_cons.2 ⟨by simp [isWordChar, h.1], h.2⟩

theorem exists_word_of_isField (h : isField field = true) : ∃ word : List Char, (∀ c ∈ word, isWordChar c = true) ∧
    (field.toList = word ∨ field.toList = word ++ ['\n']) := by
  rw [isField] at h
  obtain ⟨word, hword⟩ : ∃ word, word = if field.toList.getLast? == some '\n' then
    field.toList.dropLast else field.toList := ⟨_, rfl⟩
  simp only [← hword] at h
  refine ⟨word, ?_, ?_⟩
  · cases word with
    | nil => simp
    | cons =>
      simp only [Bool.and_eq_true, List.all_eq_true] at h
      exact List.forall_mem_cons.2 ⟨by simp [isWordChar, h.1], h.2⟩
  · by_cases hlast : field.toList.getLast? = some '\n'
    · right
      rw [hword, if_pos (by simp [hlast])]
      exact (List.dropLast_append_getLast? _ hlast).symm
    · left
      rw [hword, if_neg (by simp [hlast])]

theorem readField_append (h : isField field = true) {rest : List Char}
    (hrest : Loose rest) : readField (field.toList ++ rest) = (field, rest) := by
  obtain ⟨word, hword, hfield | hfield⟩ := exists_word_of_isField h
  · have hofList : String.ofList word = field := by rw [← hfield, String.ofList_toList]
    rw [readField, hfield, takeWhile_word hword hrest.ends_word, dropWhile_word hword hrest.ends_word]
    cases rest with
    | nil => simp [hofList]
    | cons c =>
      have hc := (hrest c rfl).2
      simp [hofList, hc]
  · have hofList : String.ofList (word ++ ['\n']) = field := by
      rw [← hfield, String.ofList_toList]
    have hfeed : ∀ c ∈ ('\n' :: rest).head?, isWordChar c = false := by simp; decide
    rw [readField, hfield, List.append_assoc, List.singleton_append,
      takeWhile_word hword hfeed, dropWhile_word hword hfeed]
    simp [hofList]

/-! ## The first characters of an expression -/

theorem Loose.append {first second : List Char} (h : Loose first) (h' : Loose second) : Loose (first ++ second) := by
  cases first with
  | nil => exact h'
  | cons c => exact loose_cons (h c rfl).1 (h c rfl).2

/-- How the text of an expression starts: with a word, which is no operator, or with an opening
quote or bracket. -/
def Opens (cs : List Char) : Prop :=
  (∃ word rest, cs = word ++ rest ∧ word ≠ [] ∧ (∀ c ∈ word, isWordChar c = true) ∧
    word ≠ "typeof".toList ∧ Loose rest) ∨
  ∃ c ∈ ['"', '(', '[', '\x7b'], ∃ rest, cs = c :: rest

theorem Opens.append {rest : List Char} (h : Opens cs) (hrest : Loose rest) : Opens (cs ++ rest) := by
  obtain ⟨word, rest', rfl, hne, hword, htype, hrest'⟩ | ⟨c, hc, rest', rfl⟩ := h
  · exact .inl ⟨word, rest' ++ rest, List.append_assoc .., hne, hword, htype, hrest'.append hrest⟩
  · exact .inr ⟨c, hc, rest' ++ rest, rfl⟩

theorem opens_word {word : List Char} (hne : word ≠ []) (hword : ∀ c ∈ word, isWordChar c = true)
    (htype : word ≠ "typeof".toList) : Opens word :=
  .inl ⟨word, [], by simp, hne, hword, htype, by simp [Loose]⟩

theorem isDigit_of_mem_toString {n : Nat} (hc : c ∈ (toString n).toList) : c.isDigit = true := by
  rw [show toString n = n.repr from rfl, Nat.toList_repr] at hc
  exact Nat.isDigit_of_mem_toDigits (by decide) (by decide) hc

theorem toList_toString_ne_nil (n : Nat) : (toString n).toList ≠ [] := by
  rw [show toString n = n.repr from rfl, Nat.toList_repr]
  exact List.ne_nil_of_length_pos Nat.length_toDigits_pos

theorem Operational.opens {j : Js} (h : Operational j) : Opens j.chars := by
  have hloose : ∀ {c rest}, c ∈ ['.', '(', '['] → Loose (c :: rest) := by
    intro _ _ hc
    simp only [List.mem_cons, List.not_mem_nil, or_false] at hc
    obtain rfl | rfl | rfl := hc <;> exact loose_cons (by decide) (by decide)
  induction h with
  | @name _ _ hword hfree _ =>
    rw [Js.chars_name]
    refine opens_word ?_ (isIdentifier_word hword) ?_
    · intro hnil
      simp [isIdentifier, hnil] at hword
    · intro htype
      rw [String.toList_inj.1 htype] at hfree
      revert hfree
      decide
  | num n =>
    rw [Js.chars_num]
    refine opens_word (toList_toString_ne_nil n) (fun c hc => ?_) fun htype => ?_
    · simp [isWordChar, isDigit_of_mem_toString hc]
    · have hdigit : 't'.isDigit = true := isDigit_of_mem_toString (n := n) (by rw [htype]; decide)
      revert hdigit
      decide
  | string s => exact .inr ⟨_, by simp, _, Js.chars_string s⟩
  | @atom _ a _ =>
    rw [Js.chars_atom]
    cases a <;> exact opens_word (by decide) (List.all_eq_true.mp (by decide)) (by decide)
  | @binOp _ _ s => exact .inr ⟨_, by simp, _, Js.chars_binOp s⟩
  | @unaryOp _ _ s => exact .inr ⟨_, by simp, _, Js.chars_unaryOp s⟩
  | ifExp => exact .inr ⟨_, by simp, _, Js.chars_ifExp⟩
  | call _ _ ih => exact Js.chars_call ▸ ih.append (hloose (by simp))
  | dot _ ih => exact Js.chars_dot _ ▸ ih.append (hloose (by simp))
  | subscript hobj hkey ih => exact Js.chars_subscript hobj hkey ▸ ih.append (hloose (by simp))
  | list => exact .inr ⟨_, by simp, _, Js.chars_list⟩
  | dict => exact .inr ⟨_, by simp, _, Js.chars_dict _⟩

theorem Opens.readSign?_eq_none (h : Opens cs) : readSign? cs = none := by
  obtain ⟨_, _, rfl, hne, hword, htype, hrest⟩ | ⟨c, hc, _, rfl⟩ := h
  · have htake := takeWhile_word hword hrest.ends_word
    obtain ⟨c, _, rfl⟩ := List.exists_cons_of_ne_nil hne
    have hc := hword c (by simp)
    rw [List.cons_append] at htake ⊢
    unfold readSign?
    split
    · simp_all; revert hc; decide
    · simp_all; revert hc; decide
    · simp_all; revert hc; decide
    · rw [htake, if_neg (by simpa using htype)]
  · simp only [List.mem_cons, List.not_mem_nil, or_false] at hc
    obtain rfl | rfl | rfl | rfl := hc <;> rfl

theorem Opens.head?_ne (h : Opens cs) (hclose : close ∈ [')', ']', '\x7d']) : cs.head? ≠ some close := by
  obtain ⟨_, _, rfl, hne, hword, _, _⟩ | ⟨c, hc, _, rfl⟩ := h
  · have hnone : isWordChar close = false := by
      simp only [List.mem_cons, List.not_mem_nil, or_false] at hclose
      obtain rfl | rfl | rfl := hclose <;> decide
    obtain ⟨c, _, rfl⟩ := List.exists_cons_of_ne_nil hne
    intro heq
    obtain rfl : c = close := by simpa using heq
    simpa [hnone] using hword c (by simp)
  · have hnone : ∀ c ∈ ['"', '(', '[', '\x7b'], c ∉ [')', ']', '\x7d'] := by simp
    intro heq
    obtain rfl : c = close := by simpa using heq
    exact hnone c hc hclose

/-! ## Reading -/

theorem isDigit_of_isFieldStart (h : isFieldStart c = true) : c.isDigit = false := by
  change (((decide ('A'.val ≤ c.val ∧ c.val ≤ 'Z'.val) ||
    decide ('a'.val ≤ c.val) && decide (c.val ≤ 'z'.val)) || c == '$') || c == '_') = true at h
  simp only [Bool.or_eq_true, Bool.and_eq_true, decide_eq_true_eq, beq_iff_eq, UInt32.le_iff_toNat_le] at h
  simp only [Char.isDigit, Bool.and_eq_false_iff, decide_eq_false_iff_not, UInt32.le_iff_toNat_le]
  obtain ((h | h) | rfl) | rfl := h
  · simp at h ⊢; omega
  · simp at h ⊢; omega
  · decide
  · decide

theorem wordNode_identifier {s : String} (hword : isIdentifier s = true)
    (hfree : isReserved true s = false) (hatom : s ∉ ["true", "false", "null"]) :
    wordNode s.toList = .name default (.text s) := by
  have hdigits : s.toList.all Char.isDigit = false := by
    rw [isIdentifier] at hword
    cases hs : s.toList with
    | nil => simp [hs] at hword
    | cons =>
      simp only [hs, Bool.and_eq_true] at hword
      simp [isDigit_of_isFieldStart hword.1]
  unfold wordNode
  rw [String.ofList_toList]
  split
  · exact absurd hfree (by decide)
  · simp at hatom
  · simp at hatom
  · simp at hatom
  · rw [hdigits]
    rfl

theorem wordNode_toString (n : Nat) : wordNode (toString n).toList = .num default (toString n) := by
  have hdigits : (toString n).toList.all Char.isDigit = true :=
    List.all_eq_true.2 fun c hc => isDigit_of_mem_toString hc
  have hne : ∀ {s : String}, s.toList.all Char.isDigit = false → toString n ≠ s := by
    rintro _ hs rfl
    exact absurd hdigits (by rw [hs]; decide)
  unfold wordNode
  rw [String.ofList_toList]
  split
  · next heq => exact absurd heq (hne (by decide))
  · next heq => exact absurd heq (hne (by decide))
  · next heq => exact absurd heq (hne (by decide))
  · next heq => exact absurd heq (hne (by decide))
  · rw [hdigits]
    rfl

theorem wordNode_atom {a : Atom} (ha : a ≠ .super) : wordNode a.word.toList = .atom default a := by
  cases a with
  | super => exact absurd rfl ha
  | _ => rfl

theorem readOperator?_symbol {s : Operator} (hs : s.isUnary = false) (rest : List Char) :
    readOperator? (s.symbol.toList ++ ' ' :: rest) = some (s, rest) := by
  cases s with
  | not | typeOf | invert | neg => simp [Operator.isUnary] at hs
  | _ => rfl

theorem readSign?_symbol {s : Operator} (hs : s.isUnary = true) (rest : List Char) :
    readSign? (s.symbol.toList ++ ' ' :: rest) = some (s, rest) := by
  cases s with
  | not | invert | neg => rfl
  | typeOf => rfl
  | _ => simp [Operator.isUnary] at hs

/-- What ends an expression: the next character belongs to no word, and no call, field or subscript
follows. -/
def Closed (rest : List Char) : Prop :=
  Loose rest ∧ ∀ c ∈ rest.head?, c ∉ ['.', '(', '[']

theorem closed_cons {rest : List Char} (hc : c ∈ [' ', ',', ')', ']', '\x7d']) : Closed (c :: rest) := by
  simp only [List.mem_cons, List.not_mem_nil, or_false] at hc
  obtain rfl | rfl | rfl | rfl | rfl := hc <;> exact ⟨loose_cons (by decide) (by decide), by simp⟩

theorem readTail?_closed {rest : List Char} (h : Closed rest) (n : Nat) (j : Js) :
    readTail? n j rest = some (j, rest) := by
  have hopen := h.2
  unfold readTail?
  split
  iterate 3 simp at hopen
  rfl

def Reads (j : Js) : Prop :=
  ∀ left, ∃ enough, ∀ n ≥ enough, ∀ rest, Loose rest →
    ∃ m ≥ left, readExpr? n (j.chars ++ rest) = readTail? m j.unplaced rest

section Reads

variable {j obj : Js}

theorem Reads.closed (h : Reads j) : ∃ enough, ∀ n ≥ enough, ∀ rest, Closed rest →
    readExpr? n (j.chars ++ rest) = some (j.unplaced, rest) := by
  obtain ⟨enough, hread⟩ := h 0
  refine ⟨enough, fun n hn rest hrest => ?_⟩
  obtain ⟨_, -, hm⟩ := hread n hn rest hrest.1
  rw [hm, readTail?_closed hrest]

theorem reads_of_head (enough : Nat) (h : ∀ n ≥ enough, ∀ rest, Loose rest →
    readExpr? (n + 1) (j.chars ++ rest) = readTail? n j.unplaced rest) : Reads j := by
  intro left
  refine ⟨max enough left + 1, fun n _ rest hrest => ⟨n - 1, by omega, ?_⟩⟩
  obtain ⟨n, rfl⟩ : ∃ k, n = k + 1 := ⟨n - 1, by omega⟩
  exact h n (by omega) rest hrest

theorem Reads.of_tail (hobj : Reads obj) {suffix : List Char} (hchars : j.chars = obj.chars ++ suffix)
    (hloose : ∀ rest, Loose rest → Loose (suffix ++ rest)) (enough : Nat)
    (h : ∀ n ≥ enough, ∀ rest, Loose rest →
      readTail? (n + 1) obj.unplaced (suffix ++ rest) = readTail? n j.unplaced rest) :
    Reads j := by
  intro left
  obtain ⟨before, hbefore⟩ := hobj (max enough left + 1)
  refine ⟨before, fun n hn rest hrest => ?_⟩
  obtain ⟨m, _, hread⟩ := hbefore n hn (suffix ++ rest) (hloose rest hrest)
  refine ⟨m - 1, by omega, ?_⟩
  obtain ⟨m, rfl⟩ : ∃ k, m = k + 1 := ⟨m - 1, by omega⟩
  rw [hchars, List.append_assoc, hread]
  exact h m (by omega) rest hrest

end Reads

/-! ### Lists of expressions -/

def following (each : List (List Char)) : List Char :=
  if each = [] then [] else ',' :: ' ' :: listed each

theorem listed_cons (cs : List Char) (each : List (List Char)) : listed (cs :: each) = cs ++ following each := by
  cases each <;> simp [listed, following, separated]

theorem skipComma_following (hclose : close ≠ ',') (each : List (List Char)) (rest : List Char) :
    skipComma (following each ++ close :: rest) = listed each ++ close :: rest := by
  cases each with
  | nil =>
    simp only [following, if_pos, List.nil_append, listed, separated]
    unfold skipComma
    split
    · next heq => simp_all
    · rfl
  | cons => simp [following, skipComma]

theorem closed_following (hclose : close ∈ [')', ']', '\x7d'])
    (each : List (List Char)) (rest : List Char) : Closed (following each ++ close :: rest) := by
  cases each with
  | nil => exact closed_cons (by simp_all)
  | cons => exact closed_cons (by simp)

theorem readItems?_listed {js : List Js} (hjs : ∀ j ∈ js, Operational j ∧ Reads j) (close : Char)
    (hclose : close ∈ [')', ']', '\x7d']) : ∃ enough, ∀ n ≥ enough, ∀ rest,
      readItems? n close (listed (js.map Js.chars) ++ close :: rest) = some (unplacedAll js, rest) := by
  have hcomma : close ≠ ',' := by rintro rfl; simp at hclose
  induction js with
  | nil =>
    refine ⟨1, fun n _ rest => ?_⟩
    obtain ⟨n, rfl⟩ : ∃ k, n = k + 1 := ⟨n - 1, by omega⟩
    simp [readItems?, listed, separated, unplacedAll]
  | cons _ js ih =>
    obtain ⟨⟨hj, hread⟩, hjs⟩ := List.forall_mem_cons.1 hjs
    obtain ⟨first, hfirst⟩ := hread.closed
    obtain ⟨others, hothers⟩ := ih hjs
    refine ⟨max first others + 1, fun n _ rest => ?_⟩
    obtain ⟨n, rfl⟩ : ∃ k, n = k + 1 := ⟨n - 1, by omega⟩
    have hclosed := closed_following hclose (js.map Js.chars) rest
    have hhead := (hj.opens.append hclosed.1).head?_ne hclose
    rw [List.map_cons, listed_cons, List.append_assoc, readItems?, if_neg hhead, hfirst n (by omega) _ hclosed]
    simp [skipComma_following hcomma, hothers n (by omega) rest, unplacedAll]

theorem length_le_flatMap_escapeChar (cs : List Char) : cs.length ≤ (cs.flatMap escapeChar).length := by
  have hone : ∀ c, 1 ≤ (escapeChar c).length := by
    intro _
    unfold escapeChar
    split
    iterate 7 simp
    split
    · simp
    · rw [Text.units16]
      split <;> simp [Text.unitEscape]
  induction cs with
  | nil => simp
  | cons c =>
    have hc := hone c
    simp only [List.flatMap_cons, List.length_append, List.length_cons]
    omega

theorem readString?_string (s : String) (rest : List Char) :
    Json.readString? ((s.toList.flatMap escapeChar ++ '"' :: rest).length + 1) []
      (s.toList.flatMap escapeChar ++ '"' :: rest) = some (s, rest) := by
  have hfuel : s.toList.length < (s.toList.flatMap escapeChar ++ '"' :: rest).length + 1 := by
    have hlength := length_le_flatMap_escapeChar s.toList
    rw [List.length_append]
    omega
  rw [Json.readString?_flatMap_escapeChar s.toList hfuel]
  simp

theorem readPairs?_listed {keys : List (Origin × String)} {values : List Js}
    (hlength : keys.length = values.length) (hvalues : ∀ v ∈ values, Reads v) :
    ∃ enough, ∀ n ≥ enough, ∀ rest, readPairs? n (listed (List.zipWith entry keys values) ++ '\x7d' :: rest) =
        some (unplacedAll (keys.map fun k => .json k.1 (.str k.2)), unplacedAll values, rest) := by
  induction keys generalizing values with
  | nil =>
    obtain rfl : values = [] := by simpa using hlength.symm
    refine ⟨0, fun n _ rest => ?_⟩
    cases n <;> simp [listed, separated, readPairs?, unplacedAll]
  | cons k keys ih =>
    cases values with
    | nil => simp at hlength
    | cons v values =>
      obtain ⟨hread, hvalues⟩ := List.forall_mem_cons.1 hvalues
      obtain ⟨first, hfirst⟩ := hread.closed
      obtain ⟨others, hothers⟩ := ih (by simpa using hlength) hvalues
      refine ⟨max first others + 1, fun n _ rest => ?_⟩
      obtain ⟨n, rfl⟩ : ∃ k, n = k + 1 := ⟨n - 1, by omega⟩
      have hclosed : Closed (following (List.zipWith entry keys values) ++ '\x7d' :: rest) :=
        closed_following (by simp) _ _
      have htext : entry k v ++ following (List.zipWith entry keys values) ++ '\x7d' :: rest =
          '"' :: (k.2.toList.flatMap escapeChar ++ '"' :: (':' :: ' ' ::
            (v.chars ++ (following (List.zipWith entry keys values) ++ '\x7d' :: rest)))) := by
        simp [entry, Js.chars_string]
      rw [List.zipWith_cons_cons, listed_cons, htext, readPairs?, readString?_string]
      simp [hfirst n (by omega) _ hclosed, skipComma_following, hothers n (by omega) rest, unplacedAll, Js.unplaced]

/-! ### All expressions -/

theorem reads_word {j : Js} {word : List Char} (hchars : j.chars = word)
    (hword : ∀ c ∈ word, isWordChar c = true) (hne : word ≠ []) (hnode : wordNode word = j.unplaced) :
    Reads j := by
  refine reads_of_head 0 fun n _ _ hrest => ?_
  have htake := takeWhile_word hword hrest.ends_word
  have hdrop := dropWhile_word hword hrest.ends_word
  obtain ⟨c, _, rfl⟩ := List.exists_cons_of_ne_nil hne
  have hc := hword c (by simp)
  rw [hchars, List.cons_append, readExpr?, ← List.cons_append, htake, hdrop, hnode]
  all_goals
    intro cs heq
    obtain ⟨rfl, -⟩ := List.cons.inj heq
    exact absurd hc (by decide)

theorem closed_blank (cs : List Char) : Closed (' ' :: cs) :=
  closed_cons (by simp)

theorem reads_group {j : Js} {inner : List Char} (hchars : j.chars = '(' :: inner) (enough : Nat)
    (h : ∀ n ≥ enough, ∀ rest, Closed (')' :: rest) → readGroup? (n + 1) (inner ++ rest) = some (j.unplaced, rest)) :
    Reads j := by
  refine reads_of_head (enough + 1) fun n _ rest _ => ?_
  obtain ⟨n, rfl⟩ : ∃ k, n = k + 1 := ⟨n - 1, by omega⟩
  rw [hchars, List.cons_append, readExpr?, h n (by omega) rest (closed_cons (by simp))]
  rfl

section Groups

variable {o o' : Origin} {s : Operator} {left right test body orelse : Js}

theorem reads_binOp (hs : s.isUnary = false) (hopens : Opens left.chars) (hleft : Reads left)
    (hright : Reads right) : Reads (.binOp o left (.op o' s) right) := by
  obtain ⟨first, hfirst⟩ := hleft.closed
  obtain ⟨second, hsecond⟩ := hright.closed
  refine reads_group (Js.chars_binOp s) (max first second) fun n _ _ hend => ?_
  simp only [List.append_assoc, List.cons_append, List.nil_append]
  rw [readGroup?, (hopens.append (closed_blank _).1).readSign?_eq_none]
  simp only [hfirst n (by omega) _ (closed_blank _), Option.bind_eq_bind, Option.bind_some]
  -- no operator is written as a question mark
  have hquestion : ∀ cs cs', s.symbol.toList ++ ' ' :: cs ≠ '?' :: ' ' :: cs' := by
    cases s <;> simp [Operator.symbol]
  split
  · next heq => exact absurd (List.cons.inj heq).2 (hquestion _ _)
  · rw [List.drop_one, List.tail_cons, readOperator?_symbol hs]
    simp [hsecond n (by omega) _ hend, Js.unplaced]

theorem reads_unaryOp (hs : s.isUnary = true) (hright : Reads right) : Reads (.unaryOp o (.op o' s) right) := by
  obtain ⟨enough, henough⟩ := hright.closed
  refine reads_group (Js.chars_unaryOp s) enough fun n _ _ hend => ?_
  simp only [List.append_assoc, List.cons_append, List.nil_append]
  rw [readGroup?, readSign?_symbol hs]
  simp [henough n (by omega) _ hend, Js.unplaced]

theorem reads_ifExp (hopens : Opens test.chars) (htest : Reads test) (hbody : Reads body)
    (horelse : Reads orelse) : Reads (.ifExp o test body orelse) := by
  obtain ⟨first, hfirst⟩ := htest.closed
  obtain ⟨second, hsecond⟩ := hbody.closed
  obtain ⟨third, hthird⟩ := horelse.closed
  refine reads_group Js.chars_ifExp (max first (max second third)) fun n _ _ hend => ?_
  simp only [List.append_assoc, List.cons_append, List.nil_append]
  rw [readGroup?, (hopens.append (closed_blank _).1).readSign?_eq_none]
  simp [hfirst n (by omega) _ (closed_blank _), hsecond n (by omega) _ (closed_blank _), hthird n (by omega) _ hend, Js.unplaced]

end Groups

section Tails

variable {o : Origin} {func obj key : Js} {args : List Js}

theorem reads_call (hfunc : Reads func) (hargs : ∀ a ∈ args, Operational a ∧ Reads a) :
    Reads (.call o "" func args .absent) := by
  obtain ⟨enough, henough⟩ := readItems?_listed hargs ')' (by simp)
  refine hfunc.of_tail Js.chars_call (fun _ _ => loose_cons (by decide) (by decide)) enough
    fun n hn rest _ => ?_
  simp only [List.append_assoc, List.cons_append, List.nil_append]
  rw [readTail?, henough n hn rest]
  simp [Js.unplaced]

theorem reads_dot (hfield : isField field = true) (hobj : Reads obj) : Reads (.dot o obj field) := by
  refine hobj.of_tail (Js.chars_dot field) (fun _ _ => loose_cons (by decide) (by decide)) 0
    fun n _ _ hrest => ?_
  rw [List.cons_append, readTail?, readField_append hfield hrest]
  simp [Js.unplaced]

theorem reads_subscript (hobj : Operational obj) (hkey : Operational key) (hreads : Reads obj)
    (hreads' : Reads key) : Reads (.subscript o obj key) := by
  obtain ⟨enough, henough⟩ := hreads'.closed
  refine hreads.of_tail (Js.chars_subscript hobj hkey)
    (fun _ _ => loose_cons (by decide) (by decide)) enough fun n hn rest _ => ?_
  have hend : Closed (']' :: rest) := closed_cons (by simp)
  simp only [List.append_assoc, List.cons_append, List.nil_append]
  rw [readTail?, henough n hn _ hend]
  simp [Js.unplaced]

end Tails

theorem check_of_inTurns {keys : List Verdict} {values : List Js} (hlength : keys.length = values.length)
    (h : firstFault (inTurns keys (checkEach values)) = passed) : ∀ v ∈ values, v.check = passed := by
  induction keys generalizing values with
  | nil =>
    obtain rfl : values = [] := by simpa using hlength.symm
    simp
  | cons _ _ ih =>
    cases values with
    | nil => simp
    | cons =>
      rw [checkEach, inTurns, firstFault_cons, firstFault_cons] at h
      exact List.forall_mem_cons.2 ⟨h.2.1, ih (by simpa using hlength) h.2.2⟩

theorem Operational.reads {j : Js} (h : Operational j) (hcheck : j.check = passed) : Reads j := by
  induction h with
  | @name _ s hword hfree hatom =>
    refine reads_word (Js.chars_name s) (isIdentifier_word hword) ?_ (wordNode_identifier hword hfree hatom)
    intro hnil
    simp [isIdentifier, hnil] at hword
  | num n =>
    refine reads_word (Js.chars_num _) (fun c hc => ?_) (toList_toString_ne_nil n) (wordNode_toString n)
    simp [isWordChar, isDigit_of_mem_toString hc]
  | @string o s =>
    refine reads_of_head 0 fun n _ rest _ => ?_
    have htext : (Js.json o (.str s)).chars ++ rest = '"' :: (s.toList.flatMap escapeChar ++ '"' :: rest) := by
      simp [Js.chars_string]
    rw [htext, readExpr?, readString?_string]
    rfl
  | @atom _ a ha =>
    refine reads_word (Js.chars_atom a) (List.all_eq_true.mp ?_) ?_ (wordNode_atom ha) <;> cases a <;> decide
  | binOp hs hleft _ ihleft ihright =>
    rw [Js.check] at hcheck
    simp only [firstFault_cons, firstFault_nil] at hcheck
    exact reads_binOp hs hleft.opens (ihleft hcheck.1) (ihright hcheck.2.2.1)
  | unaryOp hs _ ih =>
    rw [Js.check] at hcheck
    simp only [firstFault_cons, firstFault_nil] at hcheck
    exact reads_unaryOp hs (ih hcheck.2.2.1)
  | ifExp htest _ _ ihtest ihbody ihorelse =>
    rw [Js.check] at hcheck
    simp only [firstFault_cons, firstFault_nil] at hcheck
    exact reads_ifExp htest.opens (ihtest hcheck.1) (ihbody hcheck.2.1) (ihorelse hcheck.2.2.1)
  | call _ hargs ihfunc ihargs =>
    rw [Js.check] at hcheck
    simp only [firstFault_eq_passed_iff, checkEach_eq_map, List.forall_mem_append,
      List.forall_mem_cons, List.forall_mem_map] at hcheck
    exact reads_call (ihfunc hcheck.1.1) fun a ha =>
      ⟨hargs a ha, ihargs a ha (hcheck.1.2 a ha)⟩
  | @dot _ _ field _ ih =>
    rw [Js.check] at hcheck
    simp only [firstFault_cons, firstFault_nil] at hcheck
    have hfield : isField field = true := by
      by_contra hfield
      simp [expect, hfield, passed] at hcheck
    exact reads_dot hfield (ih hcheck.2.2.1)
  | subscript hobj hkey ihobj ihkey =>
    rw [Js.check] at hcheck
    simp only [firstFault_cons, firstFault_nil] at hcheck
    exact reads_subscript hobj hkey (ihobj hcheck.1) (ihkey hcheck.2.1)
  | @list _ elts helts ih =>
    rw [Js.check] at hcheck
    simp only [firstFault_eq_passed_iff, checkEach_eq_map, List.forall_mem_map] at hcheck
    have hreads : ∀ e ∈ elts, Operational e ∧ Reads e :=
      fun e he => ⟨helts e he, ih e he (hcheck e he)⟩
    obtain ⟨enough, henough⟩ := readItems?_listed hreads ']' (by simp)
    refine reads_of_head enough fun n hn rest _ => ?_
    rw [Js.chars_list]
    simp only [List.append_assoc, List.cons_append, List.nil_append]
    rw [readExpr?, henough n hn rest]
    simp [Js.unplaced]
  | dict _ hlength _ ih =>
    rw [Js.check, firstFault_cons] at hcheck
    have hpassed := check_of_inTurns (by simp [checkEach_eq_map, hlength]) hcheck.2
    obtain ⟨enough, henough⟩ := readPairs?_listed hlength fun v hv => ih v hv (hpassed v hv)
    refine reads_of_head enough fun n hn rest _ => ?_
    rw [Js.chars_dict]
    simp only [List.append_assoc, List.cons_append, List.nil_append]
    rw [readExpr?, henough n hn rest]
    simp [Js.unplaced]

theorem check_of_render? {j : Js} {text : String} (h : j.render? = .ok text) : j.check = passed ∧ j.render = text := by
  rw [Js.render?, Js.items?] at h
  cases hfault : firstFault [checkNode j, j.check] with
  | error => simp [hfault, Bind.bind, Except.bind] at h
  | ok =>
    have hpassed := firstFault_cons.1 hfault
    rw [firstFault_cons] at hpassed
    exact ⟨hpassed.2.1, by
      simpa [hfault, Bind.bind, Except.bind, pure, Except.pure, Js.render] using h⟩

end Transpiler.Script
