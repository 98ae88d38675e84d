import Transpiler.Proofs.Script.Hidden

/-!
# The brackets and the indentation of a layout

A tree whose words are neutral is laid out as text whose brackets are nested and balanced. If it may stand
on lines of its own, each line is indented by the braces that are open before it, one less if it starts with
a closing brace (`Js.lays_items`).
-/

namespace Transpiler.Script

variable {s : String} {each : List (List Item)} {depth : Nat} {l : Line} {args kwargs : List Js} {rest : Js}
  {names : List (String × Option String)}

/-! ### Scanning items -/

def scanItems (opened : List Char) (items : List Item) : Option (List Char) :=
  scan opened (Item.joinAll items).toList

variable {opened opened' : List Char} {items more : List Item} {o : Origin} {label : Label} {i : Item}

@[simp]
theorem scanItems_nil : scanItems opened [] = some opened :=
  rfl

theorem scanItems_cons : scanItems opened (i :: items) = (scan opened i.toString.toList).bind (scanItems · items) := by
  simp [scanItems, scan_append]

@[simp]
theorem scanItems_append : scanItems opened (items ++ more) = (scanItems opened items).bind (scanItems · more) := by
  simp [scanItems, scan_append]

theorem scan_delimiter (delim : Bool) : scan opened ((if delim then ";" else "") ++ "\n").toList = some opened := by
  cases delim <;> rfl

theorem scan_margin (indent : Nat) : scan opened (margin indent).toList = some opened := by
  refine scan_of_bracketFree (fun c _ => ?_) opened
  obtain rfl : c = ' ' := by simp_all [margin]
  decide

@[simp]
theorem scan_line (l : Line) : scan opened (Item.line l).toString.toList = scan opened l.content.toString.toList := by
  have hfront (blank : Bool) : scan opened (if blank then "" else margin l.indent).toList = some opened := by
    cases blank with
    | true => rfl
    | false => exact scan_margin l.indent
  rw [Item.toString, Line.toString]
  simp only [String.append_assoc]
  rw [String.toList_append, scan_append, hfront, Option.bind_some, String.toList_append, scan_append]
  cases scan opened l.content.toString.toList with
  | none => rfl
  | some => exact scan_delimiter l.delim

theorem joinAll_toPiece (items : List Item) : Piece.joinAll (items.map Item.toPiece) = Item.joinAll items := by
  simp [Piece.joinAll_eq_join, Item.joinAll, Item.toString_toPiece, Function.comp_def]

theorem toString_ofContent (c : Content) : (Item.ofContent c).toString = c.toString := by
  cases c <;> rfl

@[simp]
theorem scan_part : scan opened (o.part label items).toString.toList = scanItems opened items := by
  unfold Origin.part
  split
  · simp [scanItems_cons, toString_ofContent]
  · simp [Item.toString, Piece.toString, joinAll_toPiece, scanItems]

@[simp]
theorem scan_lineOf (delim : Bool) : scan opened (o.lineOf delim items).toString.toList = scanItems opened items := by
  simp [Origin.lineOf, Content.toString, Piece.toString, joinAll_toPiece, scanItems]

theorem scan_toLine (indent : Nat) (delim : Bool) :
    scan opened (o.toLine indent delim i).toString.toList = scan opened i.toString.toList := by
  cases i with
  | line => rw [Origin.toLine, scan_line, scan_line]
  | piece => exact scan_line _
  | bare => exact scan_line _

@[simp]
theorem scan_str (s : String) : scan opened (str s).toString.toList = scan opened s.toList :=
  rfl

def Flat (items : List Item) : Prop :=
  ∀ opened, scanItems opened items = some opened

theorem Flat.eq (h : Flat items) (opened : List Char) : scanItems opened items = some opened :=
  h opened

theorem flat_iff : Flat items ↔ Neutral (Item.joinAll items) :=
  ⟨fun h => h [], fun h opened => h.scan opened⟩

@[simp]
theorem flat_nil : Flat [] := fun _ => rfl

theorem Flat.append (h : Flat items) (hmore : Flat more) : Flat (items ++ more) := by
  intro _
  rw [scanItems_append, h, Option.bind_some, hmore]

theorem flat_str (h : Neutral s) : Flat [str s] := by
  intro _
  rw [scanItems_cons, scan_str, h.scan]
  rfl

theorem flat_separated {sep : List Item} (hsep : Flat sep) (h : ∀ items ∈ each, Flat items) :
    Flat (separated sep each) := by
  fun_induction separated sep each with
  | case1 => simp
  | case2 items => exact h items (by simp)
  | case3 items _ _ ih =>
    exact ((h items (by simp)).append hsep).append (ih fun more hmore => h more (by simp [hmore]))

theorem flat_commas (h : ∀ items ∈ each, Flat items) : Flat (separated [str ", "] each) :=
  flat_separated (flat_str (by decide)) h

/-! ### Lines -/

def Line.closes (l : Line) : Bool :=
  l.content.toString.toList.head? == some '\x7d'

/-- A line is indented by the braces that are open before it; `depth` of them are open around all lines. What
is no line stands at that depth. -/
def Item.Fits (depth : Nat) (opened : List Char) : Item → Prop
  | .line l => depth + l.indent + (if l.closes then 1 else 0) = opened.count '\x7b'
  | i => depth = opened.count '\x7b' ∧ Flat [i]

def Laid (depth : Nat) : List Char → List Item → List Char → Prop
  | opened, [], opened' => opened = opened'
  | opened, i :: rest, opened' =>
    i.Fits depth opened ∧ ∃ mid, scan opened i.toString.toList = some mid ∧ Laid depth mid rest opened'

def Block (items : List Item) : Prop :=
  ∀ opened, Laid (opened.count '\x7b') opened items opened

theorem Laid.append {mid : List Char} (h : Laid depth opened items mid) (hmore : Laid depth mid more opened') :
    Laid depth opened (items ++ more) opened' := by
  induction items generalizing opened with
  | nil =>
    obtain rfl := h
    exact hmore
  | cons _ _ ih =>
    obtain ⟨hi, next, hscan, hrest⟩ := h
    exact ⟨hi, next, hscan, ih hrest⟩

theorem Laid.scanItems (h : Laid depth opened items opened') : scanItems opened items = some opened' := by
  induction items generalizing opened with
  | nil => exact congrArg some h
  | cons _ _ ih =>
    obtain ⟨-, _, hscan, hrest⟩ := h
    rw [scanItems_cons, hscan]
    exact ih hrest

theorem Laid.exists_of_getElem? {n : Nat} (h : Laid depth opened items opened')
    (hn : items[n]? = some (.line l)) : ∃ mid, Script.scanItems opened (items.take n) = some mid ∧
      depth + l.indent + (if l.closes then 1 else 0) = mid.count '\x7b' := by
  induction items generalizing opened n with
  | nil => simp at hn
  | cons i _ ih =>
    obtain ⟨hi, _, hscan, hrest⟩ := h
    cases n with
    | zero =>
      obtain rfl : i = .line l := by simpa using hn
      exact ⟨opened, rfl, hi⟩
    | succ =>
      obtain ⟨mid, hmid, hindent⟩ := ih hrest (by simpa using hn)
      exact ⟨mid, by rw [List.take_succ_cons, scanItems_cons, hscan, Option.bind_some, hmid], hindent⟩

theorem head?_ne_of_scan {cs : List Char} (h : scan [] cs = some opened) : cs.head? ≠ some '\x7d' := by
  cases cs with
  | nil => simp
  | cons =>
    rintro ⟨⟩
    cases h

theorem Line.closes_eq_false (h : scan [] l.content.toString.toList = some opened) : l.closes = false := by
  simpa [Line.closes] using head?_ne_of_scan h

theorem Laid.toLine {indent : Nat} (delim : Bool) (h : Laid (depth + indent) opened items opened') :
    Laid depth opened (items.map (o.toLine indent delim)) opened' := by
  induction items generalizing opened with
  | nil => exact h
  | cons i _ ih =>
    obtain ⟨hi, mid, hscan, hrest⟩ := h
    have hloose (c : Content) (hc : Flat [.ofContent c]) : (Line.mk o indent delim c).closes = false := by
      have hscan : scan [] c.toString.toList = some [] := by
        simpa [scanItems_cons, toString_ofContent] using hc []
      exact Line.closes_eq_false hscan
    refine ⟨?_, mid, by rw [scan_toLine, hscan], ih hrest⟩
    cases i with
    | line l =>
      have hcloses : ({ l with indent := l.indent + indent } : Line).closes = l.closes := rfl
      rw [Item.Fits] at hi
      rw [Origin.toLine, Item.Fits, hcloses]
      dsimp only
      omega
    | piece p => simpa [Item.Fits, Origin.toLine, Item.toContent, hloose (.piece p) hi.2] using hi.1
    | bare v => simpa [Item.Fits, Origin.toLine, Item.toContent, hloose (.bare v) hi.2] using hi.1

theorem Block.flat (h : Block items) : Flat items :=
  fun opened => (h opened).scanItems

theorem block_nil : Block [] :=
  fun _ => rfl

theorem Block.append (h : Block items) (hmore : Block more) : Block (items ++ more) :=
  fun opened => (h opened).append (hmore opened)

theorem Block.toLine (delim : Bool) (h : Block items) : Block (items.map (o.toLine 0 delim)) :=
  fun opened => (h opened).toLine delim

theorem Block.between (h : Block items) :
    Laid (opened.count '\x7b') ('\x7b' :: opened) (o.block items) ('\x7b' :: opened) := by
  refine Laid.toLine true ?_
  simpa using h ('\x7b' :: opened)

theorem block_flatMap {α : Type} {f : α → List Item} {as : List α} (h : ∀ a ∈ as, Block (f a)) :
    Block (as.flatMap f) := by
  induction as with
  | nil => exact block_nil
  | cons _ _ ih =>
    rw [List.forall_mem_cons] at h
    exact h.1.append (ih h.2)

theorem part_ne_line : o.part label items ≠ .line l := by
  unfold Origin.part
  split
  next l => cases l.content <;> simp [Item.ofContent]
  · simp

theorem block_part (h : Flat items) : Block [o.part label items] := by
  intro opened
  have hflat : Flat [o.part label items] := by
    intro _
    rw [scanItems_cons, scan_part, h]
    rfl
  refine ⟨?_, opened, by rw [scan_part, h], rfl⟩
  cases hpart : o.part label items with
  | line => exact (part_ne_line hpart).elim
  | piece => exact ⟨rfl, hpart ▸ hflat⟩
  | bare => exact ⟨rfl, hpart ▸ hflat⟩

theorem block_line (hindent : l.indent = 0) (h : Neutral l.content.toString) : Block [.line l] := by
  intro opened
  refine ⟨?_, opened, by rw [scan_line, h.scan], rfl⟩
  simp [Item.Fits, hindent, Line.closes_eq_false h]

theorem block_lineOf (delim : Bool) (h : Flat items) : Block [o.lineOf delim items] := by
  refine block_line rfl ?_
  simpa [Content.toString, Piece.toString, joinAll_toPiece] using flat_iff.mp h

theorem block_textLine (delim : Bool) (h : Neutral s) : Block [o.textLine delim s] :=
  block_line rfl h

/-! ### Braces -/

theorem laid_opening (hindent : l.indent = 0)
    (h : ∀ opened, scan opened l.content.toString.toList = some ('\x7b' :: opened)) :
    Laid (opened.count '\x7b') opened [.line l] ('\x7b' :: opened) := by
  refine ⟨?_, _, by rw [scan_line, h], rfl⟩
  simp [Item.Fits, hindent, Line.closes_eq_false (h [])]

theorem laid_lineOf_opening (h : ∀ opened, scanItems opened items = some ('\x7b' :: opened)) :
    Laid (opened.count '\x7b') opened [o.lineOf false items] ('\x7b' :: opened) := by
  refine laid_opening rfl fun opened => ?_
  simpa [Content.toString, Piece.toString, joinAll_toPiece, scanItems] using h opened

theorem laid_textLine_opening (h : ∀ opened, scan opened s.toList = some ('\x7b' :: opened)) :
    Laid (opened.count '\x7b') opened [o.textLine false s] ('\x7b' :: opened) :=
  laid_opening rfl h

theorem laid_reopening (hhead : (Item.joinAll items).toList.head? = some '\x7d')
    (h : scanItems ('\x7b' :: opened) items = some ('\x7b' :: opened)) :
    Laid (opened.count '\x7b') ('\x7b' :: opened) [o.lineOf false items] ('\x7b' :: opened) := by
  refine ⟨?_, _, by rw [scan_lineOf, h], rfl⟩
  simp [Item.Fits, Origin.lineOf, Line.closes, Content.toString, Piece.toString, joinAll_toPiece, hhead]

theorem laid_closing (delim : Bool) :
    Laid (opened.count '\x7b') ('\x7b' :: opened) [o.textLine delim "\x7d"] opened := by
  have hscan : scan ('\x7b' :: opened) "\x7d".toList = some opened := rfl
  refine ⟨?_, opened, (scan_line _).trans hscan, rfl⟩
  simp [Item.Fits, Origin.textLine, Line.closes, Content.toString, Piece.toString]

/-! ### Verbatim text -/

theorem neutral_strip (h : bracketFree s = true) : Neutral (Text.strip s) := by
  refine neutral_of_bracketFree (bracketFree_iff_hide.mpr ?_)
  rw [← strip_hide, bracketFree_iff_hide.mp h]

theorem bracketFree_of_mem_splitLines {line : String} (h : bracketFree s = true)
    (hline : line ∈ Text.splitLines s) : bracketFree line = true := by
  rw [← bracketFree_iff_hide.mp h, splitLines_hide] at hline
  obtain ⟨shown, -, rfl⟩ := List.mem_map.mp hline
  exact bracketFree_hide shown

theorem bracketFree_quote (h : bracketFree s = true) : bracketFree (Text.quote s) = true := by
  rw [bracketFree_iff_hide, ← quote_hide, bracketFree_iff_hide.mp h]

theorem block_multiLine {opening closing pad value : String} (hopening : Neutral opening)
    (hclosing : Neutral closing) (hpad : Neutral pad) (hvalue : bracketFree value = true) :
    Block (o.multiLine opening closing pad value) := by
  have hend : Neutral (if opening != "" && closing == "" then opening else closing) := by
    split <;> assumption
  have hpair {s t : String} (hs : Neutral s) (ht : Neutral t) : Flat [.piece (.text s), .piece (.text t)] :=
    (flat_str hs).append (flat_str ht)
  unfold Origin.multiLine
  dsimp only
  generalize (if opening != "" && closing == "" then opening else closing) = closing at hend ⊢
  split
  next first second rest hsplit =>
    have hline {line : String} (h : line ∈ first :: second :: rest) : Neutral (Text.strip line) :=
      neutral_strip (bracketFree_of_mem_splitLines hvalue (hsplit ▸ h))
    have hlast : (second :: rest).getLastD "" ∈ second :: rest := by
      rw [List.getLastD_eq_getLast?, List.getLast?_eq_some_getLast (List.cons_ne_nil second rest)]
      exact List.getLast_mem _
    have hmiddle : Block ((second :: rest).dropLast.map fun l => o.textLine false (Text.strip l)) := by
      rw [List.map_eq_flatMap]
      exact block_flatMap fun l hl =>
        block_textLine false (hline (List.mem_cons_of_mem _ (List.dropLast_subset _ hl)))
    have hfirst : Flat _ := hpair hopening (hline (List.mem_cons_self ..))
    have hend : Flat _ := hpair (hline (List.mem_cons_of_mem _ hlast)) hend
    exact (((block_part hfirst).toLine false).append hmiddle).append ((block_part hend).toLine false)
  · refine block_part ?_
    have hvalue := neutral_of_bracketFree hvalue
    exact (flat_str hopening).append ((flat_str hpad).append ((flat_str hvalue).append
      ((flat_str hpad).append (flat_str hend))))

/-! ### Trees -/

attribute [local simp] scanItems_cons scan isOpening isClosing partner

theorem laid_opening_block (hopening : ∀ opened, scanItems opened items = some ('\x7b' :: opened))
    (hbody : Block more) :
    Laid (opened.count '\x7b') opened (o.lineOf false items :: o.block more) ('\x7b' :: opened) :=
  (laid_lineOf_opening hopening).append hbody.between

theorem laid_reopening_block (hhead : (Item.joinAll items).toList.head? = some '\x7d')
    (hreopening : scanItems ('\x7b' :: opened) items = some ('\x7b' :: opened)) (hbody : Block more) :
    Laid (opened.count '\x7b') ('\x7b' :: opened) (o.lineOf false items :: o.block more) ('\x7b' :: opened) :=
  (laid_reopening hhead hreopening).append hbody.between

theorem laid_optional (omitted : Bool) (h : Laid depth opened items opened) :
    Laid depth opened (if omitted then [] else items) opened := by
  cases omitted with
  | true => rfl
  | false => exact h

theorem block_braces (hopening : ∀ opened, scanItems opened items = some ('\x7b' :: opened))
    (hbody : Block more) (delim : Bool) :
    Block (o.lineOf false items :: o.block more ++ [o.textLine delim "\x7d"]) :=
  fun _ => (laid_opening_block hopening hbody).append (laid_closing delim)

/-- Items are balanced, and if they may stand on lines of their own, they are indented by the braces that are
open. -/
structure Lays (alone : Bool) (items : List Item) : Prop where
  flat : Flat items
  block : alone = true → Block items

theorem Block.lays (alone : Bool) (h : Block items) : Lays alone items :=
  ⟨h.flat, fun _ => h⟩

variable {js : List Js}

theorem scanItems_commas (h : ∀ items ∈ each, Flat items) :
    scanItems opened (separated [str ", "] each) = some opened :=
  flat_commas h opened

theorem flat_parameters (hargs : ∀ j ∈ args, Flat j.items)
    (hrest : Flat rest.items) (hkwargs : ∀ j ∈ kwargs, Flat j.items) :
    Flat (parameters o (itemsEach args) (if rest.isTruthy then some rest.items else none) (itemsEach kwargs)) := by
  have hkwargs := flat_commas (forall_mem_itemsEach.mpr hkwargs)
  have hparens {items : List Item} (h : Flat items) : Flat ([str "("] ++ items ++ [str ") "]) := by
    intro _
    simp [h.eq]
  refine hparens (flat_commas (List.forall_mem_append.mpr ⟨List.forall_mem_append.mpr
    ⟨forall_mem_itemsEach.mpr hargs, ?_⟩, ?_⟩))
  · split
    · simp
    · refine List.forall_mem_singleton.mpr fun _ => ?_
      simp [hkwargs.eq]
  · split <;> simp [hrest]

theorem block_import {i : Import} (h : i.Clean) : Block (i.items o) := by
  cases i with
  | depend =>
    refine block_lineOf true fun opened => ?_
    simp [(neutral_of_bracketFree h).scan]
  | named module names =>
    obtain ⟨hmodule, hnames⟩ := h
    have hbraces {items : List Item} (h : Flat items) :
        Flat ([str "import \x7b"] ++ items ++ [str "\x7d from '", str module, str "'"]) := by
      intro _
      simp [h.eq, (neutral_of_bracketFree hmodule).scan]
    refine block_lineOf true (hbraces (flat_commas fun _ hitems => ?_))
    obtain ⟨n, hn, rfl⟩ := List.mem_map.mp hitems
    obtain ⟨hname, hother⟩ := hnames n ((sortImports_perm names).mem_iff.mp hn)
    have hname := neutral_of_bracketFree hname
    split
    next other heq =>
      split
      · exact (block_part (flat_str hname)).flat
      · refine (block_part fun _ => ?_).flat
        simp [hname.scan, (neutral_of_bracketFree (hother other heq)).scan]
    · exact (block_part (flat_str hname)).flat
  | star =>
    refine block_lineOf true fun _ => ?_
    simp [(neutral_of_bracketFree h.1).scan, (neutral_of_bracketFree h.2).scan]
  | default =>
    refine block_lineOf true fun _ => ?_
    simp [(neutral_of_bracketFree h.1).scan, (neutral_of_bracketFree h.2).scan]

theorem lays_func {f : Func} {name : Option String} {body : List Js}
    (hname : Neutral (name.getD "")) (hparams : Flat (parameters o (itemsEach args)
      (if rest.isTruthy then some rest.items else none) (itemsEach kwargs))) (hbody : Block (itemsAll body)) :
    Lays (Js.func o f name args body rest kwargs).standsAlone (Js.func o f name args body rest kwargs).items := by
  rw [Js.items.eq_def]
  dsimp only
  split
  next hempty =>
    refine ⟨fun opened => ?_, fun halone => ?_⟩
    · have hopening : ∀ opened, scanItems opened (parameters o (itemsEach args)
          (if rest.isTruthy then some rest.items else none) (itemsEach kwargs) ++ [str "=> ", str "\x7b"]) =
            some ('\x7b' :: opened) := by
        intro _
        simp [hparams.eq]
      rw [scanItems_append, (laid_opening_block hopening hbody).scanItems]
      simp
    · simp [Js.standsAlone, hempty] at halone
  · refine (block_braces (fun _ => ?_) hbody true).lays _
    simp [hparams.eq, hname.scan]
  next f _ _ _ _ =>
    refine (block_braces (fun _ => ?_) hbody false).lays _
    have hword : Neutral f.word := by cases f <;> decide
    simp [hparams.eq, hname.scan, hword.scan]

theorem clean_of_mem_flattenOnce {js : List Js} (h : ∀ j ∈ js, j.Clean ∧ j.standsAlone = true) {k : Js}
    (hk : k ∈ flattenOnce js) : k.Clean ∧ k.standsAlone = true := by
  obtain ⟨j, hj, hk⟩ := List.mem_flatMap.mp hk
  split at hk
  · exact blockClean_iff.mp (h _ hj).1 k hk
  · exact List.mem_singleton.mp hk ▸ h j hj

theorem neutral_words : (∀ a : Atom, Neutral a.word) ∧ (∀ s : Operator, Neutral s.symbol) ∧
    (∀ k : Jump, Neutral k.word) ∧ (∀ m : Mark, Neutral m.word) ∧ (∀ d : Declarer, Neutral d.word) ∧
    (∀ c : Command, Neutral c.word) ∧ ∀ each : Each, Neutral each.word := by
  refine ⟨?_, ?_, ?_, ?_, ?_, ?_, ?_⟩ <;> intro w <;> cases w <;> decide

theorem Js.lays_items (j : Js) (h : j.Clean) : Lays j.standsAlone j.items := by
  induction j using Js.parts_induction with | step j ih
  have hflat : ∀ k ∈ j.parts, k.Clean → Flat k.items := fun k hk hclean => (ih k hk hclean).flat
  have hscan : ∀ k ∈ j.parts, k.Clean → ∀ opened, scanItems opened k.items = some opened :=
    fun k hk hclean => (hflat k hk hclean).eq
  have hblock (es : List Js) (hes : ∀ k ∈ es, k ∈ j.parts) (hclean : ∀ k ∈ es, k.Clean ∧ k.standsAlone = true) :
      Block (itemsAll es) := by
    rw [itemsAll_eq_flatMap]
    exact block_flatMap fun k hk => (ih k (hes k hk) (hclean k hk).1).block (hclean k hk).2
  obtain ⟨hatom, hop, hjump, hmark, hdeclarer, hcommand, heach⟩ := neutral_words
  cases j
  all_goals
    simp only [Js.Clean, allClean_iff, blockClean_iff] at h
    simp only [Js.parts, List.forall_mem_cons, List.forall_mem_append] at hflat hscan
  case bare v =>
    have hflat : Flat [.bare v] := flat_str (neutral_of_bracketFree (bracketFree_scalar v))
    exact Block.lays _ fun opened => ⟨⟨rfl, hflat⟩, opened, by simpa using hflat opened, rfl⟩
  case text s =>
    have hflat : Flat [str s] := flat_str h
    rw [Js.items]
    exact Block.lays _ fun opened => ⟨⟨rfl, hflat⟩, opened, by simpa using hflat opened, rfl⟩
  case json o value =>
    obtain ⟨_, rfl, hs⟩ := h
    rw [Js.items]
    exact (block_part (flat_str (neutral_of_bracketFree (bracketFree_quote hs)))).lays _
  case pass o => exact block_nil.lays _
  case template o value => exact (block_multiLine (by decide) (by decide) (by decide) h).lays _
  case literal o value | comment o value =>
    exact ((block_multiLine (by decide) (by decide) (by decide) h).toLine false).lays _
  case tagged o value tag =>
    rw [Js.items]
    exact (block_part ((hflat.1 h.2).append (block_multiLine (by decide) (by decide) (by decide) h.1).flat)).lays _
  case importOf o i => exact (block_import h).lays _
  case statements o items =>
    rw [Js.items, slottedItems_eq_map]
    refine (block_flatMap fun _ heach => ?_).lays _
    obtain ⟨_, hmem⟩ := mem_of_mem_arrange heach
    obtain ⟨k, hk, heq⟩ := List.mem_map.mp hmem
    cases heq
    obtain ⟨hclean, halone⟩ := clean_of_mem_flattenOnce h hk
    exact ((ih k (by simp [hk]) hclean).block halone).toLine true
  all_goals simp +contextual [h] at hflat hscan
  case func o f given args body rest kwargs =>
    exact lays_func h.1 (flat_parameters hflat.2.1.1 hflat.1 hflat.2.2) (hblock body (by simp +contextual) h.2.2.1)
  all_goals rw [Js.items]
  case call o operator callee args kwargs =>
    have hlast : ∀ items ∈ if kwargs.isTruthy then [kwargs.items] else [], Flat items := by
      split <;> simp [hflat]
    have hcommas := flat_commas (List.forall_mem_append.mpr ⟨forall_mem_itemsEach.mpr hflat.2.2, hlast⟩)
    refine (block_part fun opened => ?_).lays _
    simp only [scanItems_append, hcommas.eq, hscan, scanItems_cons, scan_str, h.1.scan]
    simp
  case tests o conj ops lefts rights =>
    have hsep : Flat ([str " "] ++ conj.items ++ [str " "]) :=
      ((flat_str (by decide)).append hflat.1).append (flat_str (by decide))
    have hall := flat_separated hsep (forall_mem_testItems (itemsEach ops) (itemsEach lefts) (itemsEach rights)
      (by simp +contextual [itemsEach_eq_map, Flat, hscan]))
    refine (block_part fun opened => ?_).lays _
    simp only [scanItems_append, hall.eq]
    simp
  case dict o keys values =>
    have hall := flat_commas (forall_mem_pairItems (itemsEach keys) (itemsEach values)
      (by simp +contextual [itemsEach_eq_map, Flat, hscan]))
    refine (block_part fun opened => ?_).lays _
    simp [hall.eq]
  case declare o d movable keys values =>
    have hall := flat_commas (forall_mem_declarations keys (valueItems values)
      (by simp +contextual [valueItems_eq_map, Flat, hscan, h, Neutral.scan]))
    exact (block_part ((flat_str (hdeclarer d)).append hall)).lays _
  case ret o value =>
    split
    · exact (block_lineOf true ((flat_str (by decide)).append hflat)).lays _
    · exact (block_textLine true (by decide)).lays _
  case ifStmt o test body orelse =>
    have hbody := hblock body (by simp +contextual) h.2.1
    have horelse := hblock orelse (by simp +contextual) h.2.2
    refine Block.lays _ fun opened => ((laid_opening_block (fun opened => ?_) hbody).append
      (laid_optional _ (laid_reopening_block rfl rfl horelse))).append (laid_closing false)
    simp [hscan]
  case tryStmt o body target catchBody finallyBody =>
    have hbody := hblock body (by simp +contextual) h.1
    have hcatch := hblock catchBody (by simp +contextual) h.2.2.1
    have hfinally := hblock finallyBody (by simp +contextual) h.2.2.2
    refine Block.lays _ fun opened => ((((laid_textLine_opening fun _ => rfl).append hbody.between).append
      (laid_optional _ (laid_reopening_block ?_ ?_ hcatch))).append
      (laid_optional _ (laid_reopening_block rfl rfl hfinally))).append (laid_closing false)
    · simp
    · simp [hscan]
  case member o m static called args body rest kwargs =>
    have hparams := flat_parameters (o := o) hflat.2.1.1 hflat.1 hflat.2.2
    have hhead : Neutral (m.head called) := by
      cases m with
      | constructor => exact (by decide : Neutral "constructor")
      | method => exact h.1
      | _ => exact Neutral.append (by decide) h.1
    refine (block_braces (fun opened => ?_) (hblock body (by simp +contextual) h.2.2.1) false).lays _
    cases static <;> simp [hparams.eq, hhead.scan]
  case classDef o id superclass members =>
    refine (block_braces (fun opened => ?_) (hblock members (by simp +contextual) h.2.2) false).lays _
    split <;> simp [hscan]
  all_goals
    first
    | refine (block_part fun _ => ?_).lays _
    | refine (block_lineOf true fun _ => ?_).lays _
    | refine (block_braces (fun _ => ?_) (hblock _ (by simp +contextual) (by simp +contextual [h])) false).lays _
    simp +contextual [hscan, h, Neutral.scan, scanItems_commas, forall_mem_itemsEach, hflat, hatom, hop, hjump,
      hmark, hcommand, heach]

end Transpiler.Script
