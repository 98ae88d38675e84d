import Transpiler.Proofs.Script.Nodes
import Transpiler.Proofs.Script.Places
import Transpiler.Script.Render

/-!
# Where output comes from

`Traced Q` says of laid-out text, and of the trees it is made from, that every node it remembers has
an origin that satisfies `Q`, that no group is given an empty name, and that no bare value stands on a
line of its own. Main statements:

* `Line.Traced.exists_fragments`: lines of traced text can be mapped, and each of their fragments has
  a name that is not empty, if it has one, and the source place of a node that satisfies `Q`;
* `Js.traced_items`: a traced tree is laid out as traced text.
-/

namespace Transpiler.Script

variable {Q : Origin → Prop} {js : List Js} {name : Option String} {i : Item} {label : Label} {xss : List (List Item)}
  {j : Js} {ks : List Js} {α : Type} {f : α → Js} {xs : List α} {s : String}

/-! ### Fragments of traced text -/

def Fragment.Traced (Q : Origin → Prop) (f : Fragment) : Prop :=
  f.name ≠ some "" ∧
    ∃ o, Q o ∧ o.line? = some f.srcLine ∧ f.srcCol = (o.source.map (·.col)).getD 0

inductive Piece.Traced (Q : Origin → Prop) : Piece → Prop
  | text (s : String) : Traced Q (.text s)
  | group {o : Origin} {label : Label} {parts : List Piece} (origin : Q o)
      (named : label ≠ .named "") (inner : ∀ p ∈ parts, Traced Q p) :
      Traced Q (.group o label parts)

theorem Fragment.Traced.shift {f : Fragment} (h : f.Traced Q) (n : Nat) : (f.shift n).Traced Q :=
  h

theorem Origin.traced_fragment {o : Origin} (ho : Q o) (hname : name ≠ some "")
    (col : Nat) (text : String) : ∀ f ∈ o.fragment name col text, f.Traced Q := by
  intro _ hf
  rw [fragment] at hf
  split at hf
  next hline =>
    obtain rfl := List.mem_singleton.mp hf
    exact ⟨hname, o, ho, hline, rfl⟩
  · simp at hf

theorem Piece.traced_runs {o : Origin} (ho : Q o) (hname : name ≠ some "")
    {parts : List Piece} (hparts : ∀ p ∈ parts, ∀ f ∈ p.fragments, f.Traced Q) :
    ∀ (run : String) (col : Nat), ∀ f ∈ runs o name run col parts, f.Traced Q := by
  have hrun (run : String) (col : Nat) : ∀ f ∈ (if run == "" then [] else o.fragment name col run), f.Traced Q := by
    split
    · simp
    · exact o.traced_fragment ho hname col run
  induction parts with
  | nil =>
    intro run col
    rw [runs]
    exact hrun run col
  | cons p _ ih =>
    have ih := ih fun p' hp' => hparts p' (by simp [hp'])
    intro run col
    cases p with
    | text s =>
      rw [runs]
      exact ih (run ++ s) col
    | group =>
      rw [runs]
      intro f hf
      rcases List.mem_append.mp hf with hf | hf
      · rcases List.mem_append.mp hf with hf | hf
        · exact hrun run col f hf
        · obtain ⟨g, hg, rfl⟩ := List.mem_map.mp hf
          exact (hparts _ (by simp) g hg).shift _
      · exact ih _ _ f hf

theorem Piece.Traced.fragments {p : Piece} (h : p.Traced Q) : ∀ f ∈ p.fragments, f.Traced Q := by
  induction h with
  | text => simp [Piece.fragments]
  | @group o label parts ho hnamed _ ih =>
    intro f hf
    -- a group with a fragment has text, so it is not named by an empty one
    have htext : joinAll parts ≠ "" := by
      have := (tiles_fragments (.group o label parts)).ne_nil_of_mem hf
      simpa [Piece.toString] using this
    rw [Piece.fragments] at hf
    split at hf
    · refine traced_runs ho ?_ ih "" 0 f hf
      cases label with
      | none => simp [Label.nameFor]
      | own => simpa [Label.nameFor] using htext
      | named => simpa [Label.nameFor] using hnamed
    · simp at hf

/-! ### Traced items -/

def Line.Traced (Q : Origin → Prop) (l : Line) : Prop :=
  Q l.origin ∧ ∃ p, l.content = .piece p ∧ p.Traced Q

def Item.Traced (Q : Origin → Prop) (mayBeBare : Prop) : Item → Prop
  | .line l => l.Traced Q
  | .piece p => p.Traced Q
  | .bare _ => mayBeBare

def ItemsTraced (Q : Origin → Prop) (mayBeBare : Prop) (items : List Item) : Prop :=
  ∀ i ∈ items, i.Traced Q mayBeBare

theorem Line.Traced.exists_fragments {l : Line} (h : l.Traced Q) :
    ∃ fs, (Item.line l).fragments? = .ok fs ∧ ∀ f ∈ fs, f.Traced Q := by
  obtain ⟨ho, p, hp, htraced⟩ := h
  rcases hmapped : l.origin.isMapped with _ | _
  · exact ⟨[], by simp [Item.fragments?, hmapped], by simp⟩
  · cases p with
    | text s =>
      refine ⟨l.origin.fragment none (indentStep * l.indent) s, ?_, ?_⟩
      · simp [Item.fragments?, hmapped, hp]
      · exact l.origin.traced_fragment ho (by simp) _ _
    | group o label parts =>
      refine ⟨(Piece.group o label parts).fragments.map (Fragment.shift (indentStep * l.indent)), ?_, ?_⟩
      · simp [Item.fragments?, hmapped, hp]
      · intro _ hf
        obtain ⟨g, hg, rfl⟩ := List.mem_map.mp hf
        exact (htraced.fragments g hg).shift _

variable {b : Prop} {o : Origin} {items : List Item}

theorem Item.Traced.loose (h : i.Traced Q b) : i.Traced Q True := by
  cases i with
  | line => exact h
  | piece => exact h
  | bare => trivial

theorem Item.Traced.toPiece (h : i.Traced Q True) : i.toPiece.Traced Q := by
  cases i with
  | line => exact .text _
  | piece => exact h
  | bare => exact .text _

theorem ItemsTraced.loose (h : ItemsTraced Q b items) : ItemsTraced Q True items :=
  fun i hi => (h i hi).loose

@[simp]
theorem itemsTraced_nil : ItemsTraced Q b [] := by
  simp [ItemsTraced]

@[simp]
theorem itemsTraced_cons : ItemsTraced Q b (i :: items) ↔ i.Traced Q b ∧ ItemsTraced Q b items := by
  simp [ItemsTraced]

@[simp]
theorem itemsTraced_append {more : List Item} :
    ItemsTraced Q b (items ++ more) ↔ ItemsTraced Q b items ∧ ItemsTraced Q b more :=
  List.forall_mem_append

@[simp]
theorem traced_text (s : String) : (Item.piece (.text s)).Traced Q b :=
  Piece.Traced.text s

@[simp]
theorem traced_str (s : String) : (str s).Traced Q b :=
  traced_text s

theorem Origin.traced_group (ho : Q o) (hlabel : label ≠ .named "")
    (h : ItemsTraced Q True items) : (Piece.group o label (items.map Item.toPiece)).Traced Q := by
  refine .group ho hlabel fun p hp => ?_
  obtain ⟨i, hi, rfl⟩ := List.mem_map.mp hp
  exact (h i hi).toPiece

@[simp]
theorem Origin.traced_part (ho : Q o) (hlabel : label ≠ .named "")
    (h : ItemsTraced Q True items) : (o.part label items).Traced Q b := by
  unfold part
  split
  next l =>
    obtain ⟨-, _, hp, htraced⟩ : l.Traced Q := h (.line l) (by simp)
    rw [hp]
    exact htraced
  · exact traced_group ho hlabel h

@[simp]
theorem Origin.traced_lineOf (delim : Bool) (ho : Q o) (h : ItemsTraced Q True items) :
    (o.lineOf delim items).Traced Q b :=
  ⟨ho, _, rfl, traced_group ho (by simp) h⟩

@[simp]
theorem Origin.traced_textLine (delim : Bool) (s : String) (ho : Q o) : (o.textLine delim s).Traced Q b :=
  ⟨ho, _, rfl, .text s⟩

theorem Origin.traced_toLine (indent : Nat) (delim : Bool) (ho : Q o)
    (h : i.Traced Q False) : (o.toLine indent delim i).Traced Q b := by
  cases i with
  | line =>
    obtain ⟨hl, p, hp, htraced⟩ := h
    exact ⟨hl, p, hp, htraced⟩
  | piece p => exact ⟨ho, p, rfl, h⟩
  | bare => exact h.elim

theorem Origin.itemsTraced_map_toLine (indent : Nat) (delim : Bool) (ho : Q o)
    (h : ItemsTraced Q False items) : ItemsTraced Q b (items.map (o.toLine indent delim)) := by
  intro _ hi
  obtain ⟨j, hj, rfl⟩ := List.mem_map.mp hi
  exact traced_toLine indent delim ho (h j hj)

@[simp]
theorem Origin.itemsTraced_block (ho : Q o) (h : ItemsTraced Q False items) : ItemsTraced Q b (o.block items) :=
  itemsTraced_map_toLine 1 true ho h

@[simp]
theorem Origin.itemsTraced_multiLine (opening closing pad value : String) (ho : Q o) :
    ItemsTraced Q b (o.multiLine opening closing pad value) := by
  intro _ hi
  rw [multiLine] at hi
  split at hi
  · simp only [List.cons_append, List.mem_cons, List.mem_append, List.mem_map, List.not_mem_nil, or_false] at hi
    rcases hi with rfl | ⟨_, -, rfl⟩ | rfl
    · exact traced_toLine 0 false ho (traced_part ho (by simp) (by simp))
    · exact traced_textLine false _ ho
    · exact traced_toLine 0 false ho (traced_part ho (by simp) (by simp))
  · obtain rfl := List.mem_singleton.mp hi
    exact traced_part ho (by simp) (by simp)

theorem itemsTraced_separated {sep : List Item} (hsep : ItemsTraced Q b sep) (h : ∀ xs ∈ xss, ItemsTraced Q b xs) :
    ItemsTraced Q b (separated sep xss) := by
  fun_induction separated sep xss with
  | case1 => simp
  | case2 xs => exact h xs (by simp)
  | case3 xs _ _ ih =>
    have hrest := ih fun ys hys => h ys (by simp [hys])
    simp [h xs (by simp), hsep, hrest]

@[simp]
theorem itemsTraced_commas_iff : ItemsTraced Q b (separated [str ", "] xss) ↔ ∀ xs ∈ xss, ItemsTraced Q b xs := by
  fun_induction separated [str ", "] xss with
  | case1 => simp
  | case2 => simp
  | case3 _ _ _ ih => simp [ih]

/-! ### Traced trees -/

def Js.isBare : Js → Bool
  | .bare _ => true
  | _ => false

def NoBare (js : List Js) : Prop :=
  ∀ j ∈ js, j.isBare = false

mutual
/-- Every node of a tree satisfies `Q`; no statement is a bare value; and what is assigned to in place
has a text. -/
def Js.Traced (Q : Origin → Prop) : Js → Prop
  | .bare _ | .text _ => True
  | .num o _ | .json o _ | .atom o _ | .op o _ | .template o _ | .literal o _ | .jump o _
  | .importOf o _ | .pass o | .comment o _ => Q o
  | .name o e | .paren o e | .dot o e _ | .keySubscript o e | .tagged o _ e | .marked o _ e
  | .exprStmt o e | .ret o e | .command o _ e | .exportDefault o e => Q o ∧ e.Traced Q
  | .assign o a b | .subscript o a b | .unaryOp o a b => Q o ∧ a.Traced Q ∧ b.Traced Q
  | .ifExp o a b c | .binOp o a b c => Q o ∧ a.Traced Q ∧ b.Traced Q ∧ c.Traced Q
  | .call o _ func args kwargs => Q o ∧ func.Traced Q ∧ AllTraced Q args ∧ kwargs.Traced Q
  | .tests o conj ops lefts rights =>
    Q o ∧ conj.Traced Q ∧ AllTraced Q ops ∧ AllTraced Q lefts ∧ AllTraced Q rights
  | .dict o keys values => Q o ∧ AllTraced Q keys ∧ AllTraced Q values
  | .list o js | .declare o _ _ _ js | .exportNames o js => Q o ∧ AllTraced Q js
  | .statements o body => Q o ∧ NoBare body ∧ AllTraced Q body
  | .augAssign o target op value =>
    Q o ∧ Item.joinAll target.items ≠ "" ∧ target.Traced Q ∧ op.Traced Q ∧ value.Traced Q
  | .ifStmt o test body orelse =>
    Q o ∧ test.Traced Q ∧ NoBare body ∧ AllTraced Q body ∧ NoBare orelse ∧ AllTraced Q orelse
  | .whileStmt o test body => Q o ∧ test.Traced Q ∧ NoBare body ∧ AllTraced Q body
  | .forStmt o left test right body =>
    Q o ∧ left.Traced Q ∧ test.Traced Q ∧ right.Traced Q ∧ NoBare body ∧ AllTraced Q body
  | .forEach o _ target source body =>
    Q o ∧ target.Traced Q ∧ source.Traced Q ∧ NoBare body ∧ AllTraced Q body
  | .tryStmt o body target catchBody finallyBody =>
    Q o ∧ target.Traced Q ∧ NoBare body ∧ AllTraced Q body ∧ NoBare catchBody ∧
      AllTraced Q catchBody ∧ NoBare finallyBody ∧ AllTraced Q finallyBody
  | .func o _ _ args body rest kwargs | .member o _ _ _ args body rest kwargs =>
    Q o ∧ AllTraced Q args ∧ NoBare body ∧ AllTraced Q body ∧ rest.Traced Q ∧ AllTraced Q kwargs
  | .classDef o name superclass members =>
    Q o ∧ name.Traced Q ∧ superclass.Traced Q ∧ NoBare members ∧ AllTraced Q members

def AllTraced (Q : Origin → Prop) : List Js → Prop
  | [] => True
  | j :: rest => j.Traced Q ∧ AllTraced Q rest
end

attribute [simp] Js.Traced

@[simp]
theorem allTraced_nil : AllTraced Q [] := by
  rw [AllTraced]
  trivial

@[simp]
theorem allTraced_cons : AllTraced Q (j :: js) ↔ j.Traced Q ∧ AllTraced Q js := by
  rw [AllTraced]

theorem allTraced_iff : AllTraced Q js ↔ ∀ j ∈ js, j.Traced Q := by
  induction js with
  | nil => simp
  | cons _ _ ih => simp [ih]

@[simp]
theorem allTraced_append : AllTraced Q (js ++ ks) ↔ AllTraced Q js ∧ AllTraced Q ks := by
  simp only [allTraced_iff, List.forall_mem_append]

@[simp]
theorem allTraced_map : AllTraced Q (xs.map f) ↔ ∀ x ∈ xs, (f x).Traced Q := by
  simp [allTraced_iff]

@[simp]
theorem allTraced_replicate {n : Nat} : AllTraced Q (List.replicate n j) ↔ (n ≠ 0 → j.Traced Q) := by
  simp [allTraced_iff]

@[simp]
theorem Js.traced_absent : Js.absent.Traced Q := by
  simp [absent]

@[simp]
theorem Js.isBare_eq_false_iff : j.isBare = false ↔ ∀ v, j ≠ .bare v := by
  cases j <;> simp [Js.isBare]

@[simp]
theorem noBare_nil : NoBare [] := by
  simp [NoBare]

@[simp]
theorem noBare_cons : NoBare (j :: js) ↔ j.isBare = false ∧ NoBare js :=
  List.forall_mem_cons

@[simp]
theorem noBare_append : NoBare (js ++ ks) ↔ NoBare js ∧ NoBare ks :=
  List.forall_mem_append

@[simp]
theorem noBare_map : NoBare (xs.map f) ↔ ∀ x ∈ xs, (f x).isBare = false :=
  List.forall_mem_map

/-! ### Texts that are not empty -/

theorem Piece.joinAll_eq_empty_iff {ps : List Piece} : joinAll ps = "" ↔ ∀ p ∈ ps, p.toString = "" := by
  induction ps with
  | nil => simp [joinAll]
  | cons _ _ ih => simp [joinAll, ih]

theorem Origin.joinAll_part_ne_empty {o : Origin} (label : Label) {items : List Item}
    (hmem : str s ∈ items) (hs : s ≠ "") : Item.joinAll [o.part label items] ≠ "" := by
  unfold part
  split
  · simp [str] at hmem
  · intro hempty
    simp only [Item.joinAll_cons, Item.joinAll_nil, String.append_empty, Item.toString, Piece.toString] at hempty
    have := Piece.joinAll_eq_empty_iff.mp hempty _ (List.mem_map_of_mem hmem)
    exact hs (by simpa [str, Item.toPiece, Piece.toString] using this)

@[simp]
theorem joinAll_name_eq_empty_iff {o : Origin} : Item.joinAll (Js.name o (.text s)).items = "" ↔ s = "" := by
  simp [Js.items, Origin.part, str, Item.toString, Item.toPiece, Piece.toString, Piece.joinAll]

/-! ### The layout of lists of trees -/

theorem itemsAll_eq_flatMap (js : List Js) : itemsAll js = js.flatMap Js.items := by
  induction js with
  | nil => rfl
  | cons _ _ ih => rw [itemsAll, ih, List.flatMap_cons]

theorem itemsEach_eq_map (js : List Js) : itemsEach js = js.map Js.items := by
  induction js with
  | nil => rfl
  | cons _ _ ih => rw [itemsEach, ih, List.map_cons]

theorem valueItems_eq_map (js : List Js) : valueItems js = js.map fun j => (j.isAbsent, j.items) := by
  induction js with
  | nil => rfl
  | cons _ _ ih => rw [valueItems, ih, List.map_cons]

theorem slottedEach_eq_map (js : List Js) : slottedEach js = js.map fun j => (j.slot, j.items) := by
  induction js with
  | nil => rfl
  | cons _ _ ih => rw [slottedEach, ih, List.map_cons]

theorem slottedItems_eq_map (js : List Js) : slottedItems js = (flattenOnce js).map fun j => (j.slot, j.items) := by
  induction js with
  | nil => rfl
  | cons j _ ih =>
    rw [flattenOnce, List.flatMap_cons, List.map_append]
    cases j
    case statements o inner => rw [slottedItems, slottedEach_eq_map, ih]; rfl
    all_goals
      rw [slottedItems, ih]
      · rfl
      · simp

theorem mem_of_mem_arrange {xs : List (Slot × α)} {x : α} (h : x ∈ arrange xs) : ∃ s, (s, x) ∈ xs := by
  simp only [arrange, List.mem_map, List.mem_append] at h
  obtain ⟨⟨s, _⟩, h, rfl⟩ := h
  refine ⟨s, ?_⟩
  rcases h with ((h | h) | h) | h
  · exact List.mem_of_mem_filter ((List.takeWhile_sublist _).subset h)
  · exact List.mem_of_mem_filter h
  · exact List.mem_of_mem_filter h
  · exact List.mem_of_mem_filter ((List.dropWhile_sublist _).subset h)

/-! ### The layout of traced trees -/

theorem forall_mem_itemsEach {P : List Item → Prop} : (∀ xs ∈ itemsEach js, P xs) ↔ ∀ j ∈ js, P j.items := by
  rw [itemsEach_eq_map, List.forall_mem_map]

@[simp]
theorem itemsTraced_itemsAll : ItemsTraced Q b (itemsAll js) ↔ ∀ j ∈ js, ItemsTraced Q b j.items := by
  rw [itemsAll_eq_flatMap, ItemsTraced, List.forall_mem_flatMap]
  rfl

theorem forall_mem_pairItems {P : List Item → Prop} (ks vs : List (List Item))
    (h : ∀ k ∈ ks, ∀ v ∈ vs, P (k ++ [str ": "] ++ v)) : ∀ xs ∈ pairItems ks vs, P xs := by
  fun_induction pairItems ks vs with
  | case1 k _ _ _ ih =>
    simp only [List.forall_mem_cons] at h ⊢
    exact ⟨h.1.1, ih fun k hk => (h.2 k hk).2⟩
  | case2 => simp

theorem forall_mem_testItems {P : List Item → Prop} (ops ls rs : List (List Item))
    (h : ∀ op ∈ ops, ∀ l ∈ ls, ∀ r ∈ rs, P ([str "("] ++ l ++ [str " "] ++ op ++ [str " "] ++ r ++ [str ")"])) :
    ∀ xs ∈ testItems ops ls rs, P xs := by
  fun_induction testItems ops ls rs with
  | case1 op _ l _ _ _ ih =>
    simp only [List.forall_mem_cons] at h ⊢
    exact ⟨h.1.1.1, ih fun op hop l hl => ((h.2 op hop).2 l hl).2⟩
  | case2 => simp

theorem forall_mem_declarations {P : List Item → Prop} (keys : List String) (vs : List (Bool × List Item))
    (h : ∀ k ∈ keys, P [str k] ∧ ∀ v ∈ vs, P ([str k, str " = "] ++ v.2)) : ∀ xs ∈ declarations keys vs, P xs := by
  fun_induction declarations keys vs with
  | case1 k _ _ _ _ ih =>
    simp only [List.forall_mem_cons] at h ⊢
    refine ⟨?_, ih fun k hk => ⟨(h.2 k hk).1, (h.2 k hk).2.2⟩⟩
    split
    exacts [h.1.1, h.1.2.1]
  | case2 => simp

theorem itemsTraced_parameters {args kwargs : List Js} {rest : Js} (ho : Q o)
    (hargs : ∀ j ∈ args, ItemsTraced Q True j.items) (hrest : ItemsTraced Q True rest.items)
    (hkwargs : ∀ j ∈ kwargs, ItemsTraced Q True j.items) :
    ItemsTraced Q True (parameters o (itemsEach args) (if rest.isTruthy then some rest.items else none)
      (itemsEach kwargs)) := by
  have hkwargs := itemsTraced_commas_iff.mpr (forall_mem_itemsEach.mpr hkwargs)
  simp only [parameters, itemsTraced_append, itemsTraced_cons, itemsTraced_nil, traced_str, and_true, true_and]
  refine itemsTraced_commas_iff.mpr (List.forall_mem_append.mpr ⟨List.forall_mem_append.mpr
    ⟨forall_mem_itemsEach.mpr hargs, ?_⟩, ?_⟩)
  · split <;> simp [ho, hkwargs]
  · split <;> simp [hrest]

theorem itemsTraced_import (ho : Q o) (i : Import) : ItemsTraced Q b (i.items o) := by
  cases i with
  | depend => simp [Import.items, ho]
  | named =>
    simp only [Import.items, itemsTraced_cons, itemsTraced_nil, and_true]
    refine o.traced_lineOf true ho ?_
    simp only [itemsTraced_append, itemsTraced_cons, itemsTraced_nil, traced_str, and_true, true_and]
    refine itemsTraced_commas_iff.mpr fun _ hxs => ?_
    obtain ⟨_, -, rfl⟩ := List.mem_map.mp hxs
    split
    · split <;> simp [ho]
    · simp [ho]
  | star => simp [Import.items, ho]
  | default => simp [Import.items, ho]

theorem traced_of_mem_flattenOnce (hbare : NoBare js) (h : ∀ j ∈ js, j.Traced Q) {k : Js}
    (hk : k ∈ flattenOnce js) : k.Traced Q ∧ k.isBare = false := by
  obtain ⟨j, hj, hk⟩ := List.mem_flatMap.mp hk
  have htraced := h j hj
  split at hk
  · simp only [Js.Traced, allTraced_iff] at htraced
    exact ⟨htraced.2.2 k hk, htraced.2.1 k hk⟩
  · obtain rfl := List.mem_singleton.mp hk
    exact ⟨htraced, hbare k hj⟩

theorem Js.traced_items (j : Js) (h : j.Traced Q) : ItemsTraced Q (j.isBare = true) j.items := by
  induction j using Js.parts_induction with | step j ih
  have hinner : ∀ k ∈ j.parts, k.Traced Q → ItemsTraced Q True k.items := fun k hk hk' => (ih k hk hk').loose
  have houter : ∀ k ∈ j.parts, k.Traced Q → k.isBare = false → ItemsTraced Q False k.items := by
    intro k hk hk' hbare
    simpa [hbare] using ih k hk hk'
  clear ih
  cases j
  all_goals
    simp only [Js.Traced, allTraced_iff, NoBare] at h
    simp only [Js.parts, List.forall_mem_cons, List.forall_mem_append] at hinner houter
  case bare v => simp [Js.items, Item.Traced, Js.isBare]
  case literal o value | comment o value =>
    exact o.itemsTraced_map_toLine 0 false h (o.itemsTraced_multiLine _ _ _ value h)
  case importOf o i => exact itemsTraced_import h i
  case statements o body =>
    rw [Js.items]
    intro i hi
    obtain ⟨_, hxs, hi⟩ := List.mem_flatMap.mp hi
    obtain ⟨_, hxs⟩ := mem_of_mem_arrange hxs
    rw [slottedItems_eq_map] at hxs
    obtain ⟨j, hj, heq⟩ := List.mem_map.mp hxs
    cases heq
    obtain ⟨htraced, hbare⟩ := traced_of_mem_flattenOnce h.2.1 h.2.2 hj
    exact o.itemsTraced_map_toLine 0 true h.1 (houter.2 j hj htraced hbare) i hi
  all_goals try simp +contextual [-isBare_eq_false_iff, h] at hinner houter
  case func o f id args body rest kwargs =>
    have hparams := itemsTraced_parameters h.1 hinner.2.1.1 hinner.1 hinner.2.2
    rw [Js.items.eq_def]
    dsimp only
    split <;> simp +contextual [h, hparams, houter]
  case member o m static id args body rest kwargs =>
    have hparams := itemsTraced_parameters h.1 hinner.2.1.1 hinner.1 hinner.2.2
    cases static <;> simp +contextual [Js.items, h, hparams, houter]
  case tests o conj ops lefts rights =>
    have hall := forall_mem_testItems (P := ItemsTraced Q True) (itemsEach ops) (itemsEach lefts) (itemsEach rights)
      (by simp +contextual [itemsEach_eq_map, hinner])
    have hsep : ItemsTraced Q True ([str " "] ++ conj.items ++ [str " "]) := by simp [hinner]
    have hjoined := itemsTraced_separated hsep hall
    simp only [List.cons_append, List.nil_append] at hjoined
    simp [Js.items, h, hjoined]
  case dict o keys values =>
    have hall := forall_mem_pairItems (P := ItemsTraced Q True) (itemsEach keys) (itemsEach values)
      (by simp +contextual [itemsEach_eq_map, hinner])
    simp [Js.items, h, itemsTraced_commas_iff.mpr hall]
  case declare o d movable keys values =>
    have hall := forall_mem_declarations (P := ItemsTraced Q True) keys (valueItems values)
      (by simp +contextual [valueItems_eq_map, hinner])
    simp [Js.items, h, itemsTraced_commas_iff.mpr hall]
  case call o operator callee args kwargs =>
    have hlast : ∀ xs ∈ (if kwargs.isTruthy then [kwargs.items] else []), ItemsTraced Q True xs := by
      split <;> simp [hinner]
    have hall := List.forall_mem_append.mpr ⟨forall_mem_itemsEach.mpr hinner.2.2, hlast⟩
    simp [Js.items, h, hinner, itemsTraced_commas_iff.mpr hall]
  all_goals
    rw [Js.items]
    try split_ifs
    all_goals simp +contextual [h, hinner, houter, forall_mem_itemsEach]

end Transpiler.Script
