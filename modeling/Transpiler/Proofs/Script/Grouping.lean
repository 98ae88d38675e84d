import Transpiler.Proofs.Script.Prefixes

/-!
# How prefixes are grouped

A chain is an expression made of words, fields, subscripts, calls, `await` and `new`. Its row has the same
text, with every prefix put to the first word of it (`Js.row`). So two chains have the same text just if they
have the same row (`Chained.chars_eq_iff`).

The grouping of a row is fixed if no field, subscript or call belongs to an `await`, and if a call of what has
no capital has `new` only where all calls in the function have it (`Js.grouped`). Chains grouped so are equal
if their rows are (`Chained.shape_eq`).
-/

namespace Transpiler.Script

variable {pairs : List (String × Js)} {a b f g j : Js} {op s : String}

/-! ### Trees -/

def Js.ending? : Js → Option String
  | .name _ (.text s) => some s
  | .dot _ _ field => some field
  | _ => none

def Js.isAwait : Js → Bool
  | .marked _ .await _ => true
  | _ => false

structure IsPlain (s : String) : Prop where
  ne : s ≠ ""
  unbroken : Unbroken s.toList
  noBlank : ' ' ∉ s.toList

/-- An expression of words, fields, subscripts, calls, `await` and `new`. A call by a name with a capital has
`new` in any case. -/
inductive Chained (capital : String → Bool) : Js → Prop
  | name {o : Origin} {s : String} (hword : IsPlain s) (hthis : s ≠ "this") :
      Chained capital (.name o (.text s))
  | this {o : Origin} : Chained capital (.atom o .this)
  | dot {o : Origin} {obj : Js} {field : String} (hobj : Chained capital obj)
      (hfield : Unbroken field.toList) : Chained capital (.dot o obj field)
  | subscript {o : Origin} {obj key : Js} (hobj : Chained capital obj) (hkey : Chained capital key) :
      Chained capital (.subscript o obj key)
  | await {o : Origin} {value : Js} (hvalue : Chained capital value) :
      Chained capital (.marked o .await value)
  | call {o n : Origin} {op : String} {func : Js} {args : List Js} {pairs : List (String × Js)}
      (hfunc : Chained capital func) (hop : op = "new " ∨ op = "" ∧ func.ending?.any capital = false)
      (hargs : ∀ a ∈ args, Chained capital a) (hnamed : ∀ p ∈ pairs, Chained capital p.2) :
      Chained capital (.call o op func args (namedArgs n pairs))

mutual
def Js.shape : Js → Js
  | .name _ id => .name default id
  | .json _ value => .json default value
  | .atom _ a => .atom default a
  | .dot _ obj field => .dot default obj.shape field
  | .subscript _ obj key => .subscript default obj.shape key.shape
  | .marked _ m value => .marked default m value.shape
  | .call _ operator f args kwargs => .call default operator f.shape (shapeAll args) kwargs.shape
  | .dict _ keys values => .dict default (shapeAll keys) (shapeAll values)
  | j => j

def shapeAll : List Js → List Js
  | [] => []
  | j :: rest => j.shape :: shapeAll rest
end

def Js.prepend (s : String) : Js → Js
  | .name o (.text t) => .name o (.text (s ++ t))
  | .dot o obj field => .dot o (obj.prepend s) field
  | .subscript o obj key => .subscript o (obj.prepend s) key
  | .call o operator f args kwargs => .call o operator (f.prepend s) args kwargs
  | j => j

mutual
def Js.row : Js → Js
  | .name _ id => .name default id
  | .json _ value => .json default value
  | .atom _ a => .name default (.text a.word)
  | .dot _ obj field => .dot default obj.row field
  | .subscript _ obj key => .subscript default obj.row key.row
  | .marked _ m value => value.row.prepend m.word
  | .call _ operator f args kwargs => .call default "" (f.row.prepend operator) (rowAll args) kwargs.row
  | .dict _ keys values => .dict default (rowAll keys) (rowAll values)
  | j => j

def rowAll : List Js → List Js
  | [] => []
  | j :: rest => j.row :: rowAll rest
end

def Js.calls : Js → Nat
  | .dot _ obj _ | .subscript _ obj _ => obj.calls
  | .call _ _ f _ _ => f.calls + 1
  | _ => 0

def Js.news : Js → Nat
  | .dot _ obj _ | .subscript _ obj _ => obj.news
  | .call _ operator f _ _ => f.news + if operator = "" then 0 else 1
  | _ => 0

mutual
/-- Whether the grouping of a chain is the one that its text is for: nothing but a prefix belongs to an
`await`, and a call of what has no capital has `new` only if all calls in the function have. -/
def Js.grouped (capital : String → Bool) : Js → Bool
  | .dot _ obj _ => !obj.isAwait && obj.grouped capital
  | .subscript _ obj key => !obj.isAwait && obj.grouped capital && key.grouped capital
  | .marked _ _ value => value.grouped capital
  | .call _ operator f args kwargs =>
    !f.isAwait && (operator == "" || f.ending?.any capital || f.news == f.calls) &&
      f.grouped capital && groupedAll capital args && kwargs.grouped capital
  | .dict _ _ values => groupedAll capital values
  | _ => true

def groupedAll (capital : String → Bool) : List Js → Bool
  | [] => true
  | j :: rest => j.grouped capital && groupedAll capital rest
end

-- the equations are made here once, and not in each of the proofs that use them
attribute [local simp] Js.prepend Js.row Js.grouped

@[simp]
theorem shapeAll_eq_map (js : List Js) : shapeAll js = js.map Js.shape := by
  induction js with
  | nil => rfl
  | cons _ _ ih => rw [shapeAll, ih, List.map_cons]

@[simp]
theorem rowAll_eq_map (js : List Js) : rowAll js = js.map Js.row := by
  induction js with
  | nil => rfl
  | cons _ _ ih => rw [rowAll, ih, List.map_cons]

@[simp]
theorem groupedAll_iff {capital : String → Bool} {js : List Js} :
    groupedAll capital js = true ↔ ∀ j ∈ js, j.grouped capital = true := by
  induction js with
  | nil => simp [groupedAll]
  | cons _ _ ih => simp [groupedAll, ih]

theorem shape_namedArgs (n : Origin) (pairs : List (String × Js)) :
    (namedArgs n pairs).shape = namedArgs default (pairs.map fun p => (p.1, p.2.shape)) := by
  cases pairs <;> simp [namedArgs, Js.shape, Js.absent]

theorem row_namedArgs (n : Origin) (pairs : List (String × Js)) :
    (namedArgs n pairs).row = namedArgs default (pairs.map fun p => (p.1, p.2.row)) := by
  cases pairs <;> simp [namedArgs, Js.row, Js.absent]

theorem grouped_namedArgs {capital : String → Bool} {n : Origin} :
    (namedArgs n pairs).grouped capital = true ↔ ∀ p ∈ pairs, p.2.grouped capital = true := by
  cases pairs with
  | nil => simp [namedArgs, Js.grouped, Js.absent]
  | cons => rw [namedArgs, Js.grouped, groupedAll_iff, List.forall_mem_map]

/-! ### Texts of rows -/

theorem IsRow.prepend (h : IsRow j) (hs : Unbroken s.toList) : IsRow (j.prepend s) := by
  induction h with
  | @word _ hword hne =>
    refine .word ?_ ?_
    · rw [String.toList_append]
      exact List.forall_mem_append.mpr ⟨hs, hword⟩
    · simp [hne]
  | dot _ hfield ih => exact .dot ih hfield
  | subscript _ hkey ih => exact .subscript ih hkey
  | call _ hargs hnamed ih => exact .call ih hargs hnamed

theorem IsRow.chars_prepend (h : IsRow j) (hs : Unbroken s.toList) : (j.prepend s).chars = s.toList ++ j.chars := by
  induction h with
  | word => simp [Js.prepend, Js.chars_name]
  | dot _ _ ih => rw [Js.prepend, Js.chars_dot, Js.chars_dot, ih, List.append_assoc]
  | subscript hobj hkey ih =>
    rw [Js.prepend, Js.chars_link (hobj.prepend hs).isLink hkey.isLink,
      Js.chars_link hobj.isLink hkey.isLink, ih, List.append_assoc]
  | call _ _ _ ih =>
    rw [Js.prepend, Js.chars_callWith, Js.chars_callWith, ih]
    simp

theorem IsRow.prepend_inj (ha : IsRow a) (hb : IsRow b) (h : a.prepend s = b.prepend s) : a = b := by
  induction ha generalizing b with
  | word => cases hb <;> simp_all [Js.prepend]
  | dot _ _ ih =>
    cases hb with
    | dot hobj' =>
      obtain ⟨-, hobjs, rfl⟩ := Js.dot.inj h
      rw [ih hobj' hobjs]
    | word | subscript | call => simp [Js.prepend] at h
  | subscript _ _ ih =>
    cases hb with
    | subscript hobj' =>
      obtain ⟨-, hobjs, rfl⟩ := Js.subscript.inj h
      rw [ih hobj' hobjs]
    | word | dot | call => simp [Js.prepend] at h
  | call _ _ _ ih =>
    cases hb with
    | call hfunc' =>
      obtain ⟨-, -, hfuncs, rfl, hkwargs⟩ := Js.call.inj h
      rw [ih hfunc' hfuncs, hkwargs]
    | word | dot | subscript => simp [Js.prepend] at h

section

variable {capital : String → Bool}

theorem unbroken_operator {P : Prop} (h : op = "new " ∨ op = "" ∧ P) : Unbroken op.toList := by
  rcases h with rfl | ⟨rfl, -⟩
  · exact unbroken_of_any (by decide)
  · exact unbroken_of_any rfl

theorem Chained.isLink (h : Chained capital j) : j.isLink = true := by
  cases h <;> rfl

theorem Chained.isRow (h : Chained capital j) : IsRow j.row := by
  induction h with
  | name hword => exact .word hword.unbroken hword.ne
  | this => exact .word (unbroken_of_any (by decide)) (by decide)
  | dot _ hfield ih => exact .dot ih hfield
  | subscript _ _ ih ihkey => exact .subscript ih ihkey
  | await _ ih => exact ih.prepend (unbroken_of_any (by decide))
  | call _ hop _ _ ih ihargs ihnamed =>
    rw [Js.row, row_namedArgs, rowAll_eq_map]
    exact .call (ih.prepend (unbroken_operator hop)) (List.forall_mem_map.mpr ihargs) (List.forall_mem_map.mpr ihnamed)

theorem Chained.chars_row (h : Chained capital j) : j.row.chars = j.chars := by
  induction h with
  | name => rw [Js.row, Js.chars_name, Js.chars_name]
  | this => rw [Js.row, Js.chars_name, Js.chars_atom]
  | dot _ _ ih => rw [Js.row, Js.chars_dot, Js.chars_dot, ih]
  | subscript hobj hkey ih ihkey =>
    rw [Js.row, Js.chars_link hobj.isRow.isLink hkey.isRow.isLink, Js.chars_link hobj.isLink hkey.isLink, ih, ihkey]
  | await hvalue ih =>
    rw [Js.row, hvalue.isRow.chars_prepend (unbroken_of_any (by decide)), ih, Js.chars_marked]
  | @call _ n _ _ args pairs hfunc hop _ _ ih ihargs ihnamed =>
    have hentry : ∀ q ∈ pairs, entry (default, q.1) q.2.row = entry (n, q.1) q.2 := fun q hq => by
      rw [entry, entry, ihnamed q hq, Js.chars_string, Js.chars_string]
    have hnames : (namedArgs default (pairs.map fun p => (p.1, p.2.row))).chars = (namedArgs n pairs).chars := by
      cases pairs with
      | nil => rfl
      | cons p =>
        simp only [chars_namedArgs, List.map_cons, List.map_map, Function.comp_def]
        rw [hentry p (by simp), List.map_congr_left fun q hq => hentry q (by simp [hq])]
    have hall : (argsAll (args.map Js.row) (namedArgs default (pairs.map fun p => (p.1, p.2.row)))).map Js.chars =
        (argsAll args (namedArgs n pairs)).map Js.chars := by
      have htruthy : (namedArgs default (pairs.map fun p => (p.1, p.2.row))).isTruthy =
          (namedArgs n pairs).isTruthy := by
        cases pairs <;> rfl
      rw [argsAll, argsAll, htruthy, List.map_append, List.map_append, List.map_map]
      refine congrArg₂ _ (List.map_congr_left ihargs) ?_
      split
      · simp [hnames]
      · rfl
    rw [Js.row, row_namedArgs, rowAll_eq_map, Js.chars_callWith, Js.chars_callWith, hall,
      hfunc.isRow.chars_prepend (unbroken_operator hop), ih]
    simp

theorem Chained.chars_eq_iff (ha : Chained capital a) (hb : Chained capital b) : a.chars = b.chars ↔ a.row = b.row := by
  constructor
  · intro h
    refine (ha.isRow.fixed b.row [] [] (.inl hb.isRow) (by simp [Ended]) (by simp [Ended]) ?_).1
    rw [ha.chars_row, hb.chars_row, h]
  · intro h
    rw [← ha.chars_row, ← hb.chars_row, h]

/-! ### Groupings of a row -/

def Js.head : Js → String
  | .name _ (.text s) => s
  | .dot _ obj _ | .subscript _ obj _ => obj.head
  | .call _ _ f _ _ => f.head
  | _ => ""

theorem IsRow.head_prepend (h : IsRow j) (s : String) : (j.prepend s).head = s ++ j.head := by
  induction h with
  | word => rfl
  | dot _ _ ih | subscript _ _ ih | call _ _ _ ih => exact ih

theorem Js.calls_prepend (s : String) (j : Js) : (j.prepend s).calls = j.calls := by
  fun_induction Js.prepend s j <;> simp_all [Js.calls]

theorem Js.news_le_calls (j : Js) : j.news ≤ j.calls := by
  fun_induction Js.news j with
  | case1 | case2 => simp_all [Js.calls]
  | case3 =>
    rw [Js.calls]
    split <;> omega
  | case4 => exact Nat.zero_le _

theorem Chained.head_calls_row (h : Chained capital j) (hawait : j.isAwait = false) (hgrouped : j.grouped capital = true) :
    (∃ w : List Char, ' ' ∉ w ∧ j.row.head.toList = (List.replicate j.news "new ".toList).flatten ++ w) ∧
      j.row.calls = j.calls := by
  induction h with
  | @name _ s hword _ => exact ⟨⟨s.toList, hword.noBlank, by simp [Js.row, Js.head, Js.news]⟩, rfl⟩
  | this => exact ⟨⟨"this".toList, by decide, by simp [Js.row, Js.head, Js.news, Atom.word]⟩, rfl⟩
  | dot _ _ ih =>
    simp only [Js.grouped, Bool.and_eq_true, Bool.not_eq_true'] at hgrouped
    exact ih hgrouped.1 hgrouped.2
  | subscript _ _ ih =>
    simp only [Js.grouped, Bool.and_eq_true, Bool.not_eq_true'] at hgrouped
    exact ih hgrouped.1.1 hgrouped.1.2
  | await => cases hawait
  | call hfunc hop _ _ ih =>
    simp only [Js.grouped, Bool.and_eq_true, Bool.not_eq_true'] at hgrouped
    obtain ⟨⟨⟨⟨hfuncAwait, -⟩, hfuncGrouped⟩, -⟩, -⟩ := hgrouped
    obtain ⟨⟨w, hw, hhead⟩, hcalls⟩ := ih hfuncAwait hfuncGrouped
    refine ⟨⟨w, hw, ?_⟩, by rw [Js.row, Js.calls, Js.calls, Js.calls_prepend, hcalls]⟩
    rw [Js.row, Js.head, hfunc.isRow.head_prepend, String.toList_append, hhead, Js.news]
    rcases hop with rfl | ⟨rfl, -⟩
    · simp [List.replicate_succ]
    · simp

theorem Chained.isAwait_eq (ha : Chained capital a) (hb : Chained capital b)
    (hga : a.grouped capital = true) (hgb : b.grouped capital = true) (hrow : a.row = b.row) :
    a.isAwait = b.isAwait := by
  have hone {a b : Js} (ha : Chained capital a) (hb : Chained capital b) (hgb : b.grouped capital = true)
      (hrow : a.row = b.row) (hawait : a.isAwait = true) : b.isAwait = true := by
    by_contra hnot
    obtain ⟨⟨_, hw, hhead⟩, -⟩ := hb.head_calls_row (by simpa using hnot) hgb
    cases ha with
    | await hvalue =>
      rw [← hrow, Js.row, hvalue.isRow.head_prepend, String.toList_append] at hhead
      cases hnews : b.news with
      | zero =>
        rw [hnews, List.replicate_zero, List.flatten_nil, List.nil_append] at hhead
        exact hw (hhead ▸ List.mem_append_left _ (by decide))
      | succ =>
        rw [hnews, List.replicate_succ, List.flatten_cons, List.append_assoc] at hhead
        cases hhead
    | name | this | dot | subscript | call => cases hawait
  exact Bool.eq_iff_iff.mpr ⟨hone ha hb hgb hrow, hone hb ha hga hrow.symm⟩

structure Callee (capital : String → Bool) (op : String) (f : Js) : Prop where
  chained : Chained capital f
  operator : op = "new " ∨ op = "" ∧ f.ending?.any capital = false
  noAwait : f.isAwait = false
  first : (op == "" || f.ending?.any capital || f.news == f.calls) = true
  grouped : f.grouped capital = true

/-- If only the first of two calls has `new`, the function of the second has one more in it. But not more of
its calls can have it than of those of the first. -/
theorem Callee.row_ne (h : Callee capital "new " f) (h' : Callee capital "" g) :
    f.row.prepend "new " ≠ g.row.prepend "" := by
  intro hrow
  obtain ⟨⟨_, hw, hhead⟩, hcalls⟩ := h.chained.head_calls_row h.noAwait h.grouped
  obtain ⟨⟨_, hv, hhead'⟩, hcalls'⟩ := h'.chained.head_calls_row h'.noAwait h'.grouped
  have hcount : f.news + 1 = g.news := by
    have hcounts := congrArg (fun j : Js => j.head.toList.count ' ') hrow
    simpa [h.chained.isRow.head_prepend, h'.chained.isRow.head_prepend, hhead, hhead',
      List.count_eq_zero.mpr hw, List.count_eq_zero.mpr hv, List.count_flatten] using hcounts
  have hcalls : f.calls = g.calls := by
    rw [← hcalls, ← hcalls',
      ← Js.calls_prepend "new ", hrow, Js.calls_prepend]
  have hle := g.news_le_calls
  have hplain : g.ending?.any capital = false := (h'.operator.resolve_left (by decide)).2
  rcases Bool.or_eq_true_iff.mp h.first with hending | hall
  · -- the last name of the function stands in the row
    have hdot {o : Origin} {obj : Js} {field : String} (hfield : capital field = true)
        (hdot : (Js.dot o obj field).row.prepend "new " = g.row.prepend "") : False := by
      have hnoAwait := h'.noAwait
      cases h'.chained with
      | dot =>
        obtain ⟨-, -, rfl⟩ := Js.dot.inj hdot
        simp [Js.ending?, hfield] at hplain
      | await => cases hnoAwait
      | name | this | subscript | call => simp [Js.row, Js.prepend] at hdot
    cases h.chained with
    | name =>
      have hnoAwait := h'.noAwait
      cases h'.chained with
      | name | this => simp [Js.news] at hcount
      | await => cases hnoAwait
      | dot | subscript | call => simp [Js.row, Js.prepend] at hrow
    | dot => exact hdot (by simpa [Js.ending?] using hending) hrow
    | this | subscript | await | call => simp [Js.ending?] at hending
  · have hall : f.news = f.calls := by simpa using hall
    omega

theorem Callee.operator_eq {op' : String} (h : Callee capital op f) (h' : Callee capital op' g)
    (hrow : f.row.prepend op = g.row.prepend op') : op = op' := by
  rcases h.operator with rfl | ⟨rfl, -⟩ <;> rcases h'.operator with rfl | ⟨rfl, -⟩
  · rfl
  · exact (h.row_ne h' hrow).elim
  · exact (h'.row_ne h hrow.symm).elim
  · rfl

theorem Chained.callee {o n : Origin} {args : List Js}
    (hfunc : Chained capital f) (hop : op = "new " ∨ op = "" ∧ f.ending?.any capital = false)
    (h : (Js.call o op f args (namedArgs n pairs)).grouped capital = true) :
    Callee capital op f ∧ (∀ a ∈ args, a.grouped capital = true) ∧ ∀ p ∈ pairs, p.2.grouped capital = true := by
  simp only [Js.grouped, Bool.and_eq_true, Bool.not_eq_true', groupedAll_iff, grouped_namedArgs] at h
  obtain ⟨⟨⟨⟨hawait, hfirst⟩, hgrouped⟩, hargs⟩, hnamed⟩ := h
  exact ⟨⟨hfunc, hop, hawait, hfirst, hgrouped⟩, hargs, hnamed⟩

theorem map_eq_of_map_eq {α β : Type} {r s : α → β} {xs ys : List α}
    (h : ∀ x ∈ xs, ∀ y ∈ ys, r x = r y → s x = s y) (hmap : xs.map r = ys.map r) : xs.map s = ys.map s := by
  induction xs generalizing ys with
  | nil =>
    cases ys with
    | nil => rfl
    | cons => simp at hmap
  | cons x _ ih =>
    cases ys with
    | nil => simp at hmap
    | cons y =>
      obtain ⟨hfirst, hrest⟩ := List.cons.inj hmap
      rw [List.map_cons, List.map_cons, h x (by simp) y (by simp) hfirst,
        ih (fun x hx y hy => h x (by simp [hx]) y (by simp [hy])) hrest]

theorem Chained.shape_eq (ha : Chained capital a) (hb : Chained capital b)
    (hga : a.grouped capital = true) (hgb : b.grouped capital = true) (hrow : a.row = b.row) :
    a.shape = b.shape := by
  have hawait := ha.isAwait_eq hb hga hgb hrow
  have hpart {x y : Js} (hx : Chained capital x) (hy : Chained capital y) (hgx : x.grouped capital = true)
      (hgy : y.grouped capital = true)
      (ih : ∀ {b : Js}, Chained capital b → x.grouped capital = true → b.grouped capital = true →
        x.row = b.row → x.isAwait = b.isAwait → x.shape = b.shape) (hxy : x.row = y.row) :
      x.shape = y.shape :=
    ih hy hgx hgy hxy (hx.isAwait_eq hy hgx hgy hxy)
  induction ha generalizing b with
  | name _ hthis =>
    cases hb with
    | name => simpa [Js.row, Js.shape] using hrow
    | this => exact (hthis (by simpa [Js.row, Atom.word] using hrow)).elim
    | await => cases hawait
    | dot | subscript | call => simp [Js.row] at hrow
  | this =>
    cases hb with
    | name _ hthis' => exact (hthis' (by simpa [Js.row, Atom.word, eq_comm] using hrow)).elim
    | this => rfl
    | await => cases hawait
    | dot | subscript | call => simp [Js.row] at hrow
  | dot hobj _ ih =>
    cases hb with
    | dot hobj' =>
      obtain ⟨-, hobjs, rfl⟩ := Js.dot.inj hrow
      simp only [Js.grouped, Bool.and_eq_true, Bool.not_eq_true'] at hga hgb
      rw [Js.shape, Js.shape, hpart hobj hobj' hga.2 hgb.2 ih hobjs]
    | await => cases hawait
    | name | this | subscript | call => simp [Js.row] at hrow
  | subscript hobj hkey ih ihkey =>
    cases hb with
    | subscript hobj' hkey' =>
      obtain ⟨-, hobjs, hkeys⟩ := Js.subscript.inj hrow
      simp only [Js.grouped, Bool.and_eq_true, Bool.not_eq_true'] at hga hgb
      rw [Js.shape, Js.shape, hpart hobj hobj' hga.1.2 hgb.1.2 ih hobjs, hpart hkey hkey' hga.2 hgb.2 ihkey hkeys]
    | await => cases hawait
    | name | this | dot | call => simp [Js.row] at hrow
  | await hvalue ih =>
    cases hb with
    | await hvalue' =>
      have hvalues := hvalue.isRow.prepend_inj hvalue'.isRow hrow
      rw [Js.shape, Js.shape, hpart hvalue hvalue' hga hgb ih hvalues]
    | name | this | dot | subscript | call => cases hawait
  | call hfunc hop hargs hnamed ih ihargs ihnamed =>
    cases hb with
    | call hfunc' hop' hargs' hnamed' =>
      obtain ⟨hcallee, hgargs, hgnamed⟩ := hfunc.callee hop hga
      obtain ⟨hcallee', hgargs', hgnamed'⟩ := hfunc'.callee hop' hgb
      simp only [Js.row, row_namedArgs, rowAll_eq_map, Js.call.injEq, true_and] at hrow
      obtain ⟨hfuncs, hargRows, hnamedRows⟩ := hrow
      obtain rfl := hcallee.operator_eq hcallee' hfuncs
      have hfuncShape := hpart hfunc hfunc' hcallee.grouped hcallee'.grouped ih
        (hfunc.isRow.prepend_inj hfunc'.isRow hfuncs)
      have hargShapes := map_eq_of_map_eq (s := Js.shape) (fun x hx y hy =>
        hpart (hargs x hx) (hargs' y hy) (hgargs x hx) (hgargs' y hy) (ihargs x hx)) hargRows
      have hnamedShapes := map_eq_of_map_eq (r := fun p => (p.1, p.2.row)) (s := fun p => (p.1, p.2.shape))
        (fun p hp q hq hpq => Prod.ext (Prod.ext_iff.mp hpq).1 (hpart (hnamed p hp) (hnamed' q hq)
          (hgnamed p hp) (hgnamed' q hq) (ihnamed p hp) (Prod.ext_iff.mp hpq).2)) (namedArgs_inj hnamedRows)
      rw [Js.shape, Js.shape, shape_namedArgs, shape_namedArgs, shapeAll_eq_map, shapeAll_eq_map, hfuncShape,
        hargShapes, hnamedShapes]
    | await => cases hawait
    | name | this | dot | subscript => simp [Js.row] at hrow

end

end Transpiler.Script
