import Transpiler.Proofs.Script.Reader

/-!
# Prefixes and what follows them

`await` and `new` are written before an expression, and fields, subscripts and arguments behind it, all
without parentheses. What a text fixes is a row: a word with the prefixes before it, and what follows the word
(`IsRow.fixed`).
-/

namespace Transpiler.Script

variable {k : List Char} {j : Js} {s : String} {qs : List Post} {ps : List (String × Js)} {cs l : List Char}
  {q : Post} {pairs : List (String × Js)} {js : List Js}

/-! ### Words -/

def delimiters : List Char :=
  ['.', ',', ':', '"', '(', ')', '[', ']', '\x7b', '\x7d']

def isDelimiter (c : Char) : Bool :=
  delimiters.contains c

theorem isDelimiter_eq_false {p : Char → Bool} (hp : delimiters.any p = false) {c : Char}
    (hc : p c = true) : isDelimiter c = false := by
  rw [isDelimiter, List.contains_eq_mem, decide_eq_false_iff_not]
  intro hmem
  exact List.any_eq_false.mp hp c hmem hc

def Unbroken (cs : List Char) : Prop :=
  ∀ c ∈ cs, isDelimiter c = false

theorem unbroken_of_any (h : cs.any isDelimiter = false) : Unbroken cs :=
  fun c hc => Bool.eq_false_iff.mpr (List.any_eq_false.mp h c hc)

def Delimited (cs : List Char) : Prop :=
  ∀ c ∈ cs.head?, isDelimiter c = true

def Ended (cs : List Char) : Prop :=
  ∀ c ∈ cs.head?, c ∈ [',', ')', ']', '\x7d']

theorem Ended.delimited (h : Ended cs) : Delimited cs := by
  intro c hc
  have hclosing := h c hc
  simp only [List.mem_cons, List.not_mem_nil, or_false] at hclosing
  rcases hclosing with rfl | rfl | rfl | rfl <;> rfl

theorem Unbroken.append_inj {w v : List Char} (hw : Unbroken w) (hv : Unbroken v) (hk : Delimited k)
    (hl : Delimited l) (h : w ++ k = v ++ l) : w = v ∧ k = l := by
  have htake {w k : List Char} (hw : Unbroken w) (hk : Delimited k) : (w ++ k).takeWhile (!isDelimiter ·) = w := by
    rw [List.takeWhile_append_of_pos fun c hc => by simp [hw c hc]]
    cases k with
    | nil => simp
    | cons c => simp [hk c rfl]
  have hword : w = v := by rw [← htake hw hk, h, htake hv hl]
  subst hword
  exact ⟨rfl, List.append_cancel_left h⟩

/-! ### Texts -/

def Js.isLink : Js → Bool
  | .name _ (.text _) | .atom _ _ | .dot _ _ _ | .subscript _ _ _ | .marked _ _ _ | .call _ _ _ _ _ => true
  | _ => false

section

variable {o : Origin} {obj key func : Js}

theorem Js.items_ne_line (h : j.isLink = true) (l : Line) : j.items ≠ [.line l] := by
  have hpart (o : Origin) (label : Label) {items : List Item} (hitems : ∀ l, items ≠ [.line l]) :
      [o.part label items] ≠ [.line l] := by
    rw [o.part_eq_group label hitems]
    simp
  unfold isLink at h
  split at h
  case h_3 o obj field =>
    refine hpart _ _ fun l => ?_
    rw [show ∀ a b : Item, ∀ xs, xs ++ [a, b] = (xs ++ [a]) ++ [b] by simp]
    exact append_str_ne_line l
  case h_4 => exact hpart _ _ (by simp)
  case h_7 => cases h
  all_goals exact hpart _ _ cons_str_ne_line

theorem Js.chars_link (hobj : obj.isLink = true) (hkey : key.isLink = true) :
    (Js.subscript o obj key).chars = obj.chars ++ '[' :: (key.chars ++ [']']) := by
  rw [chars_of_items rfl (by simp)]
  simp [o.toString_part _ (items_ne_line hobj), o.toString_part _ (items_ne_line hkey), toList_joinAll_items]

theorem Js.chars_marked (m : Mark) : (Js.marked o m obj).chars = m.word.toList ++ obj.chars := by
  rw [chars_of_items rfl cons_str_ne_line]
  simp [toList_joinAll_items]

def argsAll (args : List Js) (kwargs : Js) : List Js :=
  args ++ if kwargs.isTruthy then [kwargs] else []

theorem Js.chars_callWith (op : String) (args : List Js) (kwargs : Js) : (Js.call o op func args kwargs).chars =
    op.toList ++ (func.chars ++ '(' :: (listed ((argsAll args kwargs).map Js.chars) ++ [')'])) := by
  rw [chars_of_items rfl cons_str_ne_line]
  unfold argsAll
  split <;> simp_all [toList_joinAll_items, toList_joinAll_listed, itemsEach_eq_map, Function.comp_def]

theorem Js.chars_json_inj {o o' : Origin} {t : String}
    (h : (Js.json o (.str s)).chars ++ k = (Js.json o' (.str t)).chars ++ l) : s = t ∧ k = l := by
  rw [chars_string, chars_string] at h
  simp only [List.cons_append, List.append_assoc, List.nil_append, List.cons.injEq, true_and] at h
  have hfirst := @Json.readString?_flatMap_escapeChar s.toList (s.toList.length + t.toList.length + 1) (by omega) [] k
  have hsecond := @Json.readString?_flatMap_escapeChar t.toList (s.toList.length + t.toList.length + 1) (by omega) [] l
  rw [h, hsecond] at hfirst
  simpa [eq_comm] using hfirst

end

/-! ### Rows -/

def namedArgs (n : Origin) : List (String × Js) → Js
  | [] => .absent
  | p :: pairs => .dict n ((p :: pairs).map fun q => .json n (.str q.1)) ((p :: pairs).map (·.2))

inductive IsRow : Js → Prop
  | word {s : String} (hword : Unbroken s.toList) (hne : s ≠ "") : IsRow (.name default (.text s))
  | dot {obj : Js} {field : String} (hobj : IsRow obj) (hfield : Unbroken field.toList) :
      IsRow (.dot default obj field)
  | subscript {obj key : Js} (hobj : IsRow obj) (hkey : IsRow key) : IsRow (.subscript default obj key)
  | call {func : Js} {args : List Js} {pairs : List (String × Js)} (hfunc : IsRow func)
      (hargs : ∀ a ∈ args, IsRow a) (hnamed : ∀ p ∈ pairs, IsRow p.2) :
      IsRow (.call default "" func args (namedArgs default pairs))

inductive Post where
  | field (s : String)
  | key (j : Js)
  | args (js : List Js) (pairs : List (String × Js))

namespace Post

def chars : Post → List Char
  | field s => '.' :: s.toList
  | key j => '[' :: (j.chars ++ [']'])
  | args js pairs => '(' :: (listed ((argsAll js (namedArgs default pairs)).map Js.chars) ++ [')'])

def onto (j : Js) : Post → Js
  | field s => .dot default j s
  | key k => .subscript default j k
  | args js pairs => .call default "" j js (namedArgs default pairs)

def HoldsRows : Post → Prop
  | field s => Unbroken s.toList
  | key j => IsRow j
  | args js pairs => (∀ a ∈ js, IsRow a) ∧ ∀ p ∈ pairs, IsRow p.2

def Fixed (q : Post) : Prop :=
  ∀ q' k l, q'.HoldsRows → Delimited k → Delimited l → q.chars ++ k = q'.chars ++ l → q = q' ∧ k = l

end Post

def IsItem (j : Js) : Prop :=
  IsRow j ∨ ∃ p pairs, j = namedArgs default (p :: pairs) ∧ ∀ q ∈ p :: pairs, IsRow q.2

def Js.Fixed (j : Js) : Prop :=
  ∀ j' k l, IsItem j' → Ended k → Ended l → j.chars ++ k = j'.chars ++ l → j = j' ∧ k = l

structure Spine (j : Js) (s : String) (qs : List Post) : Prop where
  build : j = qs.foldl Post.onto (.name default (.text s))
  chars : j.chars = s.toList ++ qs.flatMap Post.chars
  word : Unbroken s.toList
  ne : s ≠ ""
  posts : ∀ q ∈ qs, q.HoldsRows

/-! ### Rows are fixed by their texts -/

theorem listed_inj {α : Type} {f : α → List Char} {P : α → Prop} {close : Char} (hclose : close ∈ [')', ']', '\x7d'])
    (hstart : ∀ x, P x → ∃ c cs, f x = c :: cs ∧ c ∉ [',', ')', ']', '\x7d']) {xs ys : List α}
    (hfixed : ∀ x ∈ xs, ∀ y k l, P y → Ended k → Ended l → f x ++ k = f y ++ l → x = y ∧ k = l)
    (hxs : ∀ x ∈ xs, P x) (hys : ∀ y ∈ ys, P y) {k l : List Char}
    (h : listed (xs.map f) ++ close :: k = listed (ys.map f) ++ close :: l) : xs = ys ∧ k = l := by
  have hmem : close ∈ [',', ')', ']', '\x7d'] := List.mem_cons_of_mem _ hclose
  -- what stands behind the first item
  let after (rest : List α) (k : List Char) : List Char :=
    if rest.isEmpty then close :: k else ',' :: ' ' :: (listed (rest.map f) ++ close :: k)
  have hafter (x : α) (rest : List α) (k : List Char) :
      listed ((x :: rest).map f) ++ close :: k = f x ++ after rest k := by
    cases rest <;> simp [after, listed, separated]
  have hended (rest : List α) (k : List Char) : Ended (after rest k) := by
    intro _ hc
    cases rest <;> simp only [after, List.isEmpty_nil, List.isEmpty_cons, if_true, Bool.false_eq_true,
      if_false, List.head?_cons, Option.mem_some] at hc <;> subst hc
    · exact hmem
    · simp
  have hnil (y : α) (hy : P y) (rest : List α) (k l : List Char) :
      listed ([].map f) ++ close :: k ≠ listed ((y :: rest).map f) ++ close :: l := by
    obtain ⟨_, _, hc, hnot⟩ := hstart y hy
    rw [hafter, hc]
    intro heq
    obtain ⟨rfl, -⟩ := List.cons.inj heq
    exact hnot hmem
  induction xs generalizing ys with
  | nil =>
    cases ys with
    | nil => exact ⟨rfl, (List.cons.inj h).2⟩
    | cons y rest => exact (hnil y (hys y (by simp)) rest k l h).elim
  | cons x xs ih =>
    cases ys with
    | nil => exact (hnil x (hxs x (by simp)) xs l k h.symm).elim
    | cons y ys =>
      rw [hafter, hafter] at h
      obtain ⟨rfl, htail⟩ := hfixed x (by simp) y _ _ (hys y (by simp)) (hended _ _) (hended _ _) h
      have hcomma : close ≠ ',' := by
        rintro rfl
        simp at hclose
      rcases xs with _ | ⟨x', xs⟩ <;> rcases ys with _ | ⟨_, _⟩
      · exact ⟨rfl, by simpa [after] using htail⟩
      · exact (hcomma (by simpa [after] using (List.cons.inj htail).1)).elim
      · exact (hcomma (by simpa [after, eq_comm] using (List.cons.inj htail).1)).elim
      · obtain ⟨hrest, hk⟩ := ih (fun x hx => hfixed x (by simp [hx])) (fun x hx => hxs x (by simp [hx]))
          (fun y hy => hys y (List.mem_cons_of_mem _ hy)) (by simpa [after] using htail)
        exact ⟨by rw [hrest], hk⟩

theorem Post.exists_chars (q : Post) : ∃ c cs, q.chars = c :: cs ∧ c ∈ ['.', '[', '('] := by
  cases q <;> exact ⟨_, _, rfl, by simp⟩

theorem Post.delimited_flatMap (hk : Ended k) : Delimited (qs.flatMap Post.chars ++ k) := by
  cases qs with
  | nil => exact hk.delimited
  | cons q =>
    obtain ⟨c, _, hq, hc⟩ := q.exists_chars
    rw [List.flatMap_cons, hq]
    intro d hd
    obtain rfl : c = d := by simpa using hd
    simp only [List.mem_cons, List.not_mem_nil, or_false] at hc
    rcases hc with rfl | rfl | rfl <;> rfl

theorem Post.flatMap_inj {ps : List Post} (hfixed : ∀ q ∈ qs, q.Fixed) (hrow : ∀ p ∈ ps, p.HoldsRows)
    (hk : Ended k) (hl : Ended l) (h : qs.flatMap Post.chars ++ k = ps.flatMap Post.chars ++ l) : qs = ps ∧ k = l := by
  have hopen (q : Post) (rest : List Char) : ¬Ended (q.chars ++ rest) := by
    obtain ⟨c, _, hq, hc⟩ := q.exists_chars
    intro hended
    have hclosing := hended c (by simp [hq])
    simp only [List.mem_cons, List.not_mem_nil, or_false] at hc hclosing
    rcases hc with rfl | rfl | rfl <;> simp at hclosing
  induction qs generalizing ps with
  | nil =>
    cases ps with
    | nil => exact ⟨rfl, h⟩
    | cons p =>
      rw [List.flatMap_nil, List.nil_append, List.flatMap_cons, List.append_assoc] at h
      exact (hopen p _ (h ▸ hk)).elim
  | cons q _ ih =>
    cases ps with
    | nil =>
      rw [List.flatMap_nil, List.nil_append, List.flatMap_cons, List.append_assoc] at h
      exact (hopen q _ (h.symm ▸ hl)).elim
    | cons p =>
      rw [List.flatMap_cons, List.flatMap_cons, List.append_assoc, List.append_assoc] at h
      obtain ⟨rfl, htail⟩ := hfixed q (by simp) p _ _ (hrow p (by simp)) (delimited_flatMap hk)
        (delimited_flatMap hl) h
      obtain ⟨rfl, hkl⟩ := ih (fun q hq => hfixed q (by simp [hq])) (fun p hp => hrow p (by simp [hp])) htail
      exact ⟨rfl, hkl⟩

theorem Spine.exists_chars (h : Spine j s qs) : ∃ c cs, j.chars = c :: cs ∧ isDelimiter c = false := by
  cases hs : s.toList with
  | nil => exact (h.ne (String.toList_eq_nil_iff.mp hs)).elim
  | cons c => exact ⟨c, _, by rw [h.chars, hs]; rfl, h.word c (by simp [hs])⟩

theorem chars_namedArgs (n : Origin) (p : String × Js) (pairs : List (String × Js)) : (namedArgs n (p :: pairs)).chars =
    '\x7b' :: (listed ((p :: pairs).map fun q => entry (n, q.1) q.2) ++ ['\x7d']) := by
  have hkeys := @Js.chars_dict n ((p :: pairs).map (·.2)) ((p :: pairs).map fun q => (n, q.1))
  rw [List.zipWith_map] at hkeys
  simpa [namedArgs, List.map_map, Function.comp_def, List.zipWith_self] using hkeys

theorem IsRow.isLink (h : IsRow j) : j.isLink = true := by
  cases h <;> rfl

theorem Post.chars_onto (hj : j.isLink = true) (hq : q.HoldsRows) : (Post.onto j q).chars = j.chars ++ q.chars := by
  cases q with
  | field s => exact Js.chars_dot s
  | key => exact Js.chars_link hj (IsRow.isLink hq)
  | args js => exact Js.chars_callWith "" js _

theorem Spine.snoc (h : Spine j s qs) (hj : IsRow j) (hq : q.HoldsRows) :
    Spine (Post.onto j q) s (qs ++ [q]) where
  build := by rw [List.foldl_append, ← h.build]; rfl
  chars := by rw [Post.chars_onto hj.isLink hq, h.chars]; simp
  word := h.word
  ne := h.ne
  posts := List.forall_mem_append.mpr ⟨h.posts, by simpa using hq⟩

theorem IsRow.exists_spine (h : IsRow j) : ∃ s qs, Spine j s qs := by
  induction h with
  | word hword hne => exact ⟨_, [], rfl, by simp [Js.chars_name], hword, hne, by simp⟩
  | dot hobj hfield ih =>
    obtain ⟨s, _, hspine⟩ := ih
    exact ⟨s, _, hspine.snoc hobj (q := .field _) hfield⟩
  | subscript hobj hkey ih =>
    obtain ⟨s, _, hspine⟩ := ih
    exact ⟨s, _, hspine.snoc hobj (q := .key _) hkey⟩
  | call hfunc hargs hnamed ih =>
    obtain ⟨s, _, hspine⟩ := ih
    exact ⟨s, _, hspine.snoc hfunc (q := .args _ _) ⟨hargs, hnamed⟩⟩

theorem IsRow.chars_ne (h : IsRow j) (p : String × Js) (pairs : List (String × Js)) (k l : List Char) :
    j.chars ++ k ≠ (namedArgs default (p :: pairs)).chars ++ l := by
  obtain ⟨_, _, hspine⟩ := h.exists_spine
  obtain ⟨_, _, hc, hword⟩ := hspine.exists_chars
  rw [hc, chars_namedArgs]
  intro heq
  obtain ⟨rfl, -⟩ := List.cons.inj heq
  cases hword

theorem Spine.fixed (h : Spine j s qs) (hj : IsRow j) (hfixed : ∀ q ∈ qs, q.Fixed) : j.Fixed := by
  rintro _ k l (hj' | ⟨p, pairs, rfl, -⟩) hk hl heq
  · obtain ⟨_, _, h'⟩ := hj'.exists_spine
    rw [h.chars, h'.chars, List.append_assoc, List.append_assoc] at heq
    obtain ⟨hword, heq⟩ := h.word.append_inj h'.word (Post.delimited_flatMap hk) (Post.delimited_flatMap hl) heq
    obtain ⟨rfl, hkl⟩ := Post.flatMap_inj hfixed h'.posts hk hl heq
    obtain rfl := String.toList_inj.mp hword
    exact ⟨h.build.trans h'.build.symm, hkl⟩
  · exact (hj.chars_ne p pairs k l heq).elim

theorem pairs_eq {qs : List (String × Js)}
    (hkeys : ps.map (fun p => Js.json default (.str p.1)) = qs.map fun p => Js.json default (.str p.1))
    (hvalues : ps.map (·.2) = qs.map (·.2)) : ps = qs := by
  have hinj : Function.Injective fun s => Js.json default (.str s) := fun _ _ h => by simpa using h
  have hnames : ps.map (·.1) = qs.map (·.1) := hinj.list_map (by simpa [Function.comp_def] using hkeys)
  rw [← ps.zip_unzip, ← qs.zip_unzip, List.unzip_eq_map, List.unzip_eq_map, hnames, hvalues]

theorem namedArgs_inj {qs : List (String × Js)} (h : namedArgs default ps = namedArgs default qs) : ps = qs := by
  rcases ps with _ | ⟨p, ps⟩ <;> rcases qs with _ | ⟨_, _⟩
  · rfl
  · simp [namedArgs, Js.absent] at h
  · simp [namedArgs, Js.absent] at h
  · obtain ⟨-, hkeys, hvalues⟩ := Js.dict.inj h
    exact pairs_eq hkeys hvalues

theorem fixed_namedArgs {p : String × Js}
    (h : ∀ q ∈ p :: pairs, IsRow q.2 ∧ q.2.Fixed) : (namedArgs default (p :: pairs)).Fixed := by
  rintro _ k l (hj' | ⟨_, _, rfl, hrows⟩) hk hl heq
  · exact (hj'.chars_ne p pairs l k heq.symm).elim
  · rw [chars_namedArgs, chars_namedArgs] at heq
    simp only [List.cons_append, List.append_assoc, List.nil_append, List.cons.injEq, true_and] at heq
    have hentry : ∀ q ∈ p :: pairs, ∀ (r : String × Js) k l, IsRow r.2 → Ended k → Ended l →
        entry (default, q.1) q.2 ++ k = entry (default, r.1) r.2 ++ l → q = r ∧ k = l := by
      intro q hq r k l hr hk hl heq
      rw [entry, entry, List.append_assoc, List.append_assoc] at heq
      obtain ⟨hkey, heq⟩ := Js.chars_json_inj heq
      obtain ⟨hvalue, hkl⟩ := (h q hq).2 r.2 k l (.inl hr) hk hl (by simpa using heq)
      exact ⟨Prod.ext hkey hvalue, hkl⟩
    obtain ⟨hpairs, hkl⟩ := listed_inj (P := fun q => IsRow q.2) (by simp)
      (fun q _ => ⟨'"', _, by rw [entry, Js.chars_string]; rfl, by simp⟩) hentry (fun q hq => (h q hq).1)
      hrows heq
    rw [hpairs]
    exact ⟨rfl, hkl⟩

theorem argsAll_inj {ks : List Js} {qs : List (String × Js)} (hjs : ∀ j ∈ js, IsRow j)
    (hks : ∀ k ∈ ks, IsRow k) (h : argsAll js (namedArgs default ps) = argsAll ks (namedArgs default qs)) :
    js = ks ∧ ps = qs := by
  have hfilter {js : List Js} {ps : List (String × Js)} (hjs : ∀ j ∈ js, IsRow j) :
      (argsAll js (namedArgs default ps)).filter Js.isLink = js := by
    rw [argsAll, List.filter_append, List.filter_eq_self.mpr fun j hj => (hjs j hj).isLink]
    cases ps <;> simp [namedArgs, Js.isTruthy, Js.absent, Scalar.isTruthy, Js.isLink]
  have hjk : js = ks := by rw [← hfilter hjs, h, hfilter hks]
  subst hjk
  have hnamed := List.append_cancel_left h
  refine ⟨rfl, ?_⟩
  rcases ps with _ | ⟨p, ps⟩ <;> rcases qs with _ | ⟨_, _⟩
  · rfl
  · simp [namedArgs, Js.isTruthy, Js.absent, Scalar.isTruthy] at hnamed
  · simp [namedArgs, Js.isTruthy, Js.absent, Scalar.isTruthy] at hnamed
  · exact namedArgs_inj (List.cons.inj hnamed).1

theorem IsItem.exists_chars (h : IsItem j) : ∃ c cs, j.chars = c :: cs ∧ c ∉ [',', ')', ']', '\x7d'] := by
  rcases h with h | ⟨p, pairs, rfl, -⟩
  · obtain ⟨_, _, hspine⟩ := h.exists_spine
    obtain ⟨c, cs, hc, hword⟩ := hspine.exists_chars
    refine ⟨c, cs, hc, fun hmem => ?_⟩
    have hended : Ended [c] := by simpa [Ended] using hmem
    have hdelimiter := hended.delimited c rfl
    simp [hword] at hdelimiter
  · exact ⟨_, _, chars_namedArgs _ p pairs, by simp⟩

namespace Post

theorem fixed_field (hs : Unbroken s.toList) : (field s).Fixed := by
  intro q' _ _ hq' hk hl heq
  cases q' with
  | field =>
    obtain ⟨hst, hkl⟩ := Unbroken.append_inj hs hq' hk hl (List.cons.inj heq).2
    exact ⟨by rw [String.toList_inj.mp hst], hkl⟩
  | key | args => simp [chars] at heq

theorem fixed_key (hj : j.Fixed) : (key j).Fixed := by
  intro q' k l hq' _ _ heq
  cases q' with
  | key j' =>
    have hended (m : List Char) : Ended (']' :: m) := by simp [Ended]
    obtain ⟨rfl, hkl⟩ := hj j' (']' :: k) (']' :: l) (.inl hq') (hended k) (hended l) (by simpa [chars] using heq)
    exact ⟨rfl, (List.cons.inj hkl).2⟩
  | field | args => simp [chars] at heq

theorem fixed_args (hjs : ∀ j ∈ js, IsRow j ∧ j.Fixed)
    (hpairs : ∀ p ∈ pairs, IsRow p.2 ∧ p.2.Fixed) : (args js pairs).Fixed := by
  have hitems (ks : List Js) (qs : List (String × Js)) (hks : ∀ k ∈ ks, IsRow k)
      (hqs : ∀ q ∈ qs, IsRow q.2) : ∀ i ∈ argsAll ks (namedArgs default qs), IsItem i := by
    refine List.forall_mem_append.mpr ⟨fun k hk => .inl (hks k hk), fun i hi => ?_⟩
    cases qs with
    | nil => simp [namedArgs, Js.isTruthy, Js.absent, Scalar.isTruthy] at hi
    | cons q qs => exact .inr ⟨q, qs, by simpa using (List.mem_ite_nil_right.mp hi).2, hqs⟩
  have hfixed : ∀ i ∈ argsAll js (namedArgs default pairs), i.Fixed := by
    refine List.forall_mem_append.mpr ⟨fun j hj => (hjs j hj).2, fun i hi => ?_⟩
    cases pairs with
    | nil => simp [namedArgs, Js.isTruthy, Js.absent, Scalar.isTruthy] at hi
    | cons q qs =>
      obtain rfl : i = namedArgs default (q :: qs) := by simpa using (List.mem_ite_nil_right.mp hi).2
      exact fixed_namedArgs hpairs
  intro q' _ _ hq' _ _ heq
  cases q' with
  | args js' pairs' =>
    simp only [chars, List.cons_append, List.append_assoc, List.nil_append, List.cons.injEq, true_and] at heq
    obtain ⟨hall, hkl⟩ := listed_inj (by simp) (fun _ hi => hi.exists_chars) hfixed
      (hitems js pairs (fun j hj => (hjs j hj).1) fun p hp => (hpairs p hp).1)
      (hitems js' pairs' hq'.1 hq'.2) heq
    obtain ⟨rfl, rfl⟩ := argsAll_inj (fun j hj => (hjs j hj).1) hq'.1 hall
    exact ⟨rfl, hkl⟩
  | field | key => simp [chars] at heq

end Post

theorem IsRow.fixed (h : IsRow j) : j.Fixed := by
  have hfixed : ∃ s qs, Spine j s qs ∧ ∀ q ∈ qs, q.Fixed := by
    induction h with
    | word hword hne => exact ⟨_, [], ⟨rfl, by simp [Js.chars_name], hword, hne, by simp⟩, by simp⟩
    | dot hobj hfield ih =>
      obtain ⟨s, _, hspine, hqs⟩ := ih
      exact ⟨s, _, hspine.snoc hobj (q := .field _) hfield,
        List.forall_mem_append.mpr ⟨hqs, by simpa using Post.fixed_field hfield⟩⟩
    | subscript hobj hkey ih ihkey =>
      obtain ⟨s, _, hspine, hqs⟩ := ih
      obtain ⟨_, _, hkspine, hkqs⟩ := ihkey
      exact ⟨s, _, hspine.snoc hobj (q := .key _) hkey,
        List.forall_mem_append.mpr ⟨hqs, by simpa using Post.fixed_key (hkspine.fixed hkey hkqs)⟩⟩
    | call hfunc hargs hnamed ih ihargs ihnamed =>
      obtain ⟨s, qs, hspine, hqs⟩ := ih
      have hall {a : Js} (ha : IsRow a) (hspine : ∃ s qs, Spine a s qs ∧ ∀ q ∈ qs, q.Fixed) : IsRow a ∧ a.Fixed := by
        obtain ⟨_, _, hspine, hqs⟩ := hspine
        exact ⟨ha, hspine.fixed ha hqs⟩
      refine ⟨s, _, hspine.snoc hfunc (q := .args _ _) ⟨hargs, hnamed⟩, List.forall_mem_append.mpr ⟨hqs, ?_⟩⟩
      simpa using Post.fixed_args (fun a ha => hall (hargs a ha) (ihargs a ha))
        fun p hp => hall (hnamed p hp) (ihnamed p hp)
  obtain ⟨_, _, hspine, hqs⟩ := hfixed
  exact hspine.fixed h hqs

end Transpiler.Script