import Transpiler.Proofs.Script.Templates

/-!
# Code between braces

`isBalanced` follows the braces, the strings and the templates of some code and says whether all of them are closed
after it. The text of an expression that can be read back is such code, so a brace after it closes the brace before
it, and no brace in it does (`Operational.enclosed`).
-/

namespace Transpiler.Script

variable {cs : List Char} {j : Js}

inductive Nest where
  | brace
  | single
  | double
  | template
  | escaped
  | dollar
  deriving DecidableEq

namespace Nest

def quoted (closing : Char) (n : Nest) (outer : List Nest) (c : Char) : List Nest :=
  if c = closing then outer else if c = '\\' then escaped :: n :: outer else n :: outer

/-- What is open after a character of code, the innermost first; none if a brace is closed that is not open. -/
def code? (opened : List Nest) (c : Char) : Option (List Nest) :=
  match c with
  | '\x7b' => some (brace :: opened)
  | '\x7d' => opened.head?.bind fun _ => some opened.tail
  | '\x27' => some (single :: opened)
  | '"' => some (double :: opened)
  | '`' => some (template :: opened)
  | _ => some opened

def next? : List Nest → Char → Option (List Nest)
  | escaped :: outer, _ => some outer
  | single :: outer, c => some (quoted '\x27' single outer c)
  | double :: outer, c => some (quoted '"' double outer c)
  | template :: outer, c =>
    some (if c = '$' then dollar :: template :: outer else quoted '`' template outer c)
  | dollar :: outer, c => if c = '\x7b' then some (brace :: outer) else next? outer c
  | brace :: outer, c => code? (brace :: outer) c
  | [], c => code? [] c

end Nest

def isBalanced (code : List Char) : Bool :=
  code.foldlM Nest.next? [] = some []

theorem enclosed_of_isBalanced {code : List Char} (h : isBalanced code = true) : Enclosed isBalanced code := by
  refine ⟨h, ?_⟩
  rintro front _ rfl
  rw [isBalanced, decide_eq_true_eq, List.foldlM_append] at h
  by_contra hfront
  have hclosed : front.foldlM Nest.next? [] = some [] := by simpa [isBalanced] using hfront
  simp [hclosed, Nest.next?, Nest.code?] at h

/-! ### Code that closes what it opens -/

def IsCode : List Nest → Prop
  | [] => True
  | n :: _ => n = .brace

theorem IsCode.next? {opened : List Nest} (h : IsCode opened) (c : Char) : Nest.next? opened c = Nest.code? opened c := by
  match opened, h with
  | [], _ => rfl
  | _ :: _, rfl => rfl

def Settles (cs : List Char) : Prop :=
  ∀ opened, IsCode opened → cs.foldlM Nest.next? opened = some opened

theorem Settles.isBalanced (h : Settles cs) : isBalanced cs = true := by
  simp [Script.isBalanced, h [] trivial]

theorem settles_nil : Settles [] :=
  fun _ _ => rfl

theorem Settles.append {ds : List Char} (h : Settles cs) (h' : Settles ds) : Settles (cs ++ ds) := by
  intro opened hopened
  rw [List.foldlM_append, h opened hopened]
  exact h' opened hopened

def isInert (c : Char) : Bool :=
  c ∉ ['\x7b', '\x7d', '\x27', '"', '`']

theorem settles_of_inert (h : ∀ c ∈ cs, isInert c = true) : Settles cs := by
  intro opened hopened
  induction cs with
  | nil => rfl
  | cons c _ ih =>
    obtain ⟨_, hcs⟩ := List.forall_mem_cons.mp h
    have hnext : Nest.code? opened c = some opened := by
      unfold Nest.code?
      split <;> simp_all [isInert]
    rw [List.foldlM_cons, hopened.next?, hnext]
    exact ih hcs

theorem Settles.cons {c : Char} (hc : isInert c = true) (h : Settles cs) : Settles (c :: cs) := by
  have hone : Settles [c] := settles_of_inert (by simpa using hc)
  exact hone.append h

theorem settles_word (h : ∀ c ∈ cs, isWordChar c = true) : Settles cs := by
  have hnone : ∀ d ∈ ['\x7b', '\x7d', '\x27', '"', '`'], isWordChar d = false := by
    simp only [List.forall_mem_cons, List.not_mem_nil, false_implies, implies_true, and_true]
    decide
  refine settles_of_inert fun c hc => decide_eq_true fun hmem => ?_
  exact Bool.false_ne_true ((hnone c hmem).symm.trans (h c hc))

theorem Settles.braces (h : Settles cs) : Settles ('\x7b' :: (cs ++ ['\x7d'])) := by
  intro opened hopened
  rw [List.foldlM_cons, hopened.next?]
  show (cs ++ ['\x7d']).foldlM Nest.next? (.brace :: opened) = some opened
  rw [List.foldlM_append, h (.brace :: opened) rfl]
  rfl

theorem foldlM_escapeChar (c : Char) (outer : List Nest) :
    (Text.escapeChar c).foldlM Nest.next? (.double :: outer) = some (.double :: outer) := by
  have hinside : ∀ c, c ≠ '"' → c ≠ '\\' → Nest.next? (.double :: outer) c = some (.double :: outer) := by
    intro _ hquote hslash
    rw [Nest.next?, Nest.quoted, if_neg hquote, if_neg hslash]
  have hdigit : ∀ n < 16, Nest.next? (.double :: outer) (Text.hexDigit n) = some (.double :: outer) := by
    have hne : ∀ n < 16, Text.hexDigit n ≠ '"' ∧ Text.hexDigit n ≠ '\\' := by decide
    exact fun n hn => hinside _ (hne n hn).1 (hne n hn).2
  have hunit : ∀ n, (Text.unitEscape n).foldlM Nest.next? (.double :: outer) = some (.double :: outer) := by
    intro _
    have hstart : Nest.next? (.double :: outer) '\\' = some (.escaped :: .double :: outer) := rfl
    have hu : Nest.next? (.escaped :: .double :: outer) 'u' = some (.double :: outer) := rfl
    simp [Text.unitEscape, hstart, hu, hdigit, Nat.mod_lt]
  unfold Text.escapeChar
  split
  iterate 7 rfl
  next hquote hslash _ _ _ _ _ =>
    split
    · simp [hinside c hquote hslash]
    · induction Text.units16 c with
      | nil => rfl
      | cons _ _ ih =>
        rw [List.flatMap_cons, List.foldlM_append, hunit]
        exact ih

theorem settles_string (s : String) : Settles ('"' :: (s.toList.flatMap Text.escapeChar ++ ['"'])) := by
  intro opened hopened
  rw [List.foldlM_cons, hopened.next?]
  show (s.toList.flatMap Text.escapeChar ++ ['"']).foldlM Nest.next? (.double :: opened) = some opened
  have htext : (s.toList.flatMap Text.escapeChar).foldlM Nest.next? (.double :: opened) = some (.double :: opened) := by
    induction s.toList with
    | nil => rfl
    | cons _ _ ih =>
      rw [List.flatMap_cons, List.foldlM_append, foldlM_escapeChar]
      exact ih
  rw [List.foldlM_append, htext]
  rfl

theorem settles_listed {each : List (List Char)} (h : ∀ cs ∈ each, Settles cs) : Settles (listed each) := by
  induction each with
  | nil => exact settles_nil
  | cons _ each ih =>
    obtain ⟨hcs, heach⟩ := List.forall_mem_cons.mp h
    cases each with
    | nil => exact hcs
    | cons => exact (hcs.append (settles_of_inert (by simp [isInert]))).append (ih heach)

theorem Operational.settles (h : Operational j) (hcheck : j.check = passed) : Settles j.chars := by
  induction h with
  | @name _ _ hword _ _ =>
    rw [Js.chars_name]
    exact settles_word (isIdentifier_word hword)
  | num =>
    rw [Js.chars_num]
    exact settles_word fun c hc => by simp [isWordChar, isDigit_of_mem_toString hc]
  | string s =>
    rw [Js.chars_string]
    exact settles_string s
  | @atom _ a _ =>
    rw [Js.chars_atom]
    exact settles_of_inert (List.all_eq_true.mp (by cases a <;> decide))
  | @binOp _ _ s _ _ _ _ _ ihleft ihright =>
    simp only [Js.check, firstFault_cons, firstFault_nil] at hcheck
    have hsymbol : Settles s.symbol.toList := settles_of_inert (List.all_eq_true.mp (by cases s <;> decide))
    rw [Js.chars_binOp]
    refine .cons rfl ((ihleft hcheck.1).append (.cons rfl (hsymbol.append (.cons rfl ?_))))
    exact (ihright hcheck.2.2.1).append (.cons rfl settles_nil)
  | @unaryOp _ _ s _ _ _ ih =>
    simp only [Js.check, firstFault_cons, firstFault_nil] at hcheck
    have hsymbol : Settles s.symbol.toList := settles_of_inert (List.all_eq_true.mp (by cases s <;> decide))
    rw [Js.chars_unaryOp]
    exact .cons rfl (hsymbol.append (.cons rfl ((ih hcheck.2.2.1).append (.cons rfl settles_nil))))
  | ifExp _ _ _ ihtest ihbody ihorelse =>
    simp only [Js.check, firstFault_cons, firstFault_nil] at hcheck
    rw [Js.chars_ifExp]
    refine .cons rfl ((ihtest hcheck.1).append (.cons rfl (.cons rfl (.cons rfl ?_))))
    refine (ihbody hcheck.2.1).append (.cons rfl (.cons rfl (.cons rfl ?_)))
    exact (ihorelse hcheck.2.2.1).append (.cons rfl settles_nil)
  | call _ _ ihfunc ihargs =>
    simp only [Js.check, firstFault_eq_passed_iff, checkEach_eq_map, List.forall_mem_append,
      List.forall_mem_cons, List.forall_mem_map] at hcheck
    rw [Js.chars_call]
    refine (ihfunc hcheck.1.1).append (.cons rfl (.append (settles_listed ?_) (.cons rfl settles_nil)))
    exact List.forall_mem_map.mpr fun a ha => ihargs a ha (hcheck.1.2 a ha)
  | @dot _ _ field _ ih =>
    simp only [Js.check, firstFault_cons, firstFault_nil] at hcheck
    have hfield : isField field = true := by
      by_contra hfield
      simp [expect, hfield, passed] at hcheck
    rw [Js.chars_dot]
    refine (ih hcheck.2.2.1).append (.cons rfl ?_)
    obtain ⟨_, hword, hchars | hchars⟩ := exists_word_of_isField hfield
    · exact hchars ▸ settles_word hword
    · exact hchars ▸ (settles_word hword).append (settles_of_inert (by simp [isInert]))
  | subscript hobj hkey ihobj ihkey =>
    simp only [Js.check, firstFault_cons, firstFault_nil] at hcheck
    rw [Js.chars_subscript hobj hkey]
    exact (ihobj hcheck.1).append (.cons rfl ((ihkey hcheck.2.1).append (.cons rfl settles_nil)))
  | @list _ _ _ ih =>
    simp only [Js.check, firstFault_eq_passed_iff, checkEach_eq_map, List.forall_mem_map] at hcheck
    rw [Js.chars_list]
    refine .cons rfl (.append (settles_listed ?_) (.cons rfl settles_nil))
    exact List.forall_mem_map.mpr fun e he => ih e he (hcheck e he)
  | dict _ hlength _ ih =>
    rw [Js.check, firstFault_cons] at hcheck
    have hpassed := check_of_inTurns (by simp [checkEach_eq_map, hlength]) hcheck.2
    rw [Js.chars_dict]
    refine (settles_listed fun _ hcs => ?_).braces
    obtain ⟨_, _, rfl⟩ := List.mem_iff_getElem.mp hcs
    rw [List.getElem_zipWith, entry, Js.chars_string]
    refine (settles_string _).append (.cons rfl (.cons rfl ?_))
    exact ih _ (List.getElem_mem _) (hpassed _ (List.getElem_mem _))

theorem Operational.enclosed (h : Operational j) (hcheck : j.check = passed) : Enclosed isBalanced j.chars :=
  enclosed_of_isBalanced (h.settles hcheck).isBalanced

end Transpiler.Script
