import Mathlib.Data.List.Chain
import Transpiler.Proofs.Compile.Verbatim

/-!
# Comments end where they should

A text is put into a comment line by line: the lines are trimmed, indented and set between the delimiters without
blanks. Where a text does not end a comment, no pair of characters that come together in this way does either, so the
comment that is written ends with its last two characters (`isComment_comment`).
-/

namespace Transpiler.Script

open Text (splitLines strip)

variable {cs : List Char} {c : Char}

/-- A comment as it is read: it opens, and the first place from the third character on where the two characters that
end a comment stand is its own end. -/
def IsComment (cs : List Char) : Prop :=
  ['/', '*'] <+: cs ∧ ['*', '/'] <:+ cs ∧ 4 ≤ cs.length ∧
    ∀ i, 2 ≤ i → ['*', '/'] <+: cs.drop i → i + 2 = cs.length

/-! ### Texts that do not end a comment -/

def GoesOn (a b : Char) : Prop :=
  ¬ (a = '*' ∧ b = '/')

theorem isChain_goesOn_iff : cs.IsChain GoesOn ↔ ¬ ['*', '/'] <:+: cs := by
  rw [List.isChain_iff_forall_rel_of_append_cons_cons]
  constructor
  · rintro h ⟨before, after, rfl⟩
    exact @h '*' '/' before after (by simp) ⟨rfl, rfl⟩
  · rintro h _ _ before after rfl ⟨rfl, rfl⟩
    exact h ⟨before, after, by simp⟩

theorem endsComment_iff : endsComment cs = true ↔ ['*', '/'] <:+: cs := by
  fun_induction endsComment cs with
  | case1 rest => simpa using ⟨[], rest, rfl⟩
  | case2 _ _ hc ih =>
    rw [ih, List.infix_cons_iff]
    refine ⟨.inr, fun h => h.resolve_left ?_⟩
    rintro ⟨after, hafter⟩
    cases hafter
    exact hc after rfl rfl
  | case3 => simp

theorem isChain_goesOn_between {first second : List Char} (hstar : c ≠ '*') (hslash : c ≠ '/')
    (hfirst : first.IsChain GoesOn) (hsecond : second.IsChain GoesOn) : (first ++ c :: second).IsChain GoesOn := by
  refine hfirst.append (hsecond.cons fun d _ h => hstar h.1) ?_
  rintro _ - _ hb ⟨-, rfl⟩
  exact hslash (by simpa using hb)

theorem isComment_of_isChain {body : List Char} (h : body.IsChain GoesOn) :
    IsComment ('/' :: '*' :: (body ++ ['*', '/'])) := by
  refine ⟨⟨_, rfl⟩, ⟨'/' :: '*' :: body, by simp⟩, by simp, ?_⟩
  rintro _ hi ⟨after, hafter⟩
  obtain ⟨k, rfl⟩ := Nat.exists_eq_add_of_le' hi
  have hfound : body ++ ['*', '/'] = (body ++ ['*', '/']).take k ++ ['*', '/'] ++ after := by
    rw [List.append_assoc, hafter, List.drop_succ_cons, List.drop_succ_cons, List.take_append_drop]
  -- a place before the end would lie within the body and the star behind it
  cases after.eq_nil_or_concat with
  | inl hnil =>
    have hlength := congrArg List.length hafter
    simp [hnil] at hlength ⊢
    omega
  | inr hlast =>
    obtain ⟨rest, _, rfl⟩ := hlast
    have hbody : body ++ ['*'] = (body ++ ['*', '/']).take k ++ ['*', '/'] ++ rest := by
      have hinit := congrArg List.dropLast hfound
      rw [List.concat_eq_append, ← List.append_assoc, List.dropLast_concat] at hinit
      simpa [List.dropLast_append_of_ne_nil] using hinit
    have hchain : (body ++ ['*']).IsChain GoesOn := by
      refine h.append (.singleton _) ?_
      rintro _ - _ hb ⟨-, rfl⟩
      exact absurd hb (by decide)
    exact (isChain_goesOn_iff.mp hchain ⟨_, _, hbody.symm⟩).elim

/-! ### Lines at an indentation -/

def leading (n : Nat) (text : String) : List Char :=
  if Text.allBlank text then [] else (margin n).toList

def laid (n : Nat) (text : String) : List Char :=
  leading n text ++ text.toList ++ ['\n']

section

variable {o o' : Origin} {value : String} {n : Nat} {d : Bool}

theorem toList_shifted (contents : List Content) :
    (Item.joinAll ((contents.map fun c => Item.line ⟨o, 0, false, c⟩).map (o'.toLine n d))).toList =
      (contents.map Content.toString).flatMap (laid n) := by
  induction contents with
  | nil => rfl
  | cons c _ ih =>
    rw [List.map_cons, List.map_cons, Item.joinAll_cons, String.toList_append, ih]
    by_cases h : Text.allBlank c.toString = true <;>
      simp [Origin.toLine, Item.toString, Line.toString, laid, leading, h]

theorem leading_of_mem {text : String} (hc : Text.isBlank c = false) (hmem : c ∈ text.toList) :
    leading n text = (margin n).toList := by
  rw [leading, if_neg]
  intro hblank
  simp [List.all_eq_true.mp hblank c hmem] at hc

theorem isChain_margin (n : Nat) (h : cs.IsChain GoesOn) : ((margin n).toList ++ cs).IsChain GoesOn := by
  rw [margin, String.toList_ofList]
  induction indentStep * n with
  | zero => exact h
  | succ _ ih => exact ih.cons fun _ _ h => absurd h.1 (by decide)

theorem isChain_laid {lines : List String} (h : ∀ l ∈ lines, l.toList.IsChain GoesOn)
    (hcs : cs.IsChain GoesOn) : (lines.flatMap (laid n) ++ cs).IsChain GoesOn := by
  induction lines with
  | nil => exact hcs
  | cons _ _ ih =>
    rw [List.forall_mem_cons] at h
    have hline := isChain_goesOn_between (c := '\n') (by decide) (by decide) h.1 (ih h.2)
    rw [List.flatMap_cons, laid, leading]
    split
    · simpa using hline
    · simpa using isChain_margin n hline

theorem isChain_strip_of_mem (h : value.toList.IsChain GoesOn) {l : String} (hl : l ∈ splitLines value) :
    (strip l).toList.IsChain GoesOn := by
  obtain ⟨cs, hcs, rfl⟩ := List.mem_map.mp hl
  have hline := Text.infix_of_mem_splitLinesFrom hcs
  rw [strip, String.toList_ofList, String.toList_ofList]
  exact h.infix ((Text.isInfix_stripChars cs).trans (by simpa using hline))

/-! ### Comments -/

theorem exists_contents_of_length_le_one (h : (splitLines value).length ≤ 1) (o : Origin) :
    ∃ contents : List Content, (Js.comment o value).items = contents.map (fun c => .line ⟨o, 0, false, c⟩) ∧
      contents.map Content.toString = ["/* " ++ value ++ " */"] := by
  refine ⟨[.piece (.group o .none ([str "/*", str " ", str value, str " ", str "*/"].map Item.toPiece))], ?_, ?_⟩
  · rw [Js.items, multiLine_of_length_le_one h, o.part_eq_group _ cons_str_ne_line]
    rfl
  · simp [Content.toString, Piece.toString, Piece.joinAll, str, Item.toPiece, ← String.toList_inj]

theorem exists_contents_of_one_lt_length (h : 1 < (splitLines value).length) (o : Origin) :
    ∃ first middle last, splitLines value = first :: middle ++ [last] ∧
      ∃ contents : List Content, (Js.comment o value).items = contents.map (fun c => .line ⟨o, 0, false, c⟩) ∧
        contents.map Content.toString =
          ("/*" ++ strip first) :: middle.map strip ++ [strip last ++ "*/"] := by
  obtain ⟨first, middle, last, hsplit, hitems⟩ := exists_multiLine_eq o "/*" "*/" " " h
  refine ⟨first, middle, last, hsplit, .piece (.group o .none ([str "/*", str (strip first)].map Item.toPiece)) ::
    (middle.map fun l => .piece (.text (strip l))) ++
    [.piece (.group o .none ([str (strip last), str "*/"].map Item.toPiece))], ?_, ?_⟩
  · rw [Js.items, hitems, o.part_eq_group _ cons_str_ne_line, o.part_eq_group _ cons_str_ne_line]
    simp [Origin.toLine, Item.toContent, Origin.textLine, closingOf]
  · simp [Content.toString, Piece.toString, Piece.joinAll, str, Item.toPiece]

theorem exists_body (h : value.toList.IsChain GoesOn) (o o' : Origin) (n : Nat) (d : Bool) :
    ∃ body : List Char, body.IsChain GoesOn ∧
      (Item.joinAll ((Js.comment o value).items.map (o'.toLine n d))).toList =
        (margin n).toList ++ ('/' :: '*' :: (body ++ ['*', '/'])) ++ ['\n'] := by
  have hstar {text : String} : '*' ∈ text.toList → leading n text = (margin n).toList := leading_of_mem (by decide)
  by_cases hlines : (splitLines value).length ≤ 1
  · obtain ⟨_, hitems, htexts⟩ := exists_contents_of_length_le_one hlines o
    refine ⟨' ' :: (value.toList ++ [' ']), ?_, ?_⟩
    · have hinner := isChain_goesOn_between (c := ' ') (by decide) (by decide) h .nil
      exact hinner.cons fun _ _ h => absurd h.1 (by decide)
    · rw [hitems, toList_shifted, htexts]
      simp [laid, hstar]
  · obtain ⟨first, middle, last, hsplit, _, hitems, htexts⟩ :=
      exists_contents_of_one_lt_length (Nat.lt_of_not_le hlines) o
    have hstrip : ∀ l ∈ first :: middle ++ [last], (strip l).toList.IsChain GoesOn :=
      fun l hl => isChain_strip_of_mem h (hsplit ▸ hl)
    refine ⟨(strip first).toList ++ '\n' :: ((middle.map strip).flatMap (laid n) ++
      ((margin n).toList ++ (strip last).toList)), ?_, ?_⟩
    · refine isChain_goesOn_between (by decide) (by decide) (hstrip first (by simp)) (isChain_laid ?_ ?_)
      · rw [List.forall_mem_map]
        exact fun l hl => hstrip l (by simp [hl])
      · exact isChain_margin n (hstrip last (by simp))
    · rw [hitems, toList_shifted, htexts]
      simp [laid, hstar]

/-- A comment is accepted if its text does not end one, and then it is written, at every indentation, as a comment
that ends with its last two characters. -/
theorem isComment_comment (o o' : Origin) (value : String) (n : Nat) (d : Bool) :
    ((Js.comment o value).check = passed ↔ ¬ ['*', '/'] <:+: value.toList) ∧
      ((Js.comment o value).check = passed → ∃ cs, IsComment cs ∧
        (Item.joinAll ((Js.comment o value).items.map (o'.toLine n d))).toList = (margin n).toList ++ cs ++ ['\n']) := by
  have haccepted : (Js.comment o value).check = passed ↔ ¬ ['*', '/'] <:+: value.toList := by
    rw [← endsComment_iff, Js.check]
    cases endsComment value.toList <;> simp [expect, passed]
  refine ⟨haccepted, fun h => ?_⟩
  obtain ⟨body, hbody, htext⟩ := exists_body (isChain_goesOn_iff.mpr (haccepted.mp h)) o o' n d
  exact ⟨_, isComment_of_isChain hbody, htext⟩

end

/-- Stars and slashes at the ends of lines end no comment. -/
theorem isComment_starred : (Js.comment default "/ a *\n/\n / b *").check = passed ∧ ∃ cs, IsComment cs ∧
    (Item.joinAll ((Js.comment default "/ a *\n/\n / b *").items.map (Origin.toLine default 1 true))).toList =
      (margin 1).toList ++ cs ++ ['\n'] :=
  have h : (Js.comment default "/ a *\n/\n / b *").check = passed := by decide +kernel
  ⟨h, (isComment_comment default default _ 1 true).2 h⟩

end Transpiler.Script
