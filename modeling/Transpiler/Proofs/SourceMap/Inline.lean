import Mathlib.Data.List.Chain
import Mathlib.Data.List.TakeWhile
import Transpiler.Proofs.Text.Base64
import Transpiler.Proofs.Text.Trimmed
import Transpiler.SourceMap.Basic
import Transpiler.SourceMap.Comment

/-!
# Maps inside their output

A map that is written as a comment behind a text is found there, and taken away again, if the text itself names no
map (`discover_stringifyInline`): the line feed before the comment keeps a comment from starting in the text.
-/

namespace Transpiler.SourceMap

open Text (isBlank isLineEnd splitLinesFrom)

variable {cs rest blanks line address : List Char} {c kind sign : Char} {fuel : Nat}

def mapWord : List Char := "sourceMappingURL=".toList

def NamesMap (cs : List Char) : Prop :=
  ∃ kind sign blanks c rest, cs = '/' :: kind :: sign :: (blanks ++ mapWord) ++ c :: rest ∧
    (kind = '*' ∨ kind = '/') ∧ (sign = '#' ∨ sign = '@') ∧ (∀ b ∈ blanks, isBlank b = true) ∧ isAddress c = true

def FreeOfMaps (cs : List Char) : Prop :=
  ∀ s, s <:+ cs → ¬ NamesMap s

/-! ### Comments at the start of a text -/

theorem afterPrefix?_eq_some_iff {word : List Char} : afterPrefix? word cs = some rest ↔ cs = word ++ rest := by
  fun_induction afterPrefix? word cs with
  | case1 => simp
  | case2 _ _ _ ih => simp [ih]
  | case3 _ _ _ _ hne => simp [Ne.symm hne]
  | case4 => simp

theorem dropWhile_mapWord (h : ∀ b ∈ blanks, isBlank b = true) (rest : List Char) :
    (blanks ++ mapWord ++ rest).dropWhile isBlank = mapWord ++ rest := by
  have hword : mapWord = 's' :: mapWord.tail := by decide +kernel
  rw [List.append_assoc, List.dropWhile_append_of_pos h, hword]
  exact List.dropWhile_cons_of_neg (by decide)

theorem comment?_cons (kind sign : Char) (rest : List Char) : comment? ('/' :: kind :: sign :: rest) =
    if (kind == '*' || kind == '/') && (sign == '#' || sign == '@') then
      (afterPrefix? mapWord (rest.dropWhile isBlank)).bind fun cs =>
        let after := (cs.dropWhile isAddress).dropWhile isBlank
        if (cs.takeWhile isAddress).isEmpty then none
        else some (cs.takeWhile isAddress, (afterPrefix? ['*', '/'] after).getD after)
    else none := by
  delta mapWord
  rw [comment?]
  cases afterPrefix? "sourceMappingURL=".toList (rest.dropWhile isBlank) <;> rfl

theorem comment?_of_namesMap (hkind : kind = '*' ∨ kind = '/')
    (hsign : sign = '#' ∨ sign = '@') (hblanks : ∀ b ∈ blanks, isBlank b = true) (hc : isAddress c = true) :
    comment? ('/' :: kind :: sign :: (blanks ++ mapWord) ++ c :: rest) =
      some (c :: rest.takeWhile isAddress, let after := (rest.dropWhile isAddress).dropWhile isBlank
        (afterPrefix? ['*', '/'] after).getD after) := by
  have hafter := afterPrefix?_eq_some_iff.mpr (dropWhile_mapWord hblanks (c :: rest))
  rw [List.cons_append, List.cons_append, List.cons_append, comment?_cons, if_pos (by simpa using ⟨hkind, hsign⟩), hafter]
  simp [hc]

theorem isSome_comment?_iff : (comment? cs).isSome = true ↔ NamesMap cs := by
  constructor
  · intro h
    have hstart : ∃ kind sign rest, cs = '/' :: kind :: sign :: rest := by
      unfold comment? at h
      split at h
      next kind sign rest => exact ⟨kind, sign, rest, rfl⟩
      · cases h
    obtain ⟨kind, sign, rest, rfl⟩ := hstart
    rw [comment?_cons] at h
    split at h
    next hrow =>
      rw [Bool.and_eq_true, Bool.or_eq_true, Bool.or_eq_true, beq_iff_eq, beq_iff_eq, beq_iff_eq, beq_iff_eq] at hrow
      cases hafter : afterPrefix? mapWord (rest.dropWhile isBlank) with
      | none =>
        rw [hafter] at h
        cases h
      | some after =>
        have hrest : rest.takeWhile isBlank ++ (mapWord ++ after) = rest := by
          rw [← afterPrefix?_eq_some_iff.mp hafter, List.takeWhile_append_dropWhile]
        rw [hafter, Option.bind_some] at h
        cases after with
        | nil => cases h
        | cons c more =>
          refine ⟨kind, sign, rest.takeWhile isBlank, c, more, ?_, hrow.1, hrow.2, ?_, ?_⟩
          · rw [List.cons_append, List.cons_append, List.cons_append, List.append_assoc, hrest]
          · exact fun b hb => (List.mem_takeWhile_imp hb)
          · by_contra hc
            simp [hc] at h
    · cases h
  · rintro ⟨_, _, _, _, _, rfl, hkind, hsign, hblanks, hc⟩
    rw [comment?_of_namesMap hkind hsign hblanks hc]
    rfl

theorem comment?_eq_none (h : ¬ NamesMap cs) : comment? cs = none := by
  rw [← isSome_comment?_iff] at h
  simpa using h

/-! ### The seam -/

theorem NamesMap.append (h : NamesMap cs) (more : List Char) : NamesMap (cs ++ more) := by
  obtain ⟨kind, sign, blanks, c, rest, rfl, hnamed⟩ := h
  exact ⟨kind, sign, blanks, c, rest ++ more, by simp, hnamed⟩

theorem FreeOfMaps.ofPart (h : FreeOfMaps cs) (hline : line <:+: cs) : FreeOfMaps line := by
  rintro s ⟨before, rfl⟩ hs
  obtain ⟨first, last, rfl⟩ := hline
  exact h (s ++ last) ⟨first ++ before, by simp⟩ (hs.append last)

theorem isChain_comment (hkind : kind = '*' ∨ kind = '/')
    (hsign : sign = '#' ∨ sign = '@') (hblanks : ∀ b ∈ blanks, isBlank b = true) :
    ('/' :: kind :: sign :: (blanks ++ mapWord) ++ [c]).IsChain fun a b => ¬ (a = '\n' ∧ b = '/') := by
  have hword : (mapWord ++ [c]).IsChain fun a b => ¬ (a = '\n' ∧ b = '/') := by
    refine .append (by decide +kernel) (.singleton _) ?_
    rintro _ ha _ - ⟨rfl, -⟩
    exact absurd ha (by decide +kernel)
  have hspaced : (blanks ++ (mapWord ++ [c])).IsChain fun a b => ¬ (a = '\n' ∧ b = '/') := by
    refine .append ?_ hword ?_
    · rw [List.isChain_iff_forall_rel_of_append_cons_cons]
      rintro _ _ _ _ rfl ⟨-, rfl⟩
      exact absurd (hblanks '/' (by simp)) (by decide)
    · rintro _ - _ hb ⟨-, rfl⟩
      have hhead : (mapWord ++ [c]).head? = some 's' := by
        rw [List.head?_append_of_ne_nil _ (by decide +kernel)]
        decide +kernel
      simp [hhead] at hb
  rw [List.cons_append, List.cons_append, List.cons_append, List.append_assoc]
  refine .cons (.cons (.cons hspaced ?_) ?_) (by simp) <;> rintro _ - ⟨rfl, -⟩ <;> simp_all

theorem NamesMap.of_seam {more : List Char} (h : NamesMap (cs ++ '\n' :: '/' :: more)) : NamesMap cs := by
  obtain ⟨kind, sign, blanks, c, rest, heq, hkind, hsign, hblanks, hc⟩ := h
  have hnamed (rest : List Char) : NamesMap ('/' :: kind :: sign :: (blanks ++ mapWord) ++ [c] ++ rest) :=
    ⟨kind, sign, blanks, c, rest, by simp, hkind, hsign, hblanks, hc⟩
  have hsplit : cs ++ '\n' :: '/' :: more = ('/' :: kind :: sign :: (blanks ++ mapWord) ++ [c]) ++ rest := by
    simpa using heq
  rcases List.append_eq_append_iff.mp hsplit with ⟨inner, hinner, hrest⟩ | ⟨after, rfl, -⟩
  · match inner, hrest with
    | [], _ => simpa [hinner] using hnamed []
    | [d], hrest =>
      have hend := congrArg List.getLast? hinner
      simp only [List.getLast?_append, List.getLast?_singleton, Option.some_or, Option.some.injEq] at hend
      rw [hend, ← (List.cons.inj hrest).1] at hc
      exact absurd hc (by decide)
    | d :: e :: inner, hrest =>
      obtain ⟨hd, hmore⟩ := List.cons.inj hrest
      have hapart := List.isChain_iff_forall_rel_of_append_cons_cons.mp (isChain_comment hkind hsign hblanks) hinner
      exact (hapart ⟨hd.symm, (List.cons.inj hmore).1.symm⟩).elim
  · exact hnamed after

/-! ### Taking a comment away -/

def mapLine (address : List Char) : List Char :=
  '/' :: '/' :: '#' :: ([' '] ++ mapWord) ++ address

theorem comment?_mapLine (hne : address ≠ []) (h : ∀ c ∈ address, isAddress c = true)
    (blanks : List Char) (hblanks : ∀ b ∈ blanks, isBlank b = true) :
    comment? (mapLine address ++ blanks) = some (address, []) := by
  obtain ⟨c, rest, rfl⟩ := List.exists_cons_of_ne_nil hne
  rw [List.forall_mem_cons] at h
  have hrest : ∀ b ∈ blanks, isAddress b = false := fun b hb => by simp [isAddress, hblanks b hb]
  have htake : (rest ++ blanks).takeWhile isAddress = rest := by
    rw [List.takeWhile_append_of_pos h.2]
    cases blanks <;> simp_all
  have hdrop : (rest ++ blanks).dropWhile isAddress = blanks := by
    rw [List.dropWhile_append_of_pos h.2]
    cases blanks <;> simp_all
  have hskip : blanks.dropWhile isBlank = [] := by simpa using hblanks
  have hcomment := @comment?_of_namesMap (rest ++ blanks) [' '] c '/' '#' (.inr rfl) (.inl rfl)
    (List.forall_mem_singleton.mpr (by decide)) h.1
  rw [htake, hdrop, hskip] at hcomment
  simpa [mapLine, afterPrefix?] using hcomment

theorem stripFrom_of_none (h : comment? (c :: rest) = none) :
    stripFrom (fuel + 1) (c :: rest) = c :: stripFrom fuel rest := by
  rw [stripFrom, h]

theorem stripFrom_of_some {after : List Char} (h : comment? cs = some (address, after)) :
    stripFrom (fuel + 1) cs = stripFrom fuel after := by
  cases cs with
  | nil => cases h
  | cons => rw [stripFrom, h]

theorem stripFrom_mapLine (hcs : FreeOfMaps cs) (hne : address ≠ [])
    (h : ∀ c ∈ address, isAddress c = true) (fuel : Nat) :
    stripFrom (fuel + 2 + cs.length) (cs ++ '\n' :: (mapLine address ++ ['\n'])) = cs ++ ['\n'] := by
  induction cs with
  | nil =>
    have hend : stripFrom fuel [] = [] := by cases fuel <;> rfl
    rw [List.nil_append, List.length_nil, Nat.add_zero, stripFrom_of_none rfl,
      stripFrom_of_some (comment?_mapLine hne h ['\n'] (List.forall_mem_singleton.mpr (by decide))), hend, List.nil_append]
  | cons c rest ih =>
    have hnone : comment? (c :: (rest ++ '\n' :: (mapLine address ++ ['\n']))) = none :=
      comment?_eq_none fun hnamed => hcs (c :: rest) (List.suffix_refl _) (NamesMap.of_seam hnamed)
    rw [List.length_cons, List.cons_append, ← Nat.add_assoc, stripFrom_of_none hnone,
      ih fun s hs => hcs s (hs.trans (List.suffix_cons c rest)), List.cons_append]

/-! ### Finding a comment -/

theorem address?_eq_none (h : FreeOfMaps cs) : address? cs = none := by
  induction cs with
  | nil => rfl
  | cons c rest ih =>
    rw [address?, comment?_eq_none (h _ (List.suffix_refl _))]
    exact ih fun s hs => h s (hs.trans (List.suffix_cons c rest))

theorem address?_mapLine (hne : address ≠ []) (h : ∀ c ∈ address, isAddress c = true) :
    address? (mapLine address) = some address := by
  have hcomment := comment?_mapLine hne h [] (by simp)
  rw [List.append_nil] at hcomment
  rw [mapLine, List.cons_append] at hcomment ⊢
  rw [address?, hcomment]

theorem splitLinesFrom_cons {current : List Char} (h : c = '\r' → rest.head? ≠ some '\n') :
    splitLinesFrom current (c :: rest) =
      if isLineEnd c then current.reverse :: splitLinesFrom [] rest else splitLinesFrom (c :: current) rest := by
  rw [splitLinesFrom]
  rintro _ rfl rfl
  exact h rfl rfl

theorem splitLinesFrom_line (h : ∀ c ∈ line, isLineEnd c = false) (current : List Char)
    (hne : current.reverse ++ line ≠ []) : splitLinesFrom current (line ++ ['\n']) = [current.reverse ++ line] := by
  induction line generalizing current with
  | nil =>
    rw [List.nil_append, splitLinesFrom_cons (by simp), if_pos (by decide)]
    simp [splitLinesFrom]
  | cons c rest ih =>
    rw [List.forall_mem_cons] at h
    have hcr : c = '\r' → (rest ++ ['\n']).head? ≠ some '\n' := by
      rintro rfl
      exact absurd h.1 (by decide)
    rw [List.cons_append, splitLinesFrom_cons hcr, h.1, if_neg (by simp), ih h.2 _ (by simp)]
    simp

theorem exists_splitLinesFrom_append (current cs rest : List Char) :
    ∃ lines, splitLinesFrom current (cs ++ '\n' :: rest) = lines ++ splitLinesFrom [] rest ∧
      ∀ l ∈ lines, l <:+: current.reverse ++ cs := by
  have hhere (current : List Char) : splitLinesFrom current ('\n' :: rest) = [current.reverse] ++ splitLinesFrom [] rest := by
    rw [splitLinesFrom_cons (by simp), if_pos (by decide), List.singleton_append]
  have hpart (current more : List Char) : current.reverse <:+: current.reverse ++ more :=
    (List.prefix_append _ _).isInfix
  fun_induction splitLinesFrom current cs with
  | case1 current => exact ⟨_, hhere current, by simp⟩
  | case2 current => exact ⟨_, hhere current, by simp⟩
  | case3 current _ ih =>
    obtain ⟨lines, hlines, hpieces⟩ := ih
    refine ⟨current.reverse :: lines, by simp [splitLinesFrom, hlines], List.forall_mem_cons.mpr ⟨hpart _ _, ?_⟩⟩
    exact fun l hl => (hpieces l hl).trans ⟨current.reverse ++ ['\r', '\n'], [], by simp⟩
  | case4 current c more hcr hc ih =>
    by_cases hlast : c = '\r' ∧ more = []
    · obtain ⟨rfl, rfl⟩ := hlast
      exact ⟨[current.reverse], by simp [splitLinesFrom], by simpa using hpart current ['\r']⟩
    · obtain ⟨lines, hlines, hpieces⟩ := ih
      refine ⟨current.reverse :: lines, ?_, List.forall_mem_cons.mpr ⟨hpart _ _, ?_⟩⟩
      · rw [List.cons_append, splitLinesFrom_cons, if_pos hc, hlines, List.cons_append]
        rintro rfl hhead
        cases more with
        | nil => exact hlast ⟨rfl, rfl⟩
        | cons _ more => exact hcr more rfl (by simpa using hhead)
      · exact fun l hl => (hpieces l hl).trans ⟨current.reverse ++ [c], [], by simp⟩
  | case5 _ _ _ _ hc ih =>
    obtain ⟨lines, hlines, hpieces⟩ := ih
    refine ⟨lines, ?_, by simpa using hpieces⟩
    rw [List.cons_append, splitLinesFrom_cons, if_neg hc, hlines]
    rintro rfl
    exact absurd rfl hc

theorem exists_candidateLines_append (lines : List (List Char)) (line : List Char) :
    ∃ chosen, candidateLines (lines ++ [line]) = chosen ++ [line] ∧ ∀ l ∈ chosen, l ∈ lines := by
  rw [candidateLines]
  split
  next h =>
    rw [List.length_append, List.length_singleton] at h ⊢
    refine ⟨lines.take 5 ++ lines.drop (lines.length + 1 - 5), ?_, ?_⟩
    · rw [List.take_append_of_le_length (by omega), List.drop_append_of_le_length (by omega), List.append_assoc]
    · rw [List.forall_mem_append]
      exact ⟨fun l hl => List.mem_of_mem_take hl, fun l hl => List.mem_of_mem_drop hl⟩
  · exact ⟨lines, rfl, fun l hl => hl⟩

theorem isLineEnd_of_isAddress (h : isAddress c = true) : isLineEnd c = false := by
  by_contra hend
  simp only [isAddress, isBlank, isLineEnd, Bool.and_eq_true, Bool.not_eq_true', Bool.or_eq_false_iff,
    decide_eq_false_iff_not, beq_eq_false_iff_ne, Bool.and_eq_false_iff] at h hend
  omega

theorem discover_mapLine (hcs : FreeOfMaps cs) (hne : address ≠ []) (h : ∀ c ∈ address, isAddress c = true) :
    discover (String.ofList (cs ++ '\n' :: (mapLine address ++ ['\n']))) = some (String.ofList address) := by
  have hends : ∀ c ∈ mapLine address, isLineEnd c = false := by
    have hstart : mapLine address = mapLine [] ++ address := by simp [mapLine]
    rw [hstart, List.forall_mem_append]
    have hword : ∀ c ∈ mapLine [], (!isLineEnd c) = true := List.all_eq_true.mp (by decide +kernel)
    exact ⟨fun c hc => by simpa using hword c hc, fun c hc => isLineEnd_of_isAddress (h c hc)⟩
  obtain ⟨lines, hlines, hpieces⟩ := exists_splitLinesFrom_append [] cs (mapLine address ++ ['\n'])
  obtain ⟨chosen, hchosen, hmem⟩ := exists_candidateLines_append lines (mapLine address)
  have hnone : chosen.findSome? address? = none := by
    rw [List.findSome?_eq_none_iff]
    exact fun l hl => address?_eq_none (hcs.ofPart (by simpa using hpieces l (hmem l hl)))
  have hline := splitLinesFrom_line hends [] (by simp [mapLine])
  rw [List.reverse_nil, List.nil_append] at hline
  rw [discover, String.toList_ofList, hlines, hline, hchosen, List.findSome?_append, hnone, Option.none_or,
    List.findSome?_singleton, address?_mapLine hne h]
  rfl

/-! ### Inline maps -/

theorem isAddress_digit (n : Nat) : isAddress (Text.Base64.digit n) = true := by
  have hall : ∀ c ∈ '=' :: Text.Base64.alphabet, isAddress c = true := List.all_eq_true.mp (by decide +kernel)
  apply hall
  rw [Text.Base64.digit, List.getD_eq_getElem?_getD]
  cases hc : Text.Base64.alphabet[n]? with
  | none => exact List.mem_cons_self
  | some => exact List.mem_cons_of_mem _ (List.mem_of_getElem? hc)

theorem isAddress_ofText (s : String) : ∀ c ∈ (Text.Base64.ofText s).toList, isAddress c = true := by
  have hfill : isAddress '=' = true := by decide
  rw [Text.Base64.ofText, String.toList_ofList]
  fun_induction Text.Base64.encode (s.toList.flatMap Text.Base64.octets) <;> simp_all [isAddress_digit]

theorem toList_inlineComment (s : String) : (inlineComment s).toList =
    '\n' :: (mapLine ("data:text/json;base64,".toList ++ (Text.Base64.ofText s).toList) ++ ['\n']) := by
  have hstart : "\n//# sourceMappingURL=data:text/json;base64,".toList =
      '\n' :: (mapLine [] ++ "data:text/json;base64,".toList) := by decide +kernel
  have hend : "\n".toList = ['\n'] := by decide
  delta inlineComment
  rw [String.toList_append, String.toList_append, hstart, hend]
  generalize "data:text/json;base64,".toList = start
  simp [mapLine]

/-- A map that is written into a text which names no map is found in it, and can be read from what is found; and the
text without it is the one that there was, with the line feed that separates it from the map. -/
theorem discover_stringifyInline {m : SourceMap} {written : Encoded} {text : String} (htext : FreeOfMaps text.toList)
    (hwritten : m.encode = .ok written) : ∃ comment payload, m.stringifyInline = .ok comment ∧
      discover (text ++ comment) = some ("data:text/json;base64," ++ payload) ∧
      Text.Base64.ofBase64? payload = some written.toJson.render ∧ stripComments (text ++ comment) = text ++ "\n" := by
  have haddress : ∀ c ∈ ("data:text/json;base64," ++ Text.Base64.ofText written.toJson.render).toList,
      isAddress c = true := by
    rw [String.toList_append, List.forall_mem_append]
    exact ⟨List.all_eq_true.mp (by decide +kernel), isAddress_ofText _⟩
  have hne : ("data:text/json;base64," ++ Text.Base64.ofText written.toJson.render).toList ≠ [] := by simp
  have hcomment := toList_inlineComment written.toJson.render
  rw [← String.toList_append] at hcomment
  refine ⟨inlineComment written.toJson.render, _, ?_, ?_, Text.Base64.ofBase64?_ofText _, ?_⟩
  · simp [stringifyInline, stringify, hwritten, bind, Except.bind, pure, Except.pure]
  · have hfound := discover_mapLine htext hne haddress
    rw [← hcomment, ← String.toList_append, String.ofList_toList, String.ofList_toList] at hfound
    exact hfound
  · have hstrip := stripFrom_mapLine htext hne haddress
    rw [← hcomment, ← String.toList_append] at hstrip
    have hlength : 2 + text.toList.length ≤ (text ++ inlineComment written.toJson.render).toList.length := by
      rw [String.toList_append, hcomment, List.length_append, List.length_cons, List.length_append, List.length_singleton]
      omega
    obtain ⟨fuel, hfuel⟩ := Nat.exists_eq_add_of_le' hlength
    rw [← Nat.add_assoc] at hfuel
    rw [stripComments, hfuel, hstrip, ← String.toList_inj, String.toList_ofList, String.toList_append]
    rfl

/-- The map of no tokens behind a text of one word. -/
theorem discover_emptyMap : FreeOfMaps "f();".toList ∧ ∃ written comment payload,
    (make [] [] [] false).encode = .ok written ∧ (make [] [] [] false).stringifyInline = .ok comment ∧
      discover ("f();" ++ comment) = some ("data:text/json;base64," ++ payload) ∧
      Text.Base64.ofBase64? payload = some written.toJson.render ∧ stripComments ("f();" ++ comment) = "f();" ++ "\n" := by
  have htext : FreeOfMaps "f();".toList := by
    rintro s hs ⟨kind, sign, blanks, c, rest, rfl, -⟩
    have hslash : '/' ∈ "f();".toList := hs.subset (by simp)
    exact absurd hslash (by decide)
  obtain ⟨comment, payload, hcomment⟩ := discover_stringifyInline (m := make [] [] [] false) htext rfl
  exact ⟨htext, _, comment, payload, rfl, hcomment⟩

end Transpiler.SourceMap
