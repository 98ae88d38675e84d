import Transpiler.Proofs.Outcome
import Transpiler.SourceMap.Identity

/-!
# Adding tokens to a map

A token that stands after all others goes to the end. So tokens that are added in the order of the
output are kept as they are (`addAll_of_pairwise`). Whatever the order, a map holds no token that was
not added to it (`mem_of_addAll`).

The tokens that map a text onto itself come in the order of their places, whatever comments and blank lines the text
has, so that a map takes them all (`identityTokens_identity`).
-/

namespace Transpiler.SourceMap

open Text (indentWidth isBlank splitLinesFrom)

variable {m : SourceMap} {t u : Token} {ts : List Token}

theorem add_of_isAfter (h : ∀ u ∈ m.tokens, t.isAfter u) : m.add t = .ok { m with tokens := m.tokens ++ [t] } := by
  have : m.tokens.getLast?.all t.isAfter = true := by
    simp only [Option.all_eq_true]
    exact fun last hlast => h last (List.mem_of_getLast? hlast)
  rw [add, if_pos this]
  rfl

theorem addAll_of_pairwise : ∀ {m : SourceMap}, (m.tokens ++ ts).Pairwise (fun u t => t.isAfter u) →
    m.addAll ts = .ok { m with tokens := m.tokens ++ ts } := by
  induction ts with
  | nil =>
    intro _ _
    simp [addAll, pure, Except.pure]
  | cons t _ ih =>
    intro m h
    have hlast : ∀ u ∈ m.tokens, t.isAfter u := fun u hu =>
      (List.pairwise_append.mp h).2.2 u hu t (by simp)
    have hnext := ih (m := { m with tokens := m.tokens ++ [t] }) (by simpa using h)
    rw [addAll, List.foldlM_cons, add_of_isAfter hlast, ok_bind]
    simpa [addAll] using hnext

theorem mem_of_add {m' : SourceMap} (h : m.add t = .ok m') (hu : u ∈ m'.tokens) : u ∈ m.tokens ∨ u = t := by
  -- the token goes to the end, or to an index found by bisection
  have hcases : m'.tokens = m.tokens ++ [t] ∨ ∃ index, m'.tokens = m.tokens.take index ++ t :: m.tokens.drop index := by
    simp only [add] at h
    split at h
    · cases h
      exact .inl rfl
    · obtain ⟨index, -, h⟩ := bind_eq_ok.mp h
      refine .inr ⟨index, ?_⟩
      split at h <;> split at h <;> cases h <;> rfl
  rcases hcases with heq | ⟨_, heq⟩
  · simpa [heq] using hu
  · rw [heq, List.mem_append, List.mem_cons] at hu
    rcases hu with hu | rfl | hu
    · exact .inl (List.mem_of_mem_take hu)
    · exact .inr rfl
    · exact .inl (List.mem_of_mem_drop hu)

theorem mem_of_addAll : ∀ {m m' : SourceMap}, m.addAll ts = .ok m' → u ∈ m'.tokens → u ∈ m.tokens ∨ u ∈ ts := by
  induction ts with
  | nil =>
    intro _ _ h hu
    cases h
    exact .inl hu
  | cons _ _ ih =>
    intro _ _ h hu
    rw [addAll, List.foldlM_cons] at h
    obtain ⟨_, hnext, h⟩ := bind_eq_ok.mp h
    rcases ih h hu with hu | hu
    · rcases mem_of_add hnext hu with hu | rfl
      · exact .inl hu
      · exact .inr (by simp)
    · exact .inr (by simp [hu])

variable {line : List Char} {lines : List (List Char)} {src : Option String} {n : Nat}

/-! ### The columns of a line -/

def delimiterPlaces (col : Nat) (line : List Char) : List Nat :=
  ((line.zipIdx col).filter (isDelimiter ·.1)).map (·.2)

theorem delimiterCols_sublist (inComment : Bool) (col : Nat) (line : List Char) :
    (delimiterCols inComment (punctuation col line)).1.Sublist (delimiterPlaces col line) := by
  -- along the marks of the line; of a comment that opens or ends no character is a delimiter
  fun_induction punctuation col line generalizing inComment with
  | case1 col rest ih =>
    cases inComment
    · simp [delimiterCols]
    · show (delimiterCols true (punctuation (col + 2) rest)).1.Sublist _
      simpa +decide [delimiterPlaces] using ih true
  | case2 col rest ih | case3 col rest ih =>
    cases inComment <;> simpa +decide [delimiterCols, delimiterPlaces] using ih _
  | case4 col _ rest _ _ _ hc ih =>
    cases inComment
    · simpa [delimiterCols, delimiterPlaces, hc] using ih false
    · show (delimiterCols true (punctuation (col + 1) rest)).1.Sublist _
      simpa [delimiterPlaces, hc] using (ih true).cons col
  | case5 _ _ _ _ _ _ hc ih => simpa [delimiterPlaces, hc] using ih inComment
  | case6 => simp [delimiterCols]

theorem delimiterPlaces_sublist (line : List Char) : (delimiterPlaces 0 line).Sublist (List.range line.length) := by
  rw [List.range_eq_range', ← List.zipIdx_map_snd 0 line]
  exact List.filter_sublist.map _

theorem isDelimiter_of_mem {col : Nat} (h : col ∈ delimiterPlaces 0 line) : ∃ c ∈ line, isDelimiter c = true := by
  obtain ⟨⟨c, _⟩, hmem, rfl⟩ := List.mem_map.mp h
  obtain ⟨hmem, hc⟩ := List.mem_filter.mp hmem
  exact ⟨c, List.fst_mem_of_mem_zipIdx hmem, hc⟩

theorem not_isBlank_of_isDelimiter {c : Char} (h : isDelimiter c = true) : isBlank c = false := by
  simp [isDelimiter] at h
  rcases h with rfl | rfl | rfl | rfl | rfl | rfl | rfl <;> decide

theorem delimiterCols_of_blank (inComment : Bool) (h : line.all isBlank = true) :
    (delimiterCols inComment (punctuation 0 line)).1 = [] := by
  refine List.eq_nil_iff_forall_not_mem.mpr fun _ hcol => ?_
  obtain ⟨c, hc, hdelimiter⟩ := isDelimiter_of_mem ((delimiterCols_sublist inComment 0 line).subset hcol)
  have hblank := List.all_eq_true.mp h c hc
  simp [not_isBlank_of_isDelimiter hdelimiter] at hblank

theorem indentWidth_lt (h : line.all isBlank = false) : indentWidth line < line.length := by
  refine Nat.lt_of_le_of_ne (List.takeWhile_sublist _).length_le fun hlength => ?_
  rw [← (List.takeWhile_sublist _).eq_of_length hlength, List.all_takeWhile] at h
  cases h

/-- The columns of a line increase and lie in it. One is that of its first character that is no blank. -/
theorem tokenCols_spec (inComment : Bool) (line : List Char) :
    (tokenCols inComment line).1.Pairwise (· < ·) ∧ (∀ col ∈ (tokenCols inComment line).1, col < line.length) ∧
      (line.all isBlank = true → (tokenCols inComment line).1 = []) ∧
      (line.all isBlank = false → indentWidth line ∈ (tokenCols inComment line).1) := by
  unfold tokenCols
  have hcols := (delimiterCols_sublist inComment 0 line).trans (delimiterPlaces_sublist line)
  rcases hmarks : delimiterCols inComment (punctuation 0 line) with ⟨cols, _⟩
  rw [hmarks] at hcols
  cases hblank : line.all isBlank with
  | true => simp
  | false =>
    have hstart := indentWidth_lt hblank
    have hlater : ∀ col ∈ cols.filter (indentWidth line < ·), indentWidth line < col ∧ col < line.length := by
      intro _ hcol
      obtain ⟨hcol, hlt⟩ := List.mem_filter.mp hcol
      exact ⟨of_decide_eq_true hlt, List.mem_range.mp (hcols.subset hcol)⟩
    have hsorted : (cols.filter (indentWidth line < ·)).Pairwise (· < ·) :=
      (List.pairwise_lt_range.sublist hcols).filter _
    simp only [Bool.false_eq_true, if_false]
    generalize cols.filter (indentWidth line < ·) = later at hlater hsorted
    split
    next hzero =>
      rw [hzero] at hlater hstart ⊢
      simp only [List.singleton_append, List.pairwise_cons, List.forall_mem_cons]
      exact ⟨⟨fun col hcol => (hlater col hcol).1, hsorted⟩, ⟨hstart, fun col hcol => (hlater col hcol).2⟩, by simp⟩
    · simp only [List.cons_append, List.nil_append, List.pairwise_cons, List.forall_mem_cons]
      refine ⟨⟨⟨by omega, fun col hcol => ?_⟩, fun col hcol => (hlater col hcol).1, hsorted⟩,
        ⟨by omega, hstart, fun col hcol => (hlater col hcol).2⟩, by simp⟩
      exact Nat.zero_lt_of_lt (hlater col hcol).1

/-! ### The lines of a text -/

/-- A token that maps a place onto itself. -/
def identityToken (src : Option String) (n col : Nat) : Token :=
  .plain n col src n col none

theorem identityFrom_cons (inComment : Bool) : identityFrom src n inComment (line :: lines) =
    (tokenCols inComment line).1.map (identityToken src n) ++
      identityFrom src (n + 1) (tokenCols inComment line).2 lines :=
  rfl

theorem exists_of_mem_identityFrom {inComment : Bool} {t : Token} (h : t ∈ identityFrom src n inComment lines) :
    ∃ i line b, ∃ col ∈ (tokenCols b line).1, lines[i]? = some line ∧ t = identityToken src (n + i) col := by
  induction lines generalizing n inComment with
  | nil => cases h
  | cons line _ ih =>
    rw [identityFrom_cons, List.mem_append, List.mem_map] at h
    rcases h with ⟨col, hcol, rfl⟩ | h
    · exact ⟨0, line, inComment, col, hcol, rfl, rfl⟩
    · obtain ⟨i, line, b, col, hcol, hline, rfl⟩ := ih h
      exact ⟨i + 1, line, b, col, hcol, hline, by rw [Nat.add_right_comm, Nat.add_assoc]⟩

theorem mem_identityFrom (src : Option String) (n : Nat) (inComment : Bool) {i col : Nat} (hline : lines[i]? = some line)
    (hcol : ∀ b, col ∈ (tokenCols b line).1) : identityToken src (n + i) col ∈ identityFrom src n inComment lines := by
  induction lines generalizing n inComment i with
  | nil => cases hline
  | cons _ _ ih =>
    rw [identityFrom_cons, List.mem_append]
    cases i with
    | zero =>
      cases hline
      exact .inl (List.mem_map_of_mem (hcol inComment))
    | succ =>
      rw [← Nat.add_assoc, Nat.add_right_comm]
      exact .inr (ih _ _ hline)

theorem pairwise_identityFrom (src : Option String) (n : Nat) (inComment : Bool) (lines : List (List Char)) :
    (identityFrom src n inComment lines).Pairwise fun t u => u.isAfter t := by
  induction lines generalizing n inComment with
  | nil => exact .nil
  | cons line _ ih =>
    rw [identityFrom_cons, List.pairwise_append, List.pairwise_map]
    refine ⟨(tokenCols_spec inComment line).1.imp fun h => ?_, ih _ _, fun t ht u hu => ?_⟩
    · simpa [Token.isAfter, identityToken, Token.plain] using h
    · obtain ⟨_, -, rfl⟩ := List.mem_map.mp ht
      obtain ⟨i, _, _, _, -, -, rfl⟩ := exists_of_mem_identityFrom hu
      have hlt : (n : Int) < n + 1 + i := by omega
      simp [Token.isAfter, identityToken, Token.plain, hlt]

/-- The tokens of a text strictly increase. Each maps a place of a line onto itself. A line has one at its first
character that is no blank, and a blank line has none; nor has it a delimiter, for which the column of that character
would be asked. So an empty map takes the tokens one by one. -/
theorem identityTokens_identity (content : String) (src : Option String) :
    (identityTokens content src).Pairwise (fun t u => u.isAfter t) ∧
      (∀ t ∈ identityTokens content src, ∃ n col line, (splitLinesFrom [] content.toList)[n]? = some line ∧
        col < line.length ∧ t = identityToken src n col) ∧
      (∀ n before c after, (splitLinesFrom [] content.toList)[n]? = some (before ++ c :: after) →
        (∀ b ∈ before, isBlank b = true) → isBlank c = false →
          identityToken src n before.length ∈ identityTokens content src) ∧
      (∀ (n : Nat) line, (splitLinesFrom [] content.toList)[n]? = some line → line.all isBlank = true →
        (∀ t ∈ identityTokens content src, t.dstLine ≠ n) ∧
          ∀ inComment, (delimiterCols inComment (punctuation 0 line)).1 = []) ∧
      ∀ contents raw lenient, (make [] contents raw lenient).addAll (identityTokens content src) =
        .ok ⟨identityTokens content src, contents, raw, lenient⟩ := by
  have hsorted := pairwise_identityFrom src 0 false (splitLinesFrom [] content.toList)
  refine ⟨hsorted, fun t ht => ?_, fun n before c after hline hbefore hc => ?_, fun n line hline hblank => ⟨?_, ?_⟩,
    fun contents raw lenient => addAll_of_pairwise hsorted⟩
  · obtain ⟨n, line, b, col, hcol, hline, rfl⟩ := exists_of_mem_identityFrom ht
    rw [Nat.zero_add]
    exact ⟨n, col, line, hline, (tokenCols_spec b line).2.1 col hcol, rfl⟩
  · have hstart : indentWidth (before ++ c :: after) = before.length := by
      simp [indentWidth, List.takeWhile_append_of_pos hbefore, hc]
    have hmem := mem_identityFrom src 0 false hline fun b => (tokenCols_spec b _).2.2.2 (by simp [hc])
    rwa [hstart, Nat.zero_add] at hmem
  · intro t ht hn
    obtain ⟨i, line', b, col, hcol, hline', rfl⟩ := exists_of_mem_identityFrom ht
    obtain rfl : i = n := Int.ofNat_inj.mp (by simpa [identityToken, Token.plain] using hn)
    cases hline.symm.trans hline'
    rw [(tokenCols_spec b line).2.2.1 hblank] at hcol
    cases hcol
  · exact fun inComment => delimiterCols_of_blank inComment hblank

end Transpiler.SourceMap
