import Mathlib.Data.List.Basic
import Transpiler.Text.Lines

/-!
# Places in a text

A place is given by its line and its column, both counted from zero: the line feeds before it, and
the characters since the last of them. `StandsAt` says that a text is found at such a place of
another. Main statement: where a line starts, a text stands further right on that line if and only if
no line feed comes between (`standsAt_append_iff`).
-/

namespace Transpiler.Text

variable {before rest text whole : List Char} {col : Nat}

def column (before : List Char) : Nat :=
  (before.reverse.takeWhile (· != '\n')).length

def StandsAt (whole : List Char) (line col : Int) (text : List Char) : Prop :=
  ∃ before after, whole = before ++ text ++ after ∧ (before.count '\n' : Int) = line ∧ (column before : Int) = col

theorem standsAt_iff_exists_take {line col : Int} : StandsAt whole line col text ↔
    ∃ n ∈ List.range (whole.length + 1), ((whole.take n).count '\n' : Int) = line ∧
      (column (whole.take n) : Int) = col ∧ text <+: whole.drop n := by
  constructor
  · rintro ⟨before, after, rfl, hline, hcol⟩
    rw [List.append_assoc]
    have hrange : before.length ∈ List.range ((before ++ (text ++ after)).length + 1) := by
      rw [List.mem_range, List.length_append]
      omega
    refine ⟨before.length, hrange, ?_⟩
    rw [List.take_left, List.drop_left]
    exact ⟨hline, hcol, after, rfl⟩
  · rintro ⟨n, -, hline, hcol, after, hafter⟩
    refine ⟨whole.take n, after, ?_, hline, hcol⟩
    rw [List.append_assoc, hafter, List.take_append_drop]

instance (whole : List Char) (line col : Int) (text : List Char) : Decidable (StandsAt whole line col text) :=
  decidable_of_iff _ standsAt_iff_exists_take.symm

def StartsLine (before : List Char) : Prop :=
  ∀ c ∈ before.getLast?, c = '\n'

theorem startsLine_nil : StartsLine [] := by
  simp [StartsLine]

theorem StartsLine.append {a b : List Char} (ha : StartsLine a) (hb : StartsLine b) : StartsLine (a ++ b) := by
  intro c hc
  rw [List.getLast?_append] at hc
  rcases h : b.getLast? with _ | d <;> rw [h] at hc
  · exact ha c (by simpa using hc)
  · exact hb c (by simpa [h] using hc)

theorem column_append {inLine : List Char} (h : StartsLine before) (hin : '\n' ∉ inLine) :
    column (before ++ inLine) = inLine.length := by
  have hall : ∀ c ∈ inLine.reverse, (c != '\n') = true := by
    intro _ hc
    simp only [bne_iff_ne, ne_eq]
    rintro rfl
    exact hin (List.mem_reverse.mp hc)
  have hstart : before.reverse.takeWhile (· != '\n') = [] := by
    rcases List.eq_nil_or_concat before with rfl | ⟨_, c, rfl⟩
    · rfl
    · have : c = '\n' := h c (by simp)
      simp [this]
  rw [column, List.reverse_append, List.takeWhile_append_of_pos hall, hstart]
  simp

theorem StartsLine.column_eq_zero (h : StartsLine before) : column before = 0 := by
  simpa using column_append h (List.not_mem_nil (a := '\n'))

theorem append_eq_of_count (h : StartsLine whole)
    (heq : whole = before ++ rest) (hcount : before.count '\n' = whole.count '\n') :
    rest = [] := by
  by_contra hne
  have hlast : rest.getLast hne = '\n' := by
    refine h _ ?_
    rw [heq, List.getLast?_append_of_ne_nil _ hne, List.getLast?_eq_some_getLast hne]
    simp
  have hmem : '\n' ∈ rest := hlast ▸ List.getLast_mem hne
  have := List.count_pos_iff.mpr hmem
  rw [heq, List.count_append] at hcount
  omega

theorem exists_of_standsAt (h : StartsLine before) (hs : StandsAt (before ++ rest) (before.count '\n') col text) :
    ∃ inLine after, rest = inLine ++ text ++ after ∧ '\n' ∉ inLine ∧ inLine.length = col := by
  obtain ⟨front, after, heq, hline, hcol⟩ := hs
  have hcount : front.count '\n' = before.count '\n' := by exact_mod_cast hline
  rw [List.append_assoc] at heq
  -- either text is a start of the other; line feeds tell that `before` is the shorter one
  obtain ⟨inLine, rfl⟩ : before <+: front := by
    have hwhole : before <+: before ++ rest := List.prefix_append before rest
    rcases List.prefix_or_prefix_of_prefix hwhole ⟨_, heq.symm⟩ with hpre | ⟨_, hmore⟩
    · exact hpre
    · have := append_eq_of_count h hmore.symm hcount
      exact ⟨[], by simp [← hmore, this]⟩
  have hin : '\n' ∉ inLine := by
    rw [List.count_append] at hcount
    exact List.count_eq_zero.mp (by omega)
  refine ⟨inLine, after, ?_, hin, ?_⟩
  · simpa using heq
  · rw [column_append h hin] at hcol
    exact_mod_cast hcol

/-- Where an item starts a line, a text that lies in the item at a distance from its start stands at
that column if and only if no line feed comes before it in the item. -/
theorem standsAt_append_iff {item : List Char} (hstart : StartsLine before)
    (hitem : ∃ front after, item = front ++ text ++ after ∧ front.length = col) :
    StandsAt (before ++ (item ++ rest)) (before.count '\n') col text ↔ '\n' ∉ item.take col := by
  constructor
  · intro hs
    obtain ⟨inLine, _, heq, _, hlen⟩ := exists_of_standsAt hstart hs
    obtain ⟨_, _, hfront, hcol⟩ := hitem
    have hle : col ≤ item.length := by rw [hfront, ← hcol]; simp
    have : (item ++ rest).take col = inLine := by
      rw [heq, ← hlen, List.append_assoc, List.take_left]
    rw [List.take_append_of_le_length hle] at this
    rwa [this]
  · intro hfree
    obtain ⟨front, after, rfl, hcol⟩ := hitem
    have htake : (front ++ text ++ after).take col = front := by
      rw [← hcol, List.append_assoc, List.take_left]
    rw [htake] at hfree
    refine ⟨before ++ front, after ++ rest, by simp, ?_, ?_⟩
    · simp [List.count_append, List.count_eq_zero.mpr hfree]
    · rw [column_append hstart hfree, hcol]

end Transpiler.Text
