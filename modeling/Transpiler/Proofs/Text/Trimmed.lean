import Mathlib.Algebra.GroupWithZero.Nat
import Mathlib.Algebra.Order.BigOperators.Group.List
import Mathlib.Algebra.Order.Group.Nat
import Transpiler.Text.Lines

/-!
# Texts that are trimmed line by line

A layout takes the blanks at the ends of the lines of a text, and ends all of them by line feeds; only a text of
one line stays as it is (`relaid`). So a text of several lines is left alone exactly if it is trimmed
(`relaid_eq_self_iff`).
-/

namespace Transpiler.Text

variable {line : List Char} {sep : Char} {lines : List (List Char)} {s : String}

def trimLines (s : String) : String :=
  "\n".intercalate ((splitLines s).map strip)

def relaid (s : String) : String :=
  if (splitLines s).length ≤ 1 then s else trimLines s

/-- No line of a text has blanks at its ends, and there is a single line feed between two lines and none after the
last. -/
def IsTrimmed (s : String) : Prop :=
  (∀ line ∈ splitLines s, strip line = line) ∧ "\n".intercalate (splitLines s) = s

instance (s : String) : Decidable (IsTrimmed s) :=
  inferInstanceAs (Decidable (_ ∧ _))

def KeepsLines (s : String) : Prop :=
  (splitLines s).length ≤ 1 ∨ IsTrimmed s

instance (s : String) : Decidable (KeepsLines s) :=
  inferInstanceAs (Decidable (_ ∨ _))

/-! ### What is left out -/

theorem stripChars_sublist (cs : List Char) : (stripChars cs).Sublist cs := by
  have hright := (List.dropWhile_sublist isBlank (l := (stripLeft cs).reverse)).reverse
  rw [List.reverse_reverse] at hright
  exact hright.trans (List.dropWhile_sublist _)

theorem isInfix_stripChars (cs : List Char) : stripChars cs <:+: cs := by
  have hright : (stripLeft (stripLeft cs).reverse).reverse <+: stripLeft cs := by
    rw [← List.reverse_suffix, List.reverse_reverse]
    exact List.dropWhile_suffix _
  exact hright.isInfix.trans (List.dropWhile_suffix _).isInfix

theorem infix_of_mem_splitLinesFrom {current cs : List Char} (h : line ∈ splitLinesFrom current cs) :
    line <:+: current.reverse ++ cs := by
  fun_induction splitLinesFrom current cs with
  | case1 => simp at h
  | case2 => simp_all
  | case3 current rest ih =>
    rcases List.mem_cons.mp h with rfl | h
    · exact (List.prefix_append _ _).isInfix
    · exact (ih h).trans (List.suffix_append (current.reverse ++ ['\r', '\n']) rest).isInfix |>.trans (by simp)
  | case4 current c rest _ _ ih =>
    rcases List.mem_cons.mp h with rfl | h
    · exact (List.prefix_append _ _).isInfix
    · exact (ih h).trans (List.suffix_append (current.reverse ++ [c]) rest).isInfix |>.trans (by simp)
  | case5 _ _ _ _ _ ih => simpa using ih h

def lineFeed (c : Char) : Char :=
  if isLineEnd c then '\n' else c

theorem lineFeed_of_isLineEnd {c : Char} (h : isLineEnd c = true) : lineFeed c = '\n' :=
  if_pos h

theorem intercalate_cons_sublist {rest : List Char} (h : ([sep].intercalate lines).Sublist rest) :
    ([sep].intercalate (line :: lines)).Sublist (line ++ sep :: rest) := by
  cases lines with
  | nil => simp
  | cons =>
    rw [List.intercalate_cons_cons]
    simpa using h

theorem intercalate_splitLinesFrom_sublist (current cs : List Char) :
    (['\n'].intercalate (splitLinesFrom current cs)).Sublist (current.reverse ++ cs.map lineFeed) := by
  fun_induction splitLinesFrom current cs with
  | case1 => simp
  | case2 => simp
  | case3 _ _ ih =>
    rw [List.map_cons, List.map_cons, lineFeed_of_isLineEnd (c := '\r') rfl]
    exact intercalate_cons_sublist (ih.cons _)
  | case4 _ _ _ _ hc ih =>
    rw [List.map_cons, lineFeed_of_isLineEnd hc]
    exact intercalate_cons_sublist ih
  | case5 _ c _ _ hc ih =>
    have hsame : lineFeed c = c := if_neg hc
    simpa [hsame] using ih

theorem intercalate_map_sublist (sep : Char) {f : List Char → List Char} (hf : ∀ l, (f l).Sublist l)
    (lines : List (List Char)) : ([sep].intercalate (lines.map f)).Sublist ([sep].intercalate lines) := by
  induction lines with
  | nil => simp
  | cons line rest ih =>
    cases rest with
    | nil => simpa using hf line
    | cons =>
      simp only [List.map_cons, List.intercalate_cons_cons] at ih ⊢
      exact ((hf line).append (List.Sublist.refl _)).append ih

theorem eq_of_intercalate_map_eq {f : List Char → List Char} (hf : ∀ l, (f l).Sublist l)
    (h : [sep].intercalate (lines.map f) = [sep].intercalate lines) :
    ∀ line ∈ lines, f line = line := by
  induction lines with
  | nil => simp
  | cons line rest ih =>
    cases rest with
    | nil => simpa using h
    | cons next more =>
      have hrest := intercalate_map_sublist sep hf (next :: more)
      have hlength := congrArg List.length h
      simp only [List.map_cons, List.intercalate_cons_cons, List.length_append] at h hlength hrest ih
      have hle := (hf line).length_le
      have hrestle := hrest.length_le
      have hline : f line = line := (hf line).eq_of_length (by omega)
      refine List.forall_mem_cons.mpr ⟨hline, ih (hrest.eq_of_length (by omega))⟩

theorem toList_intercalate_splitLines (s : String) :
    ("\n".intercalate (splitLines s)).toList = ['\n'].intercalate (splitLinesFrom [] s.toList) := by
  simp [String.toList_intercalate, splitLines, Function.comp_def]

theorem toList_trimLines (s : String) :
    (trimLines s).toList = ['\n'].intercalate ((splitLinesFrom [] s.toList).map stripChars) := by
  simp [trimLines, String.toList_intercalate, splitLines, strip, Function.comp_def]

theorem trimLines_sublist (s : String) : (trimLines s).toList.Sublist (s.toList.map lineFeed) := by
  rw [toList_trimLines]
  exact (intercalate_map_sublist '\n' stripChars_sublist _).trans (intercalate_splitLinesFrom_sublist [] _)

/-! ### What is left alone -/

theorem trimLines_eq_self_iff : trimLines s = s ↔ IsTrimmed s := by
  constructor
  · intro h
    have htrim := intercalate_map_sublist '\n' stripChars_sublist (splitLinesFrom [] s.toList)
    have hlines := intercalate_splitLinesFrom_sublist [] s.toList
    have hchars : ['\n'].intercalate ((splitLinesFrom [] s.toList).map stripChars) = s.toList := by
      rw [← toList_trimLines, h]
    -- the lines are at least as long as the trimmed ones, and not longer than the text
    have hsame := htrim.eq_of_length_le (by simpa [hchars] using hlines.length_le)
    constructor
    · intro _ hline
      obtain ⟨cs, hcs, rfl⟩ := List.mem_map.mp hline
      rw [strip, String.toList_ofList, eq_of_intercalate_map_eq stripChars_sublist hsame cs hcs]
    · rw [← String.toList_inj, toList_intercalate_splitLines, ← hsame, hchars]
  · rintro ⟨htrim, hjoin⟩
    rw [trimLines, List.map_congr_left htrim, List.map_id', hjoin]

theorem relaid_eq_self_iff : relaid s = s ↔ KeepsLines s := by
  rw [relaid, KeepsLines]
  split
  next h => simp [h]
  next h => simp [h, trimLines_eq_self_iff]

theorem sum_relaid_le {weight : Char → Nat} (h : ∀ c, weight '\n' ≤ weight c) (s : String) :
    ((relaid s).toList.map weight).sum ≤ (s.toList.map weight).sum := by
  rw [relaid]
  split
  · exact Nat.le_refl _
  · calc ((trimLines s).toList.map weight).sum ≤ ((s.toList.map lineFeed).map weight).sum :=
          ((trimLines_sublist s).map weight).sum_le_sum fun _ _ => Nat.zero_le _
      _ ≤ (s.toList.map weight).sum := by
          rw [List.map_map]
          refine List.sum_le_sum fun c _ => ?_
          show weight (lineFeed c) ≤ weight c
          rw [lineFeed]
          split
          · exact h c
          · exact Nat.le_refl _

end Transpiler.Text
