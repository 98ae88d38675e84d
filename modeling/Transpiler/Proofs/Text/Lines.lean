import Mathlib.Data.List.Infix
import Transpiler.Text.Lines

/-!
# Cutting and joining

Cutting a text at a character undoes joining pieces by it, if no piece holds the character; and no piece
that it is cut into does.
-/

namespace Transpiler.Text

theorem splitChars_eq_splitOn (sep : Char) (cs : List Char) : splitChars sep cs = cs.splitOn sep := by
  induction cs with
  | nil => rfl
  | cons c cs ih =>
    rw [splitChars, ih, List.splitOn_cons_eq_if_modifyHead]
    by_cases hc : c = sep
    · simp [hc]
    · obtain ⟨_, _, hp⟩ := List.exists_cons_of_ne_nil (List.splitOn_ne_nil sep cs)
      simp [hc, hp]

theorem notMem_of_mem_splitChars {sep : Char} {cs piece : List Char} (h : piece ∈ splitChars sep cs) : sep ∉ piece := by
  induction cs generalizing piece with
  | nil => simp_all [splitChars]
  | cons _ rest ih =>
    rw [splitChars] at h
    split at h
    · rcases List.mem_cons.mp h with rfl | h
      · simp
      · exact ih h
    next hc =>
      split at h
      next hnil =>
        rw [splitChars_eq_splitOn] at hnil
        exact (List.splitOn_ne_nil sep rest hnil).elim
      next hpieces =>
        rcases List.mem_cons.mp h with rfl | h
        · simp [Ne.symm hc, ih (hpieces ▸ List.mem_cons_self)]
        · exact ih (hpieces ▸ List.mem_cons_of_mem _ h)

theorem splitOn_intercalate {sep : Char} {pieces : List String} (hne : pieces ≠ []) (h : ∀ p ∈ pieces, sep ∉ p.toList) :
    splitOn sep ((String.singleton sep).intercalate pieces) = pieces := by
  have hsplit : ([sep].intercalate (pieces.map String.toList)).splitOn sep = pieces.map String.toList :=
    List.splitOn_intercalate sep (by simpa using h) (by simpa using hne)
  rw [splitOn, splitChars_eq_splitOn, String.toList_intercalate, String.toList_singleton, hsplit]
  simp

end Transpiler.Text
