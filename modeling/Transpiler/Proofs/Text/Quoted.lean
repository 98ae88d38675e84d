import Transpiler.Json.Reader

/-!
# Reading quoted text

The reader of strings undoes the quoting of texts, whatever follows the closing quote. Every
character takes one step of the reader: it stands for itself, or it is written by a short escape, by
one UTF-16 unit, or by a pair of units.
-/

namespace Transpiler.Json

open Text (escapeChar hexDigit unitEscape units16)

theorem hexValue?_hexDigit {n : Nat} (h : n < 16) : hexValue? (hexDigit n) = some n := by
  revert n
  decide

theorem readUnit?_unitEscape {n : Nat} (h : n < 0x10000) (rest : List Char) :
    readUnit? ((unitEscape n).drop 2 ++ rest) = some (n, rest) := by
  have hn : ((n / 4096 % 16 * 16 + n / 256 % 16) * 16 + n / 16 % 16) * 16 + n % 16 = n := by
    omega
  simp [unitEscape, readUnit?, hexValue?_hexDigit, Nat.mod_lt, hn]

theorem not_surrogate (c : Char) : c.toNat < 0xd800 ∨ 0xe000 ≤ c.toNat ∧ c.toNat < 0x110000 := by
  have hc := c.valid
  rw [UInt32.isValidChar, Nat.isValidChar] at hc
  rw [Char.toNat]
  omega

theorem readUnits?_units16 (c : Char) (rest : List Char) :
    readUnits? (((units16 c).flatMap unitEscape).drop 2 ++ rest) = some (c, rest) := by
  have hc := not_surrogate c
  by_cases hsmall : c.toNat < 0x10000
  · -- one unit, and it lies outside the range of halves
    have hread := readUnit?_unitEscape hsmall rest
    have hhigh : ¬(0xd800 ≤ c.toNat ∧ c.toNat < 0xdc00) := by omega
    have hlow : ¬(0xdc00 ≤ c.toNat ∧ c.toNat < 0xe000) := by omega
    simp [units16, hsmall, readUnits?, hread, hhigh, hlow]
  · -- two units: the first is a high half, the second a low half
    obtain ⟨hi, hhi⟩ : ∃ hi, hi = 0xd800 + (c.toNat - 0x10000) / 1024 := ⟨_, rfl⟩
    obtain ⟨lo, hlo⟩ : ∃ lo, lo = 0xdc00 + (c.toNat - 0x10000) % 1024 := ⟨_, rfl⟩
    have hunits : units16 c = [hi, lo] := by simp [units16, hsmall, hhi, hlo]
    have hfirst := readUnit?_unitEscape (show hi < 0x10000 by omega) (unitEscape lo ++ rest)
    have hsecond := readUnit?_unitEscape (show lo < 0x10000 by omega) rest
    have hchar : 0x10000 + (hi - 0xd800) * 1024 + (lo - 0xdc00) = c.toNat := by omega
    have hhighs : 0xd800 ≤ hi ∧ hi < 0xdc00 := by omega
    have hlows : 0xdc00 ≤ lo ∧ lo < 0xe000 := by omega
    have hpair : unitEscape lo ++ rest = '\\' :: 'u' :: ((unitEscape lo).drop 2 ++ rest) := rfl
    have htext : ((units16 c).flatMap unitEscape).drop 2 ++ rest =
        (unitEscape hi).drop 2 ++ (unitEscape lo ++ rest) := by
      rw [hunits]
      rfl
    rw [htext, readUnits?, hfirst, hpair]
    simp [hhighs, hsecond, hlows, hchar]

theorem readString?_escapeChar (c : Char) (fuel : Nat) (acc rest : List Char) :
    readString? (fuel + 1) acc (escapeChar c ++ rest) = readString? fuel (c :: acc) rest := by
  unfold escapeChar
  split
  iterate 7 rfl
  next hquote hslash _ _ _ _ _ =>
    split
    · -- a printable character other than the quote and the backslash stands for itself
      next hplain =>
        simp only [Bool.and_eq_true, decide_eq_true_eq] at hplain
        have hlow : ¬c.toNat < 0x20 := by omega
        rw [List.singleton_append, readString?]
        · simpa [hlow] using fun h => absurd h hslash
        · exact hquote
        · exact fun _ h _ => hslash h
        · exact fun _ _ h _ => hslash h
    · have hhead : (units16 c).flatMap unitEscape = '\\' :: 'u' :: ((units16 c).flatMap unitEscape).drop 2 := by
        rw [units16]
        split <;> rfl
      have hread := readUnits?_units16 c rest
      rw [hhead, List.cons_append, List.cons_append, readString?, hread]
      rfl

theorem readString?_flatMap_escapeChar (cs : List Char) {fuel : Nat} (h : cs.length < fuel) (acc rest : List Char) :
    readString? fuel acc (cs.flatMap escapeChar ++ '"' :: rest) =
      some (String.ofList (acc.reverse ++ cs), rest) := by
  induction cs generalizing fuel acc with
  | nil =>
    obtain ⟨fuel, rfl⟩ : ∃ k, fuel = k + 1 := ⟨fuel - 1, by simp at h; omega⟩
    simp [readString?]
  | cons _ _ ih =>
    obtain ⟨fuel, rfl⟩ : ∃ k, fuel = k + 1 := ⟨fuel - 1, by simp at h; omega⟩
    rw [List.flatMap_cons, List.append_assoc, readString?_escapeChar, ih (by simpa using h)]
    simp

end Transpiler.Json
