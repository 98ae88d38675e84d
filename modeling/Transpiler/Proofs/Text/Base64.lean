import Transpiler.Proofs.SourceMap.Quantities

/-!
# Reading base 64 back

A text that is written in base 64 can be read back (`ofBase64?_ofText`): groups of four digits give three octets or
fewer (`decode?`), and the octets give the characters that they stand for (`charsFrom`).
-/

namespace Transpiler.Text.Base64

open SourceMap.Vlq (value?_digit)

def decode? : List Char → Option (List Nat)
  | [] => some []
  | a :: b :: c :: d :: rest => do
    let x ← value? a
    let y ← value? b
    if c = '=' then if d = '=' ∧ rest = [] then some [x * 4 + y / 16] else none
    else
      let z ← value? c
      if d = '=' then if rest = [] then some [x * 4 + y / 16, y % 16 * 16 + z / 4] else none
      else return (x * 4 + y / 16) :: (y % 16 * 16 + z / 4) :: (z % 4 * 64 + (← value? d)) :: (← decode? rest)
  | _ => none

/-- The characters of octets in UTF-8; of the first one `missing` octets are to come, and `acc` was read of it. -/
def charsFrom (acc missing : Nat) : List Nat → List Char
  | [] => []
  | a :: rest =>
    if a < 0x80 then Char.ofNat a :: charsFrom 0 0 rest
    else if a < 0xc0 then
      if missing = 1 then Char.ofNat (acc * 64 + (a - 0x80)) :: charsFrom 0 0 rest
      else charsFrom (acc * 64 + (a - 0x80)) (missing - 1) rest
    else if a < 0xe0 then charsFrom (a - 0xc0) 1 rest
    else if a < 0xf0 then charsFrom (a - 0xe0) 2 rest
    else charsFrom (a - 0xf0) 3 rest

def ofBase64? (s : String) : Option String :=
  (decode? s.toList).map fun octets => String.ofList (charsFrom 0 0 octets)

theorem digit_ne_fill : ∀ n < 64, digit n ≠ '=' := by
  decide +kernel

theorem decode?_encode {ns : List Nat} (h : ∀ n ∈ ns, n < 256) : decode? (encode ns) = some ns := by
  fun_induction encode ns with
  | case1 => rfl
  | case2 a =>
    have ha : a < 256 := h a (by simp)
    rw [decode?, value?_digit _ (by omega), value?_digit _ (by omega)]
    simp
    omega
  | case3 a b =>
    have ha : a < 256 := h a (by simp)
    have hb : b < 256 := h b (by simp)
    rw [decode?, value?_digit _ (by omega), value?_digit _ (by omega), value?_digit _ (by omega)]
    simp [digit_ne_fill (b % 16 * 4) (by omega)]
    omega
  | case4 a b c _ ih =>
    have ha : a < 256 := h a (by simp)
    have hb : b < 256 := h b (by simp)
    have hc : c < 256 := h c (by simp)
    rw [decode?, value?_digit _ (by omega), value?_digit _ (by omega), value?_digit _ (by omega),
      value?_digit _ (by omega), ih fun n hn => h n (by simp [hn])]
    simp [digit_ne_fill (b % 16 * 4 + c / 64) (by omega), digit_ne_fill (c % 64) (by omega)]
    omega

theorem toNat_lt (c : Char) : c.toNat < 0x110000 := by
  rcases c.valid with h | h
  · exact Nat.lt_trans h (by decide)
  · exact h.2

theorem lt_of_mem_octets {c : Char} {n : Nat} (h : n ∈ octets c) : n < 256 := by
  have hc := toNat_lt c
  unfold octets at h
  dsimp only at h
  split at h
  · simp at h
    omega
  split at h
  · simp at h
    omega
  split at h <;> simp at h <;> omega

theorem charsFrom_tail (acc missing : Nat) {x : Nat} (hx : x < 64) (rest : List Nat) :
    charsFrom acc missing ((0x80 + x) :: rest) =
      if missing = 1 then Char.ofNat (acc * 64 + x) :: charsFrom 0 0 rest
      else charsFrom (acc * 64 + x) (missing - 1) rest := by
  rw [charsFrom, if_neg (by omega), if_pos (by omega), Nat.add_sub_cancel_left]

theorem charsFrom_octets (c : Char) (rest : List Nat) :
    charsFrom 0 0 (octets c ++ rest) = c :: charsFrom 0 0 rest := by
  have hc := toNat_lt c
  have hchar {n : Nat} (hn : n = c.toNat) : Char.ofNat n = c := by rw [hn, Char.ofNat_toNat]
  have htail (acc missing n : Nat) := charsFrom_tail acc missing (Nat.mod_lt n (by decide : 64 > 0))
  unfold octets
  dsimp only
  split
  next h => simp [charsFrom, h]
  next =>
  split
  · rw [List.cons_append, charsFrom, if_neg (by omega), if_neg (by omega), if_pos (by omega)]
    simp only [List.cons_append, List.nil_append, htail]
    rw [if_pos trivial, hchar (by omega)]
  next =>
  split
  · rw [List.cons_append, charsFrom, if_neg (by omega), if_neg (by omega), if_neg (by omega), if_pos (by omega)]
    simp only [List.cons_append, List.nil_append, htail]
    rw [if_neg (by decide), if_pos trivial, hchar (by omega)]
  · rw [List.cons_append, charsFrom, if_neg (by omega), if_neg (by omega), if_neg (by omega), if_neg (by omega)]
    simp only [List.cons_append, List.nil_append, htail]
    rw [if_neg (by decide), if_neg (by decide), if_pos trivial, hchar (by omega)]

theorem ofBase64?_ofText (s : String) : ofBase64? (ofText s) = some s := by
  have hchars (cs : List Char) : charsFrom 0 0 (cs.flatMap octets) = cs := by
    induction cs with
    | nil => rfl
    | cons _ _ ih => rw [List.flatMap_cons, charsFrom_octets, ih]
  have hoctets : ∀ n ∈ s.toList.flatMap octets, n < 256 := by
    intro _ hn
    obtain ⟨_, -, hn⟩ := List.mem_flatMap.mp hn
    exact lt_of_mem_octets hn
  simp [ofBase64?, ofText, decode?_encode hoctets, hchars]

end Transpiler.Text.Base64
