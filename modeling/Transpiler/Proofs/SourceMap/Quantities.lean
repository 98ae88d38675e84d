import Mathlib.Tactic.Ring
import Transpiler.Proofs.Outcome
import Transpiler.SourceMap.Vlq

/-!
# The language of quantities

Which texts can be read as quantities, and how many texts say the same. The digits of an integer end where its
last digit says so, whatever follows them (`decode_join`). A text can be read if it has only base 64 digits and its
last one does not ask for another (`decode_language`). Many texts say one integer, since digits of value zero may
follow; the written one is the shortest, and for integers other than zero it is the only one of its length
(`decode_join_and_shortest`).
-/

namespace Transpiler.SourceMap.Vlq

open Text (Base64.digit Base64.value? Base64.alphabet)

/-! ### Digits -/

theorem value?_digit : ∀ n < 64, Base64.value? (Base64.digit n) = some n := by
  decide +kernel

theorem digit_ne_separator : ∀ n < 64, Base64.digit n ≠ ',' ∧ Base64.digit n ≠ ';' := by
  decide +kernel

theorem unzigzag_zigzag (n : Int) : unzigzag (zigzag n) = n := by
  unfold unzigzag zigzag
  split <;> split <;> omega

theorem lt_pow_log2 (bits : Nat) : bits < 32 ^ (bits.log2 + 1) := by
  calc bits < 2 ^ (bits.log2 + 1) := Nat.lt_log2_self
    _ ≤ 32 ^ (bits.log2 + 1) := Nat.pow_le_pow_left (by decide) _

theorem digits_ne_nil (fuel bits : Nat) : digits fuel bits ≠ [] := by
  cases fuel with
  | zero => simp [digits]
  | succ =>
    rw [digits]
    split <;> simp

theorem digits_lt {fuel bits d : Nat} (h : d ∈ digits fuel bits) : d < 64 := by
  induction fuel generalizing bits with
  | zero =>
    simp only [digits, List.mem_singleton] at h
    omega
  | succ _ ih =>
    rw [digits] at h
    split at h
    · simp only [List.mem_singleton] at h
      omega
    · rcases List.mem_cons.mp h with rfl | h
      · omega
      · exact ih h

/-! ### Reading -/

/-- Reading the digits of `bits`, when `acc` was read before them with `shift` bits, completes one
quantity and goes on with what follows the digits. -/
theorem decodeFrom_digits (fuel bits acc shift : Nat) (rest : List Char) (h : bits < 32 ^ (fuel + 1)) :
    decodeFrom acc shift ((digits fuel bits).map Base64.digit ++ rest) =
      (unzigzag (acc + bits * 2 ^ shift) :: ·) <$> decodeFrom 0 0 rest := by
  induction fuel generalizing bits acc shift with
  | zero =>
    have hb : bits < 32 := by simpa using h
    simp [digits, decodeFrom, Nat.shiftLeft_eq, Nat.mod_eq_of_lt hb, value?_digit bits (by omega), hb]
  | succ fuel ih =>
    rw [digits]
    split
    next hb =>
      simp [decodeFrom, Nat.shiftLeft_eq, value?_digit bits (by omega), hb, Nat.mod_eq_of_lt hb]
    next hb =>
      have hq : bits / 32 < 32 ^ (fuel + 1) := by
        rw [pow_succ] at h
        exact Nat.div_lt_of_lt_mul (by omega)
      -- the digit at hand carries the low five bits, the quotient all others
      have hsum : acc + (bits % 32 + 32) % 32 * 2 ^ shift + bits / 32 * 2 ^ (shift + 5) = acc + bits * 2 ^ shift := by
        rw [pow_add, Nat.add_mod_right, Nat.mod_mod]
        calc acc + bits % 32 * 2 ^ shift + bits / 32 * (2 ^ shift * 2 ^ 5)
            = acc + (32 * (bits / 32) + bits % 32) * 2 ^ shift := by ring
          _ = acc + bits * 2 ^ shift := by rw [Nat.div_add_mod]
      simp only [List.map_cons, List.cons_append, decodeFrom, Nat.shiftLeft_eq,
        value?_digit (bits % 32 + 32) (by omega)]
      rw [if_neg (by omega), ih _ _ _ hq, hsum]

theorem decodeFrom_encode (n : Int) (rest : List Char) :
    decodeFrom 0 0 ((encode n).toList ++ rest) = (n :: ·) <$> decodeFrom 0 0 rest := by
  simp only [encode, String.toList_ofList]
  rw [decodeFrom_digits _ _ _ _ _ (lt_pow_log2 _)]
  simp [unzigzag_zigzag]

theorem decode_join (ns : List Int) : decode (String.join (ns.map encode)) = .ok ns := by
  rw [decode, String.toList_join]
  induction ns with
  | nil => rfl
  | cons _ _ ih =>
    simp only [List.map_cons, List.flatMap_cons]
    rw [decodeFrom_encode, ih]
    rfl

/-! ### The characters of a quantity -/

theorem encode_ne_empty (n : Int) : encode n ≠ "" := by
  intro h
  have := congrArg String.toList h
  simp [encode, digits_ne_nil] at this

theorem separator_notMem_encode (n : Int) : ',' ∉ (encode n).toList ∧ ';' ∉ (encode n).toList := by
  have key : ∀ c ∈ (encode n).toList, c ≠ ',' ∧ c ≠ ';' := by
    intro _ hc
    simp only [encode, String.toList_ofList, List.mem_map] at hc
    obtain ⟨d, hd, rfl⟩ := hc
    exact digit_ne_separator d (digits_lt hd)
  exact ⟨fun h => (key _ h).1 rfl, fun h => (key _ h).2 rfl⟩

variable {acc shift bits fuel v : Nat} {c : Char} {cs : List Char} {ds : List Nat} {n : Int} {ns : List Int}

theorem value?_eq_none_iff : Base64.value? c = none ↔ c ∉ Base64.alphabet := by
  rw [Base64.value?, List.findIdx?_eq_none_iff]
  grind

theorem digit_of_value? (h : Base64.value? c = some v) : v < 64 ∧ Base64.digit v = c := by
  obtain ⟨hlt, hc, -⟩ := List.findIdx?_eq_some_iff_getElem.mp h
  have hlength : Base64.alphabet.length = 64 := by decide +kernel
  refine ⟨hlength ▸ hlt, ?_⟩
  rw [Base64.digit, List.getD_eq_getElem?_getD, List.getElem?_eq_getElem hlt]
  simpa using hc

theorem decodeFrom_more (h : Base64.value? c = some v) (hv : ¬ v < 32) : decodeFrom acc shift (c :: cs) =
    decodeFrom (acc + (v - 32) * 2 ^ shift) (shift + 5) cs := by
  have hmod : v % 32 = v - 32 := by
    have := (digit_of_value? h).1
    omega
  simp [decodeFrom, h, hv, hmod, Nat.shiftLeft_eq]

/-! ### What can be read -/

def continues (c : Char) : Bool :=
  (Base64.value? c).any (32 ≤ ·)

/-- Whether a quantity is open after the characters `cs`, when `acc` and `shift` were read before them. -/
def isOpen (acc shift : Nat) (cs : List Char) : Bool :=
  (cs.getLast?.map continues).getD (acc != 0 || shift != 0)

theorem isOpen_cons (acc shift acc' shift' : Nat) (h : continues c = (acc' != 0 || shift' != 0)) (cs : List Char) :
    isOpen acc shift (c :: cs) = isOpen acc' shift' cs := by
  cases cs with
  | nil => simp [isOpen, h]
  | cons => simp [isOpen, List.getLast?_cons]

/-- The three ways in which reading ends. The values carried along tell whether a quantity is open even if all its
digits are zero so far, because each digit moves the next one by five bits. -/
theorem decodeFrom_cases (acc shift : Nat) (cs : List Char) :
    (∃ c ∈ cs, c ∉ Base64.alphabet) ∧ (∃ key, decodeFrom acc shift cs = .error (.noKey key)) ∨
    (∀ c ∈ cs, c ∈ Base64.alphabet) ∧
      if isOpen acc shift cs then decodeFrom acc shift cs = .error (.badMap .openQuantity)
      else ∃ ns, decodeFrom acc shift cs = .ok ns ∧ ns.length = cs.countP (!continues ·) := by
  induction cs generalizing acc shift with
  | nil =>
    refine .inr ⟨by simp, ?_⟩
    rw [isOpen, decodeFrom]
    by_cases h : acc != 0 || shift != 0 <;> simp [h]
  | cons c _ ih =>
    cases hv : Base64.value? c with
    | none => exact .inl ⟨⟨c, by simp, value?_eq_none_iff.mp hv⟩, _, by rw [decodeFrom, hv]⟩
    | some v =>
      have hmem : c ∈ Base64.alphabet := by
        by_contra h
        simp [value?_eq_none_iff.mpr h] at hv
      simp only [List.mem_cons, exists_eq_or_imp, forall_eq_or_imp, hmem, not_true_eq_false, false_or, true_and]
      by_cases hlt : v < 32
      · have hclosed : continues c = false := by simp [continues, hv, hlt]
        rw [decodeFrom_last hv hlt, isOpen_cons acc shift 0 0 (by simp [hclosed])]
        rcases ih 0 0 with ⟨hrest, key, hkey⟩ | ⟨hrest, hread⟩
        · exact .inl ⟨hrest, key, by simp [hkey]⟩
        · refine .inr ⟨hrest, ?_⟩
          split at hread
          · simp [*]
          · obtain ⟨_, _, _⟩ := hread
            simp [*]
      · have hopen : continues c = true := by simpa [continues, hv] using hlt
        rw [decodeFrom_more hv hlt, isOpen_cons acc shift _ (shift + 5) (by simp [hopen]), List.countP_cons]
        simpa [hopen] using ih _ (shift + 5)

theorem ne_nil_of_decodeFrom (h : decodeFrom acc shift cs = .ok ns) (hcs : cs ≠ []) : ns ≠ [] := by
  rintro rfl
  obtain ⟨init, c, rfl⟩ := (List.eq_nil_or_concat cs).resolve_left hcs
  rw [List.concat_eq_append] at h
  rcases decodeFrom_cases acc shift (init ++ [c]) with ⟨-, _, hkey⟩ | ⟨-, hread⟩
  · simp [h] at hkey
  · have hlast : isOpen acc shift (init ++ [c]) = continues c := by simp [isOpen]
    cases hc : continues c <;> simp [hlast, hc, h] at hread

theorem decodeFrom_append {ts : List Char} (h : decodeFrom acc shift cs = .ok ns) :
    decodeFrom acc shift (cs ++ ts) = (ns ++ ·) <$> decodeFrom 0 0 ts := by
  induction cs generalizing acc shift ns with
  | nil =>
    rw [decodeFrom] at h
    split at h
    · cases h
    next hzero =>
      obtain ⟨rfl, rfl⟩ : acc = 0 ∧ shift = 0 := by simpa using hzero
      cases h
      simp
  | cons c rest ih =>
    cases hv : Base64.value? c with
    | none => simp [decodeFrom, hv] at h
    | some v =>
      rw [List.cons_append]
      by_cases hlt : v < 32
      · rw [decodeFrom_last hv hlt] at h ⊢
        cases hrest : decodeFrom 0 0 rest with
        | error => simp [hrest] at h
        | ok ms =>
          obtain rfl : unzigzag (acc + v <<< shift) :: ms = ns := by simpa [hrest] using h
          rw [ih hrest]
          simp
      · rw [decodeFrom_more hv hlt] at h ⊢
        exact ih h

/-- **What can be read as quantities.** Reading finds a character outside the alphabet if there is one; otherwise it
ends inside a quantity exactly if there is a last digit and it asks for another; otherwise there is one integer for
each digit that does not. What was read is independent of what follows it. -/
theorem decode_language (s : String) :
    ((∃ key, decode s = .error (.noKey key)) ↔ ∃ c ∈ s.toList, c ∉ Base64.alphabet) ∧
    ((∃ d, decode s = .error (.badMap d)) ↔
      (∀ c ∈ s.toList, c ∈ Base64.alphabet) ∧ ∃ c, s.toList.getLast? = some c ∧ continues c = true) ∧
    ((∀ c ∈ s.toList, c ∈ Base64.alphabet) ∧ (∀ c, s.toList.getLast? = some c → continues c = false) →
      ∃ ns, decode s = .ok ns ∧ ns.length = s.toList.countP (!continues ·)) ∧
    ∀ ns, decode s = .ok ns → ∀ t, decode (s ++ t) = (ns ++ ·) <$> decode t := by
  have hopen : isOpen 0 0 s.toList = true ↔ ∃ c, s.toList.getLast? = some c ∧ continues c = true := by
    cases h : s.toList.getLast? <;> simp [isOpen, h]
  have hclosed : isOpen 0 0 s.toList = false ↔ ∀ c, s.toList.getLast? = some c → continues c = false := by
    cases h : s.toList.getLast? <;> simp [isOpen, h]
  rw [← hopen, ← hclosed]
  have happend : ∀ ns, decode s = .ok ns → ∀ t, decode (s ++ t) = (ns ++ ·) <$> decode t := by
    intro ns h t
    rw [decode, String.toList_append]
    exact decodeFrom_append h
  have hcases : _ := decodeFrom_cases 0 0 s.toList
  rw [← decode] at hcases
  refine ⟨?_, ?_, ?_, happend⟩ <;> grind

theorem decode_language_open :
    (∀ ns, decode "gB" = .ok ns → ∀ t, decode ("gB" ++ t) = (ns ++ ·) <$> decode t) ∧ decode "gB" = .ok [16] ∧
      decode ("gB" ++ "gg") = .error (.badMap .openQuantity) := by
  have hread : decode "gB" = .ok [16] ∧ decode "gg" = .error (.badMap .openQuantity) := by decide +kernel
  have happend := (decode_language "gB").2.2.2
  refine ⟨happend, hread.1, ?_⟩
  rw [happend _ hread.1, hread.2]
  rfl

/-! ### The shortest text -/

/-- Digits that say a number of bits, the last one without the mark that another follows. -/
inductive Spells : List Nat → Nat → Prop
  | last {d : Nat} (hd : d < 32) : Spells [d] d
  | more {d bits : Nat} {ds : List Nat} (hd : d < 32) (h : Spells ds bits) : Spells ((d + 32) :: ds) (d + 32 * bits)

theorem Spells.ne_nil (h : Spells ds bits) : ds ≠ [] := by
  cases h <;> simp

/-- The digits that are written are as few as any that say the same, and as many only if they are the same: the lowest
digit is the remainder, so the others say the quotient. -/
theorem Spells.shortest (h : Spells ds bits) (hbits : bits < 32 ^ (fuel + 1)) :
    (digits fuel bits).length ≤ ds.length ∧ (ds.length = (digits fuel bits).length → ds = digits fuel bits) := by
  induction h generalizing fuel with
  | last hd => cases fuel <;> simp [digits, hd, Nat.mod_eq_of_lt]
  | @more d bits _ _ h ih =>
    have hlength := List.length_pos_iff.mpr h.ne_nil
    cases fuel with
    | zero =>
      obtain rfl : bits = 0 := by omega
      simp [digits, h.ne_nil]
    | succ fuel =>
      rw [digits]
      split
      · simp [h.ne_nil]
      · rw [show (d + 32 * bits) % 32 = d by omega, show (d + 32 * bits) / 32 = bits by omega]
        obtain ⟨hle, heq⟩ := @ih fuel (by rw [pow_succ] at hbits; omega)
        simpa using ⟨hle, heq⟩

/-- The first quantity of a text that can be read ends where its digits do. -/
theorem exists_spells (h : decodeFrom acc shift cs = .ok (n :: ns)) : ∃ ds bits rest,
    cs = ds.map Base64.digit ++ rest ∧ Spells ds bits ∧ n = unzigzag (acc + bits * 2 ^ shift) ∧
      decodeFrom 0 0 rest = .ok ns := by
  induction cs generalizing acc shift with
  | nil =>
    rw [decodeFrom] at h
    split at h <;> cases h
  | cons c rest ih =>
    cases hv : Base64.value? c with
    | none => simp [decodeFrom, hv] at h
    | some v =>
      obtain ⟨_, rfl⟩ := digit_of_value? hv
      by_cases hlt : v < 32
      · rw [decodeFrom_last hv hlt, Nat.shiftLeft_eq] at h
        cases hrest : decodeFrom 0 0 rest with
        | error => simp [hrest] at h
        | ok ms =>
          obtain ⟨rfl, rfl⟩ : unzigzag (acc + v * 2 ^ shift) = n ∧ ms = ns := by simpa [hrest] using h
          exact ⟨[v], v, rest, rfl, .last hlt, rfl, hrest⟩
      · rw [decodeFrom_more hv hlt] at h
        obtain ⟨ds, bits, rest, rfl, hds, rfl, hrest⟩ := ih h
        obtain ⟨d, rfl⟩ := Nat.exists_eq_add_of_le' (Nat.le_of_not_lt hlt)
        refine ⟨(d + 32) :: ds, d + 32 * bits, rest, rfl, .more (by omega) hds, ?_, hrest⟩
        rw [pow_add, Nat.add_sub_cancel]
        congr 1
        ring

theorem zigzag_unzigzag (h : unzigzag bits ≠ 0) : zigzag (unzigzag bits) = bits := by
  unfold unzigzag zigzag at *
  grind

/-- **Quantities are written without loss and as short as can be.** Integers written side by side are read back; and
no text that says one integer is shorter than the written one, nor is there another of its length unless the integer
is zero. -/
theorem decode_join_and_shortest : (∀ ns : List Int, decode (String.join (ns.map encode)) = .ok ns) ∧
    ∀ (n : Int) (s : String), decode s = .ok [n] →
      (encode n).length ≤ s.length ∧ (n ≠ 0 → s.length = (encode n).length → s = encode n) := by
  refine ⟨decode_join, ?_⟩
  intro n s h
  obtain ⟨ds, bits, rest, hs, hds, hn, hrest⟩ := exists_spells h
  obtain rfl : rest = [] := by_contra fun hne => ne_nil_of_decodeFrom hrest hne rfl
  have hlength : ds.length = s.length := by simp [← String.length_toList, hs]
  rw [pow_zero, mul_one, zero_add] at hn
  obtain ⟨hle, heq⟩ := hds.shortest (lt_pow_log2 bits)
  have hencode : (encode n).toList = (digits (zigzag n).log2 (zigzag n)).map Base64.digit := by simp [encode]
  by_cases hzero : n = 0
  · have hpos := List.length_pos_iff.mpr hds.ne_nil
    have hone : (encode 0).length = 1 := by decide +kernel
    subst hzero
    exact ⟨by omega, fun h => absurd rfl h⟩
  · have hbits : zigzag n = bits := by
      rw [hn] at hzero ⊢
      exact zigzag_unzigzag hzero
    rw [hbits] at hencode
    have hshort : (encode n).length = (digits bits.log2 bits).length := by simp [← String.length_toList, hencode]
    refine ⟨by omega, fun _ h => ?_⟩
    rw [← String.toList_inj, hs, hencode, heq (by omega), List.append_nil]

/-- A longer text for one, and the only text of two digits for sixteen. -/
theorem decode_join_and_shortest_sixteen : decode "iA" = .ok [1] ∧ (encode 1).length ≤ "iA".length ∧
    decode "gB" = .ok [16] ∧ "gB" = encode 16 := by
  have hread : (decode "iA" = .ok [1] ∧ decode "gB" = .ok [16]) ∧ "gB".length = (encode 16).length := by
    decide +kernel
  refine ⟨hread.1.1, (decode_join_and_shortest.2 _ _ hread.1.1).1, hread.1.2, ?_⟩
  exact (decode_join_and_shortest.2 _ _ hread.1.2).2 (by decide) hread.2

end Transpiler.SourceMap.Vlq
