import Transpiler.Proofs.Script.Reader
import Transpiler.Proofs.Text.Trimmed

/-!
# Reading templates

`readTemplate?` reads a template by the rules of ES6 up to the closing back quote: into the UTF-16 units of its text,
with escapes and line ends read, and the code of its place holders. Where the code of a place holder ends is a matter
of the grammar of expressions, so the statements hold for every rule that says after which code a closing brace ends
it (`complete`); `isBalanced` is such a rule.

A character of text that is not an escape stands for its own units, and everything else that can be read is heavier
than what it stands for (`weight`, `readTemplate?_cases`). So a template that was written without any escapes is read
as what it was meant to be exactly if no character of its text has a meaning of its own (`readTemplate?_eq_some_iff`).
-/

namespace Transpiler.Script

open Text (relaid units16)

/-! ### Templates -/

inductive Segment (α : Type) where
  | text (a : α)
  | hole (code : List Char)
  deriving DecidableEq

namespace Segment

def raw : Segment Char → List Char
  | text c => [c]
  | hole code => '$' :: '\x7b' :: (code ++ ['\x7d'])

def cooked : Segment Char → List (Segment Nat)
  | text c => (units16 c).map text
  | hole code => [hole code]

end Segment

def rawText (t : List (Segment Char)) : List Char :=
  t.flatMap Segment.raw

def cookedText (t : List (Segment Char)) : List (Segment Nat) :=
  t.flatMap Segment.cooked

section

variable (c : Char) (code : List Char) (t : List (Segment Char))

theorem rawText_text : rawText (.text c :: t) = c :: rawText t :=
  rfl

theorem rawText_hole : rawText (.hole code :: t) = '$' :: '\x7b' :: (code ++ '\x7d' :: rawText t) := by
  simp [rawText, Segment.raw]

theorem cookedText_text : cookedText (.text c :: t) = (units16 c).map .text ++ cookedText t :=
  rfl

theorem cookedText_hole : cookedText (.hole code :: t) = .hole code :: cookedText t :=
  rfl

end

/-! ### The reader -/

def unitsOf (n : Nat) : List Nat :=
  if n < 0x10000 then [n] else [0xd800 + (n - 0x10000) / 1024, 0xdc00 + (n - 0x10000) % 1024]

def readCodePoint? (cs : List Char) : Option (Nat × List Char) :=
  match (cs.takeWhile (· != '\x7d')).mapM Json.hexValue?, cs.dropWhile (· != '\x7d') with
  | some (d :: ds), _ :: rest => some ((d :: ds).foldl (fun n d => 16 * n + d) 0, rest)
  | _, _ => none

def readEscape? : List Char → Option (List Nat × List Char)
  | [] => none
  | 'b' :: rest => some ([8], rest)
  | 't' :: rest => some ([9], rest)
  | 'n' :: rest => some ([10], rest)
  | 'v' :: rest => some ([11], rest)
  | 'f' :: rest => some ([12], rest)
  | 'r' :: rest => some ([13], rest)
  | '0' :: rest => if rest.head?.any Char.isDigit then none else some ([0], rest)
  | 'x' :: a :: b :: rest => do some ([16 * (← Json.hexValue? a) + (← Json.hexValue? b)], rest)
  | 'u' :: '\x7b' :: rest => do
    let (n, rest) ← readCodePoint? rest
    if n < 0x110000 then some (unitsOf n, rest) else none
  | 'u' :: rest => do
    let (n, rest) ← Json.readUnit? rest
    some ([n], rest)
  | '\r' :: '\n' :: rest => some ([], rest)
  | c :: rest =>
    if c ∈ ['\r', '\n', '\u2028', '\u2029'] then some ([], rest)
    else if c.isDigit || c == 'x' then none
    else some (units16 c, rest)

inductive Lexeme where
  | units (us : List Nat)
  | opening
  | closing

def readLexeme? : List Char → Option (Lexeme × List Char)
  | [] => none
  | '`' :: rest => some (.closing, rest)
  | '$' :: '\x7b' :: rest => some (.opening, rest)
  | '\\' :: rest => (readEscape? rest).map fun r => (.units r.1, r.2)
  | '\r' :: '\n' :: rest => some (.units [10], rest)
  | '\r' :: rest => some (.units [10], rest)
  | c :: rest => some (.units (units16 c), rest)

/-! ### Weights -/

/-- The weight of a UTF-16 unit; the carriage return and the backslash are heavier than the others. -/
def unitWeight (n : Nat) : Nat :=
  if n = 13 ∨ n = 92 then 2 else 1

def unitsWeight (us : List Nat) : Nat :=
  (us.map unitWeight).sum

def weight (cs : List Char) : Nat :=
  (cs.map fun c => unitsWeight (units16 c)).sum

@[simp]
theorem weight_nil : weight [] = 0 :=
  rfl

@[simp]
theorem weight_cons (c : Char) (cs : List Char) : weight (c :: cs) = unitsWeight (units16 c) + weight cs :=
  rfl

@[simp]
theorem weight_append (cs ds : List Char) : weight (cs ++ ds) = weight cs + weight ds := by
  simp [weight]

theorem units16_eq_unitsOf (c : Char) : units16 c = unitsOf c.toNat :=
  rfl

theorem unitWeight_le_two (n : Nat) : unitWeight n ≤ 2 := by
  unfold unitWeight
  split <;> omega

theorem unitWeight_pos (n : Nat) : 0 < unitWeight n := by
  unfold unitWeight
  split <;> omega

theorem unitsWeight_unitsOf_le (n : Nat) : unitsWeight (unitsOf n) ≤ 2 := by
  unfold unitsOf
  split
  · simpa [unitsWeight] using unitWeight_le_two n
  · have hhigh : unitWeight (0xd800 + (n - 0x10000) / 1024) = 1 := if_neg (by omega)
    have hlow : unitWeight (0xdc00 + (n - 0x10000) % 1024) = 1 := if_neg (by omega)
    simp [unitsWeight, hhigh, hlow]

theorem unitsWeight_cons_pos (n : Nat) (us : List Nat) : 0 < unitsWeight (n :: us) := by
  have := unitWeight_pos n
  rw [unitsWeight, List.map_cons, List.sum_cons]
  omega

theorem charWeight_pos (c : Char) : 0 < unitsWeight (units16 c) := by
  rw [units16_eq_unitsOf, unitsOf]
  split <;> exact unitsWeight_cons_pos _ _

theorem readUnit?_eq_some {cs rest : List Char} {n : Nat} (h : Json.readUnit? cs = some (n, rest)) :
    ∃ a b c d, cs = a :: b :: c :: d :: rest := by
  unfold Json.readUnit? at h
  split at h
  next a b c d after =>
    simp only [Option.bind_eq_bind, Option.bind_eq_some_iff] at h
    obtain ⟨_, -, _, -, _, -, _, -, ⟨⟩⟩ := h
    exact ⟨a, b, c, d, rfl⟩
  · cases h

theorem readCodePoint?_eq_some {cs rest : List Char} {n : Nat} (h : readCodePoint? cs = some (n, rest)) :
    ∃ front, cs = front ++ rest := by
  unfold readCodePoint? at h
  split at h
  next c after _ hdrop =>
    cases h
    refine ⟨cs.takeWhile (· != '\x7d') ++ [c], ?_⟩
    rw [List.append_assoc, List.singleton_append, ← hdrop, List.takeWhile_append_dropWhile]
  · cases h

theorem readEscape?_eq_some {cs rest : List Char} {us : List Nat} (h : readEscape? cs = some (us, rest)) :
    (∃ c front, cs = c :: (front ++ rest)) ∧ unitsWeight us ≤ 2 := by
  have hone : ∀ n, unitsWeight [n] ≤ 2 := unitWeight_le_two
  unfold readEscape? at h
  split at h
  case h_1 => cases h
  case h_8 =>
    split at h
    · cases h
    · cases h
      exact ⟨⟨_, [], rfl⟩, hone _⟩
  case h_9 a b _ =>
    simp only [Option.bind_eq_bind, Option.bind_eq_some_iff] at h
    obtain ⟨_, -, _, -, ⟨⟩⟩ := h
    exact ⟨⟨_, [a, b], rfl⟩, hone _⟩
  case h_10 =>
    simp only [Option.bind_eq_bind, Option.bind_eq_some_iff] at h
    obtain ⟨⟨n, _⟩, hread, h⟩ := h
    obtain ⟨front, rfl⟩ := readCodePoint?_eq_some hread
    split at h
    · cases h
      exact ⟨⟨_, '\x7b' :: front, rfl⟩, unitsWeight_unitsOf_le n⟩
    · cases h
  case h_11 =>
    simp only [Option.bind_eq_bind, Option.bind_eq_some_iff] at h
    obtain ⟨⟨_, _⟩, hread, ⟨⟩⟩ := h
    obtain ⟨a, b, c, d, rfl⟩ := readUnit?_eq_some hread
    exact ⟨⟨_, [a, b, c, d], rfl⟩, hone _⟩
  case h_12 =>
    cases h
    exact ⟨⟨_, ['\n'], rfl⟩, Nat.zero_le _⟩
  case h_13 c _ _ _ _ _ _ _ _ _ _ _ =>
    split at h
    · cases h
      exact ⟨⟨_, [], rfl⟩, Nat.zero_le _⟩
    · split at h
      · cases h
      · cases h
        exact ⟨⟨_, [], rfl⟩, unitsWeight_unitsOf_le _⟩
  all_goals
    cases h
    exact ⟨⟨_, [], rfl⟩, hone _⟩

def StandsForItself (c : Char) (rest : List Char) : Prop :=
  c ≠ '`' ∧ c ≠ '\\' ∧ c ≠ '\r' ∧ (c = '$' → rest.head? ≠ some '\x7b')

/-- What is read next: the end, the start of a place holder, a character that stands for itself, or something that is
heavier than what it stands for. -/
theorem readLexeme?_cases {cs rest : List Char} {l : Lexeme} (h : readLexeme? cs = some (l, rest)) :
    (l = .closing ∧ cs = '`' :: rest) ∨ (l = .opening ∧ cs = '$' :: '\x7b' :: rest) ∨
      (∃ c, l = .units (units16 c) ∧ cs = c :: rest ∧ StandsForItself c rest) ∨
      ∃ us front, l = .units us ∧ cs = front ++ rest ∧ unitsWeight us < weight front := by
  unfold readLexeme? at h
  split at h
  case h_1 => cases h
  case h_2 =>
    cases h
    exact .inl ⟨rfl, rfl⟩
  case h_3 =>
    cases h
    exact .inr (.inl ⟨rfl, rfl⟩)
  case h_4 after =>
    obtain ⟨⟨us, _⟩, hread, ⟨⟩⟩ := Option.map_eq_some_iff.mp h
    obtain ⟨⟨c, front, rfl⟩, _⟩ := readEscape?_eq_some hread
    refine .inr (.inr (.inr ⟨us, '\\' :: c :: front, rfl, rfl, ?_⟩))
    have hc := charWeight_pos c
    have hslash : unitsWeight (units16 '\\') = 2 := rfl
    rw [weight_cons, weight_cons, hslash]
    omega
  case h_5 =>
    cases h
    exact .inr (.inr (.inr ⟨_, ['\r', '\n'], rfl, rfl, by decide⟩))
  case h_6 =>
    cases h
    exact .inr (.inr (.inr ⟨_, ['\r'], rfl, rfl, by decide⟩))
  case h_7 c _ hquote hdollar hslash _ hreturn =>
    cases h
    refine .inr (.inr (.inl ⟨c, rfl, rfl, hquote, hslash, hreturn, ?_⟩))
    rintro rfl hhead
    obtain ⟨more, rfl⟩ := List.head?_eq_some_iff.mp hhead
    exact hdollar more rfl rfl

theorem readLexeme?_of_standsForItself {c : Char} {rest : List Char} (h : StandsForItself c rest) :
    readLexeme? (c :: rest) = some (.units (units16 c), rest) := by
  obtain ⟨hquote, hslash, hreturn, hdollar⟩ := h
  rw [readLexeme?]
  · exact hquote
  · rintro _ rfl rfl
    exact hdollar rfl rfl
  · exact hslash
  · exact fun _ h _ => hreturn h
  · exact hreturn

theorem length_lt_of_readLexeme? {cs rest : List Char} {l : Lexeme} (h : readLexeme? cs = some (l, rest)) :
    rest.length < cs.length := by
  obtain ⟨-, rfl⟩ | ⟨-, rfl⟩ | ⟨c, -, rfl, -⟩ | ⟨_, front, -, rfl, hlt⟩ := readLexeme?_cases h
  · simp
  · simp only [List.length_cons]
    omega
  · simp
  · cases front with
    | nil => simp at hlt
    | cons =>
      simp only [List.cons_append, List.length_cons, List.length_append]
      omega

/-! ### Code in place holders -/

section

variable (complete : List Char → Bool)

/-- Reads code up to the brace that ends it; `before` is what was read so far, the last character first. -/
def readCode? (before : List Char) : List Char → Option (List Char × List Char)
  | [] => none
  | c :: rest =>
    if c = '\x7d' ∧ complete before.reverse then some (before.reverse, rest) else readCode? (c :: before) rest

def Enclosed (code : List Char) : Prop :=
  complete code = true ∧ ∀ front back, code = front ++ '\x7d' :: back → complete front = false

variable {complete} {cs code rest : List Char}

theorem readCode?_eq_some {before : List Char} :
    readCode? complete before cs = some (code, rest) ↔ ∃ more, cs = more ++ '\x7d' :: rest ∧
      code = before.reverse ++ more ∧ complete code = true ∧
      ∀ front back, more = front ++ '\x7d' :: back → complete (before.reverse ++ front) = false := by
  induction cs generalizing before with
  | nil => simp [readCode?]
  | cons c _ ih =>
    rw [readCode?]
    split
    next h =>
      obtain ⟨rfl, hcomplete⟩ := h
      constructor
      · rintro ⟨⟩
        exact ⟨[], by simp [hcomplete]⟩
      · rintro ⟨more, heq, rfl, -, hfirst⟩
        cases more with
        | nil => simp_all
        | cons _ more =>
          obtain ⟨rfl, -⟩ := List.cons.inj heq
          have := hfirst [] more rfl
          simp_all
    next h =>
      rw [ih]
      constructor
      · rintro ⟨more, rfl, rfl, hcomplete, hfirst⟩
        refine ⟨c :: more, by simp, by simp, hcomplete, ?_⟩
        rintro (_ | ⟨_, front⟩) back heq
        · obtain ⟨rfl, -⟩ := List.cons.inj heq
          simpa using h
        · obtain ⟨rfl, hmore⟩ := List.cons.inj heq
          simpa using hfirst front back hmore
      · rintro ⟨more, heq, rfl, hcomplete, hfirst⟩
        cases more with
        | nil =>
          obtain ⟨rfl, -⟩ := List.cons.inj heq
          simp_all
        | cons _ more =>
          obtain ⟨rfl, rfl⟩ := List.cons.inj heq
          refine ⟨more, rfl, by simp, hcomplete, fun front back heq => ?_⟩
          simpa using hfirst (c :: front) back (by simp [heq])

theorem readCode?_eq_some_iff :
    readCode? complete [] cs = some (code, rest) ↔ cs = code ++ '\x7d' :: rest ∧ Enclosed complete code := by
  rw [readCode?_eq_some, Enclosed]
  constructor
  · rintro ⟨_, rfl, rfl, h⟩
    exact ⟨rfl, h⟩
  · rintro ⟨rfl, h⟩
    exact ⟨code, rfl, rfl, h⟩

variable (complete)

def readTemplate? (cs : List Char) : Option (List (Segment Nat) × List Char) :=
  match _hread : readLexeme? cs with
  | none => none
  | some (.closing, rest) => some ([], rest)
  | some (.units us, rest) => (readTemplate? rest).map fun r => (us.map .text ++ r.1, r.2)
  | some (.opening, rest) =>
    match _hcode : readCode? complete [] rest with
    | none => none
    | some (code, rest) => (readTemplate? rest).map fun r => (.hole code :: r.1, r.2)
termination_by cs.length
decreasing_by
  · exact length_lt_of_readLexeme? _hread
  · have hlt := length_lt_of_readLexeme? _hread
    obtain ⟨rfl, -⟩ := readCode?_eq_some_iff.mp _hcode
    simp only [List.length_append, List.length_cons] at hlt
    omega

/-! ### What is read as it was meant -/

def NeedsNoEscape (t : List (Segment Char)) : Prop :=
  (∀ c ∈ ['`', '\\', '\r'], Segment.text c ∉ t) ∧ ¬ [.text '$', .text '\x7b'] <:+: t

def HolesEnclosed (t : List (Segment Char)) : Prop :=
  ∀ code, .hole code ∈ t → Enclosed complete code

def Segment.weight : Segment Nat → Nat
  | text n => unitWeight n
  | hole code => Script.weight code + 3

def templateWeight (t : List (Segment Nat)) : Nat :=
  (t.map Segment.weight).sum

@[simp]
theorem templateWeight_append (t t' : List (Segment Nat)) :
    templateWeight (t ++ t') = templateWeight t + templateWeight t' := by
  simp [templateWeight]

@[simp]
theorem templateWeight_map_text (us : List Nat) : templateWeight (us.map .text) = unitsWeight us := by
  simp [templateWeight, unitsWeight, Function.comp_def, Segment.weight]

@[simp]
theorem templateWeight_hole (code : List Char) (t : List (Segment Nat)) :
    templateWeight (.hole code :: t) = weight code + 3 + templateWeight t :=
  rfl

theorem weight_hole (code rest : List Char) :
    weight ('$' :: '\x7b' :: (code ++ '\x7d' :: rest)) = weight code + 3 + weight rest := by
  have hdollar : unitsWeight (units16 '$') = 1 := rfl
  have hopen : unitsWeight (units16 '\x7b') = 1 := rfl
  have hclose : unitsWeight (units16 '\x7d') = 1 := rfl
  simp only [weight_cons, weight_append, hdollar, hopen, hclose]
  omega

theorem templateWeight_cookedText (t : List (Segment Char)) : templateWeight (cookedText t) = weight (rawText t) := by
  induction t with
  | nil => rfl
  | cons g _ ih =>
    cases g with
    | text => simp [cookedText_text, rawText_text, ih]
    | hole => simp [cookedText_hole, rawText_hole, ih, weight_hole, -weight_cons, -weight_append]

variable {complete}

section

variable {t : List (Segment Char)}

theorem needsNoEscape_text {c : Char} : NeedsNoEscape (.text c :: t) ↔
    (c ≠ '`' ∧ c ≠ '\\' ∧ c ≠ '\r' ∧ (c = '$' → t.head? ≠ some (.text '\x7b'))) ∧ NeedsNoEscape t := by
  have hpair : [.text '$', .text '\x7b'] <+: (.text c :: t) ↔ c = '$' ∧ t.head? = some (.text '\x7b') := by
    cases t <;> simp [List.cons_prefix_cons, eq_comm]
  simp only [NeedsNoEscape, List.infix_cons_iff, hpair, List.mem_cons, Segment.text.injEq]
  grind

theorem needsNoEscape_hole : NeedsNoEscape (.hole code :: t) ↔ NeedsNoEscape t := by
  simp [NeedsNoEscape, List.infix_cons_iff, List.cons_prefix_cons]

theorem standsForItself_rawText_iff {c : Char} : StandsForItself c (rawText t ++ '`' :: rest) ↔
    c ≠ '`' ∧ c ≠ '\\' ∧ c ≠ '\r' ∧ (c = '$' → t.head? ≠ some (.text '\x7b')) := by
  have hhead : (rawText t ++ '`' :: rest).head? = some '\x7b' ↔ t.head? = some (.text '\x7b') := by
    cases t with
    | nil => simp [rawText]
    | cons g => cases g <;> simp [rawText_text, rawText_hole]
  rw [StandsForItself, ne_eq (rawText t ++ _).head?, hhead]

theorem holesEnclosed_hole :
    HolesEnclosed complete (.hole code :: t) ↔ Enclosed complete code ∧ HolesEnclosed complete t := by
  simp [HolesEnclosed]

theorem holesEnclosed_text {c : Char} : HolesEnclosed complete (.text c :: t) ↔ HolesEnclosed complete t := by
  simp [HolesEnclosed]

end

theorem weight_le_of_cases {t : List (Segment Nat)} {P : List (Segment Char) → Prop}
    (h : templateWeight t + 1 + weight rest < weight cs ∨ ∃ u, t = cookedText u ∧ cs = rawText u ++ '`' :: rest ∧ P u) :
    templateWeight t + 1 + weight rest ≤ weight cs := by
  obtain hlt | ⟨_, rfl, rfl, -⟩ := h
  · exact Nat.le_of_lt hlt
  · have hquote : unitsWeight (units16 '`') = 1 := rfl
    rw [templateWeight_cookedText, weight_append, weight_cons, hquote]
    omega

theorem readTemplate?_cases {t : List (Segment Nat)} (h : readTemplate? complete cs = some (t, rest)) :
    (∃ front, cs = front ++ '`' :: rest) ∧ (templateWeight t + 1 + weight rest < weight cs ∨
      ∃ u, t = cookedText u ∧ cs = rawText u ++ '`' :: rest ∧ NeedsNoEscape u ∧ HolesEnclosed complete u) := by
  fun_induction readTemplate? complete cs generalizing t with
  | case1 => cases h
  | case2 _ _ hread =>
    cases h
    obtain ⟨-, rfl⟩ | ⟨⟨⟩, -⟩ | ⟨_, ⟨⟩, -⟩ | ⟨_, _, ⟨⟩, -⟩ := readLexeme?_cases hread
    exact ⟨⟨[], rfl⟩, .inr ⟨[], rfl, rfl, by simp [NeedsNoEscape], by simp [HolesEnclosed]⟩⟩
  | case3 _ us _ hread ih =>
    obtain ⟨_, htail, heq⟩ := Option.map_eq_some_iff.mp h
    obtain ⟨rfl, rfl⟩ := Prod.mk.inj heq
    rw [templateWeight_append, templateWeight_map_text]
    obtain ⟨⟨before, hbefore⟩, htail⟩ := ih htail
    obtain ⟨⟨⟩, -⟩ | ⟨⟨⟩, -⟩ | ⟨c, ⟨⟩, rfl, hc⟩ | ⟨_, front, ⟨⟩, rfl, _⟩ := readLexeme?_cases hread
    · refine ⟨⟨c :: before, by rw [hbefore]; rfl⟩, ?_⟩
      obtain _ | ⟨u, hu, rfl, hplain, hholes⟩ := htail
      · left
        rw [weight_cons]
        omega
      · right
        refine ⟨.text c :: u, by rw [hu, cookedText_text], rfl, ?_, holesEnclosed_text.mpr hholes⟩
        exact needsNoEscape_text.mpr ⟨standsForItself_rawText_iff.mp hc, hplain⟩
    · refine ⟨⟨front ++ before, by simp [hbefore]⟩, .inl ?_⟩
      have hle := weight_le_of_cases htail
      rw [weight_append]
      omega
  | case4 => cases h
  | case5 _ _ hread code _ hcode ih =>
    obtain ⟨_, htail, heq⟩ := Option.map_eq_some_iff.mp h
    obtain ⟨rfl, rfl⟩ := Prod.mk.inj heq
    obtain ⟨⟨⟩, -⟩ | ⟨-, rfl⟩ | ⟨_, ⟨⟩, -⟩ | ⟨_, _, ⟨⟩, -⟩ := readLexeme?_cases hread
    obtain ⟨rfl, hclosed⟩ := readCode?_eq_some_iff.mp hcode
    rw [weight_hole, templateWeight_hole]
    obtain ⟨⟨before, hbefore⟩, htail⟩ := ih htail
    refine ⟨⟨'$' :: '\x7b' :: (code ++ '\x7d' :: before), by simp [hbefore]⟩, ?_⟩
    obtain _ | ⟨u, hu, rfl, hplain, hholes⟩ := htail
    · left
      omega
    · right
      refine ⟨.hole code :: u, by rw [hu, cookedText_hole], by rw [rawText_hole]; simp, ?_, ?_⟩
      · exact needsNoEscape_hole.mpr hplain
      · exact holesEnclosed_hole.mpr ⟨hclosed, hholes⟩

theorem readTemplate?_of_units {us : List Nat} (h : readLexeme? cs = some (.units us, rest)) :
    readTemplate? complete cs = (readTemplate? complete rest).map fun r => (us.map .text ++ r.1, r.2) := by
  rw [readTemplate?]
  split <;> simp_all

theorem readTemplate?_hole (hcode : Enclosed complete code) :
    readTemplate? complete ('$' :: '\x7b' :: (code ++ '\x7d' :: rest)) =
      (readTemplate? complete rest).map fun r => (.hole code :: r.1, r.2) := by
  have hread : readCode? complete [] (code ++ '\x7d' :: rest) = some (code, rest) :=
    readCode?_eq_some_iff.mpr ⟨rfl, hcode⟩
  rw [readTemplate?]
  split
  case h_4 =>
    split <;> simp_all [readLexeme?]
  all_goals simp_all [readLexeme?]

theorem readTemplate?_rawText {t : List (Segment Char)} (hplain : NeedsNoEscape t) (hholes : HolesEnclosed complete t) :
    readTemplate? complete (rawText t ++ '`' :: rest) = some (cookedText t, rest) := by
  induction t with
  | nil =>
    rw [readTemplate?]
    rfl
  | cons g t ih =>
    cases g with
    | text c =>
      obtain ⟨hc, hplain⟩ := needsNoEscape_text.mp hplain
      have hstands : StandsForItself c (rawText t ++ '`' :: rest) := standsForItself_rawText_iff.mpr hc
      have hread := readLexeme?_of_standsForItself hstands
      rw [rawText_text, List.cons_append, readTemplate?_of_units hread, ih hplain (holesEnclosed_text.mp hholes)]
      rfl
    | hole code =>
      obtain ⟨hcode, hholes⟩ := holesEnclosed_hole.mp hholes
      have htext : rawText (.hole code :: t) ++ '`' :: rest =
          '$' :: '\x7b' :: (code ++ '\x7d' :: (rawText t ++ '`' :: rest)) := by simp [rawText_hole]
      rw [htext, readTemplate?_hole hcode, ih (needsNoEscape_hole.mp hplain) hholes]
      rfl

/-! ### Templates are told apart by their units -/

theorem units16_ne_nil (c : Char) : units16 c ≠ [] := by
  unfold units16
  dsimp only
  split <;> exact List.cons_ne_nil _ _

theorem eq_of_units {c d : Char} {t t' : List (Segment Nat)}
    (h : (units16 c).map Segment.text ++ t = (units16 d).map .text ++ t') : c = d ∧ t = t' := by
  have hc := Json.not_surrogate c
  have hd := Json.not_surrogate d
  have hsame : c.toNat = d.toNat → c = d := fun h => Char.ext (UInt32.toNat_inj.mp h)
  unfold units16 at h
  dsimp only at h
  -- a unit of its own is not half a pair, so one and two units are not confused
  split at h <;> split at h <;>
    simp only [List.map_cons, List.map_nil, List.cons_append, List.nil_append, List.cons.injEq, Segment.text.injEq] at h
  · exact ⟨hsame h.1, h.2⟩
  · omega
  · omega
  · exact ⟨hsame (by omega), h.2.2⟩

theorem eq_of_cooked {g g' : Segment Char} {t t' : List (Segment Nat)}
    (h : g.cooked ++ t = g'.cooked ++ t') : g = g' ∧ t = t' := by
  have hmixed : ∀ (c : Char) (code : List Char) (t t' : List (Segment Nat)),
      (units16 c).map Segment.text ++ t ≠ .hole code :: t' := by
    intro c _ _ _ h
    obtain ⟨_, _, hn⟩ := List.exists_cons_of_ne_nil (units16_ne_nil c)
    simp [hn] at h
  cases g with
  | text c =>
    cases g' with
    | text =>
      obtain ⟨rfl, rfl⟩ := eq_of_units h
      exact ⟨rfl, rfl⟩
    | hole code => exact absurd h (hmixed c code t t')
  | hole code =>
    cases g' with
    | text d => exact absurd h.symm (hmixed d code t' t)
    | hole =>
      obtain ⟨⟨⟩, rfl⟩ := List.cons.inj h
      exact ⟨rfl, rfl⟩

theorem cookedText_injective : Function.Injective cookedText := by
  have hne : ∀ (g : Segment Char) (t : List (Segment Nat)), g.cooked ++ t ≠ [] := by
    intro g _
    cases g <;> simp [Segment.cooked, units16_ne_nil]
  intro t
  induction t with
  | nil =>
    rintro (_ | ⟨_, _⟩) h
    · rfl
    · exact absurd h.symm (hne _ _)
  | cons _ _ ih =>
    rintro (_ | ⟨_, _⟩) h
    · exact absurd h (hne _ _)
    · obtain ⟨rfl, htail⟩ := eq_of_cooked h
      rw [ih htail]

theorem weight_relaid_le (s : String) : weight (relaid s).toList ≤ weight s.toList :=
  Text.sum_relaid_le charWeight_pos s

/-- A template that is written without escapes and laid out is read as what it was meant to be exactly if the layout
leaves it alone, its text is plain, and its code is enclosed. -/
theorem readTemplate?_eq_some_iff {t : List (Segment Char)} {raw : String} (hraw : raw.toList = rawText t) :
    readTemplate? complete ((relaid raw).toList ++ '`' :: rest) = some (cookedText t, rest) ↔
      relaid raw = raw ∧ NeedsNoEscape t ∧ HolesEnclosed complete t := by
  constructor
  · intro h
    obtain hlight | ⟨_, hu, htext, hplain, hholes⟩ := (readTemplate?_cases h).2
    · -- nothing can have been read that is lighter than the text it was read from
      have hle := weight_relaid_le raw
      have hquote : unitsWeight (units16 '`') = 1 := rfl
      rw [templateWeight_cookedText, weight_append, weight_cons, hquote, ← hraw] at hlight
      omega
    · obtain rfl := cookedText_injective hu
      have hsame := List.append_cancel_right htext
      exact ⟨String.toList_inj.mp (hsame.trans hraw.symm), hplain, hholes⟩
  · rintro ⟨hsame, hplain, hholes⟩
    rw [hsame, hraw, readTemplate?_rawText hplain hholes]

end

end Transpiler.Script
