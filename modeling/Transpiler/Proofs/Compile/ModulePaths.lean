import Mathlib.Data.List.Infix
import Transpiler.Compile.Naming

/-!
# Paths of modules

In the path of a module, a double underscore between two letters or digits stands for a dash (`allDashes`). The
compiler finds each of them unless one letter or digit stands alone between two of them (`dunders_eq_iff`). Of the
words at the start of a path, those that name a character are replaced (`ReplacesLeading`), and wrongly also those
that follow a word that names none (`replacesLeading_pathChars_iff`).
-/

namespace Transpiler.Compile

/-! ### Double underscores -/

def allDashes : List Char → List Char
  | [] => []
  | a :: tail =>
    let keep (_ : Unit) : List Char := a :: allDashes tail
    match tail with
    | '_' :: '_' :: b :: rest =>
      if isWordChar a && isWordChar b then a :: '-' :: allDashes (b :: rest) else keep ()
    | _ => keep ()

/-- A path in which a double underscore at the start, before a letter or a digit, is an `@`, and each between two
letters or digits is a dash. -/
def allDunders : List Char → List Char
  | '_' :: '_' :: b :: rest => if isWordChar b then '@' :: allDashes (b :: rest) else allDashes ('_' :: '_' :: b :: rest)
  | cs => allDashes cs

def Opens (cs : List Char) : Prop :=
  ∃ b rest, isWordChar b = true ∧ cs = '_' :: '_' :: b :: rest

def HasInner (cs : List Char) : Prop :=
  ∃ a b, isWordChar a = true ∧ isWordChar b = true ∧ [a, '_', '_', b] <:+: cs

def Overlaps (cs : List Char) : Prop :=
  ∃ a b c, isWordChar a = true ∧ isWordChar b = true ∧ isWordChar c = true ∧ [a, '_', '_', b, '_', '_', c] <:+: cs

section

variable {a b : Char} {cs tail rest : List Char}

theorem hasInner_cons : HasInner (a :: tail) ↔ (isWordChar a = true ∧ Opens tail) ∨ HasInner tail := by
  simp only [HasInner, List.infix_cons_iff, Opens, and_or_left, exists_or]
  refine or_congr_left ⟨?_, ?_⟩
  · rintro ⟨a', b, ha, hb, more, hmore⟩
    obtain ⟨rfl, rfl⟩ : a' = a ∧ '_' :: '_' :: b :: more = tail := by simpa using hmore
    exact ⟨ha, b, more, hb, rfl⟩
  · rintro ⟨ha, b, rest, hb, rfl⟩
    exact ⟨a, b, ha, hb, rest, rfl⟩

theorem overlaps_cons : Overlaps (a :: tail) ↔
    (isWordChar a = true ∧ ∃ b rest, isWordChar b = true ∧ Opens rest ∧ tail = '_' :: '_' :: b :: rest) ∨
      Overlaps tail := by
  simp only [Overlaps, List.infix_cons_iff, Opens, and_or_left, exists_or]
  refine or_congr_left ⟨?_, ?_⟩
  · rintro ⟨a', b, c, ha, hb, hc, more, hmore⟩
    obtain ⟨rfl, rfl⟩ : a' = a ∧ '_' :: '_' :: b :: '_' :: '_' :: c :: more = tail := by simpa using hmore
    exact ⟨ha, b, _, hb, ⟨c, more, hc, rfl⟩, rfl⟩
  · rintro ⟨ha, b, _, hb, ⟨c, rest, hc, rfl⟩, rfl⟩
    exact ⟨a, b, c, ha, hb, hc, rest, rfl⟩

theorem overlaps_underscore : Overlaps ('_' :: tail) ↔ Overlaps tail := by
  simp [overlaps_cons, show isWordChar '_' = false from rfl]

/-! ### What is found -/

attribute [local simp] dashes allDashes in
theorem dashes_inner (ha : isWordChar a = true) (hb : isWordChar b = true) :
    dashes (a :: '_' :: '_' :: b :: rest) = a :: '-' :: b :: dashes rest := by
  simp [ha, hb]

theorem allDashes_inner (ha : isWordChar a = true) (hb : isWordChar b = true) :
    allDashes (a :: '_' :: '_' :: b :: rest) = a :: '-' :: allDashes (b :: rest) := by
  rw [allDashes]
  simp [ha, hb]

theorem dashes_cons (h : ¬ (isWordChar a = true ∧ Opens tail)) : dashes (a :: tail) = a :: dashes tail := by
  conv_lhs => unfold dashes
  dsimp only
  split
  next b rest =>
    rw [if_neg]
    simp only [Bool.and_eq_true, not_and]
    exact fun ha hb => h ⟨ha, b, rest, hb, rfl⟩
  · rfl

theorem allDashes_cons (h : ¬ (isWordChar a = true ∧ Opens tail)) : allDashes (a :: tail) = a :: allDashes tail := by
  conv_lhs => unfold allDashes
  dsimp only
  split
  next b rest =>
    rw [if_neg]
    simp only [Bool.and_eq_true, not_and]
    exact fun ha hb => h ⟨ha, b, rest, hb, rfl⟩
  · rfl

theorem dashes_underscore (tail : List Char) : dashes ('_' :: tail) = '_' :: dashes tail :=
  dashes_cons fun h => absurd h.1 (by decide)

theorem head?_dashes (cs : List Char) : (dashes cs).head? = cs.head? := by
  cases cs with
  | nil => rfl
  | cons a tail =>
    by_cases h : isWordChar a = true ∧ Opens tail
    · obtain ⟨ha, _, _, hb, rfl⟩ := h
      rw [dashes_inner ha hb, List.head?_cons, List.head?_cons]
    · rw [dashes_cons h, List.head?_cons, List.head?_cons]

theorem opens_iff : Opens cs ↔ ∃ rest, cs = '_' :: '_' :: rest ∧ rest.head?.any isWordChar = true := by
  constructor
  · rintro ⟨_, _, hb, rfl⟩
    exact ⟨_, rfl, by simpa using hb⟩
  · rintro ⟨rest, rfl, hrest⟩
    cases rest with
    | nil => simp at hrest
    | cons b rest => exact ⟨b, rest, by simpa using hrest, rfl⟩

theorem dashes_eq_underscore_iff : dashes cs = '_' :: rest ↔ ∃ tail, cs = '_' :: tail ∧ dashes tail = rest := by
  constructor
  · intro h
    cases cs with
    | nil => simp [dashes] at h
    | cons a tail =>
      obtain rfl : a = '_' := by simpa [h] using (head?_dashes (a :: tail)).symm
      rw [dashes_underscore] at h
      exact ⟨tail, rfl, (List.cons.inj h).2⟩
  · rintro ⟨tail, rfl, rfl⟩
    exact dashes_underscore tail

theorem opens_dashes : Opens (dashes cs) ↔ Opens cs := by
  simp only [opens_iff, dashes_eq_underscore_iff]
  constructor
  · rintro ⟨_, ⟨_, rfl, tail, rfl, rfl⟩, hrest⟩
    exact ⟨tail, rfl, by rwa [head?_dashes] at hrest⟩
  · rintro ⟨tail, rfl, _⟩
    exact ⟨_, ⟨_, rfl, tail, rfl, rfl⟩, by rwa [head?_dashes]⟩

theorem overlaps_inner (ha : isWordChar a = true) (hb : isWordChar b = true) :
    Overlaps (a :: '_' :: '_' :: b :: rest) ↔ Opens rest ∨ Overlaps rest := by
  rw [overlaps_cons, overlaps_underscore, overlaps_underscore, overlaps_cons]
  constructor
  · rintro (⟨-, b', rest', -, hrest, heq⟩ | ⟨-, b', rest', hb', -, rfl⟩ | hrest)
    · obtain ⟨rfl, rfl⟩ : b = b' ∧ rest = rest' := by simpa using heq
      exact .inl hrest
    · exact .inl ⟨b', rest', hb', rfl⟩
    · exact .inr hrest
  · rintro (hrest | hrest)
    · exact .inl ⟨ha, b, rest, hb, hrest, rfl⟩
    · exact .inr (.inr hrest)

theorem overlaps_of_not_inner (h : ¬ (isWordChar a = true ∧ Opens tail)) : Overlaps (a :: tail) ↔ Overlaps tail := by
  rw [overlaps_cons, or_iff_right]
  rintro ⟨ha, b, rest, hb, -, rfl⟩
  exact h ⟨ha, b, rest, hb, rfl⟩

theorem hasInner_dashes (cs : List Char) : HasInner (dashes cs) ↔ Overlaps cs := by
  induction hn : cs.length using Nat.strong_induction_on generalizing cs with
  | _ _ ih =>
    cases cs with
    | nil => simp [dashes, HasInner, Overlaps]
    | cons a tail =>
      by_cases h : isWordChar a = true ∧ Opens tail
      · obtain ⟨ha, _, rest, hb, rfl⟩ := h
        have hrest := ih rest.length (by simp [← hn]; omega) rest rfl
        rw [dashes_inner ha hb, overlaps_inner ha hb, hasInner_cons, hasInner_cons, hasInner_cons, opens_dashes, hrest]
        simp [opens_iff, hb, show isWordChar '-' = false from rfl]
      · have htail := ih tail.length (by simp [← hn]) tail rfl
        rw [dashes_cons h, overlaps_of_not_inner h, hasInner_cons, opens_dashes, htail, or_iff_right h]

theorem dashes_eq_allDashes_iff (cs : List Char) : dashes cs = allDashes cs ↔ ¬ Overlaps cs := by
  induction hn : cs.length using Nat.strong_induction_on generalizing cs with
  | _ _ ih =>
    cases cs with
    | nil => simp [dashes, allDashes, Overlaps]
    | cons a tail =>
      by_cases h : isWordChar a = true ∧ Opens tail
      · obtain ⟨ha, _, rest, hb, rfl⟩ := h
        rw [dashes_inner ha hb, allDashes_inner ha hb, overlaps_inner ha hb, not_or]
        by_cases hopens : Opens rest
        · -- the next double underscore is passed over, as the character before it is used up
          obtain ⟨c, more, hc, rfl⟩ := hopens
          have hopens : Opens ('_' :: '_' :: c :: more) := ⟨c, more, hc, rfl⟩
          rw [dashes_underscore, allDashes_inner hb hc]
          simp [hopens]
        · have hrest := ih rest.length (by simp [← hn]; omega) rest rfl
          rw [allDashes_cons fun h => hopens h.2]
          simp [hrest, hopens]
      · have htail := ih tail.length (by simp [← hn]) tail rfl
        rw [dashes_cons h, allDashes_cons h, overlaps_of_not_inner h, ← htail, List.cons.injEq, eq_self, true_and]

theorem atSign_cases (cs : List Char) : atSign cs = cs ∧ allDunders cs = allDashes cs ∨
    ∃ b rest, cs = '_' :: '_' :: b :: rest ∧ atSign cs = '@' :: b :: rest ∧
      allDunders cs = '@' :: allDashes (b :: rest) := by
  by_cases h : ∃ b rest, cs = '_' :: '_' :: b :: rest
  · obtain ⟨b, _, rfl⟩ := h
    by_cases hb : isWordChar b = true <;> simp [atSign, allDunders, hb]
  · have hshort : ∀ b rest, cs = '_' :: '_' :: b :: rest → False := fun b rest heq => h ⟨b, rest, heq⟩
    exact .inl ⟨atSign.eq_2 cs hshort, allDunders.eq_2 cs hshort⟩

/-- The double underscores of a path become the characters that they stand for, and none stays between two
letters or digits, exactly if no letter or digit stands alone between two of them. -/
theorem dunders_eq_iff (cs : List Char) :
    (dunders cs = allDunders cs ↔ ¬ Overlaps cs) ∧ (HasInner (dunders cs) ↔ Overlaps cs) := by
  rw [dunders, hasInner_dashes]
  have hat {tail : List Char} : ¬ (isWordChar '@' = true ∧ Opens tail) := fun h => absurd h.1 (by decide)
  rcases atSign_cases cs with ⟨hsign, hall⟩ | ⟨b, rest, rfl, hsign, hall⟩
  · rw [hsign, hall, dashes_eq_allDashes_iff]
    exact ⟨.rfl, .rfl⟩
  · rw [hsign, hall, dashes_cons hat, List.cons.injEq, dashes_eq_allDashes_iff, overlaps_of_not_inner hat,
      overlaps_underscore, overlaps_underscore]
    exact ⟨by simp, .rfl⟩

/-- Of two double underscores with one letter between them, the second stays. -/
theorem dunders_overlap : dunders "a__b__c".toList = "a-b__c".toList ∧
    allDunders "a__b__c".toList = "a-b-c".toList ∧ modulePath "a__b__c" = "a-b__c" := by
  decide +kernel

end

/-! ### Words at the start -/

def nameText (ws : List (List Char)) : List Char :=
  ws.flatten ++ ['_']

def nameChars (character? : List (List Char) → Option Char) (ws : List (List Char)) : List Char :=
  match character? ws with
  | some c => [c]
  | none => nameText ws

inductive LeadingRun : List Char → List (List (List Char)) → List Char → Prop
  | stop {cs : List Char} (h : leadingWords? cs = none) : LeadingRun cs [] cs
  | next {cs more rest : List Char} {ws : List (List Char)} {run : List (List (List Char))}
      (h : leadingWords? cs = some (ws, more)) (hmore : LeadingRun more run rest) : LeadingRun cs (ws :: run) rest

/-- The names of characters at the start of a path, as many as follow one another, are replaced by these
characters, and all that comes after them stays. -/
inductive ReplacesLeading (character? : List (List Char) → Option Char) : List Char → List Char → Prop
  | stay {cs : List Char} (h : ∀ ws more, leadingWords? cs = some (ws, more) → character? ws = none) :
      ReplacesLeading character? cs cs
  | replace {cs more out : List Char} {ws : List (List Char)} {c : Char} (h : leadingWords? cs = some (ws, more))
      (hc : character? ws = some c) (hmore : ReplacesLeading character? more out) :
      ReplacesLeading character? cs (c :: out)

section

variable {character? : List (List Char) → Option Char} {cs rest more out : List Char} {ws : List (List Char)}
  {run : List (List (List Char))}

theorem flatten_capitalWords (cs : List Char) : (capitalWords cs).flatten = cs := by
  induction cs with
  | nil => rfl
  | cons _ _ ih =>
    unfold capitalWords
    split
    next h =>
      rw [h] at ih
      rw [← ih]
      rfl
    next h =>
      rw [h] at ih
      rw [← ih]
      split <;> rfl

theorem eq_of_leadingWords? (h : leadingWords? cs = some (ws, more)) :
    cs = nameText ws ++ more ∧ 2 < (nameText ws).length := by
  unfold leadingWords? at h
  dsimp only at h
  split at h
  next hdrop =>
    split at h
    · cases h
    next hwords =>
      cases h
      constructor
      · rw [nameText, flatten_capitalWords, List.append_assoc, List.singleton_append, ← hdrop,
          List.takeWhile_append_dropWhile]
      · cases hws : capitalWords (cs.takeWhile Char.isAlpha) with
        | nil => simp [hws] at hwords
        | cons w =>
          rw [hws, Bool.or_eq_true, List.any_cons, Bool.or_eq_true, not_or, not_or] at hwords
          have hlong : 2 ≤ w.length := Nat.le_of_not_lt (mt decide_eq_true hwords.2.1)
          simp only [nameText, List.flatten_cons, List.length_append, List.length_singleton]
          omega
  · cases h

theorem exists_leadingRun (cs : List Char) : ∃ run rest, LeadingRun cs run rest := by
  induction hn : cs.length using Nat.strong_induction_on generalizing cs with
  | _ _ ih =>
    cases h : leadingWords? cs with
    | none => exact ⟨[], cs, .stop h⟩
    | some p =>
      obtain ⟨ws, more⟩ := p
      obtain ⟨rfl, -⟩ := eq_of_leadingWords? h
      obtain ⟨run, rest, hrun⟩ := ih more.length (by simp [← hn, nameText]; omega) more rfl
      exact ⟨ws :: run, rest, .next h hrun⟩

theorem leadingCharacters_eq {fuel : Nat} (h : LeadingRun cs run rest) (hfuel : cs.length ≤ fuel) :
    leadingCharacters character? fuel cs = run.flatMap (nameChars character?) ++ rest := by
  induction h generalizing fuel with
  | stop h =>
    cases fuel with
    | zero => rfl
    | succ => rw [leadingCharacters, h]; rfl
  | @next _ more _ _ _ h _ ih =>
    obtain ⟨rfl, _⟩ := eq_of_leadingWords? h
    rw [List.length_append] at hfuel
    obtain ⟨fuel, rfl⟩ : ∃ n, fuel = n + 1 := ⟨fuel - 1, by omega⟩
    have hmore : leadingCharacters character? fuel more = _ := ih (by omega)
    rw [leadingCharacters, h, List.flatMap_cons, List.append_assoc, ← hmore]
    rfl

theorem replaced_eq_iff (character? : List (List Char) → Option Char) (h : LeadingRun cs run rest) :
    (run.flatMap (nameChars character?) ++ rest).length ≤ cs.length ∧
      (run.flatMap (nameChars character?) ++ rest = cs ↔ ∀ ws ∈ run, character? ws = none) := by
  induction h with
  | stop => simp
  | @next _ _ rest ws run h _ ih =>
    obtain ⟨rfl, _⟩ := eq_of_leadingWords? h
    rw [List.flatMap_cons, List.append_assoc, List.forall_mem_cons]
    generalize run.flatMap (nameChars character?) ++ rest = out at ih ⊢
    obtain ⟨hle, heq⟩ := ih
    cases hc : character? ws with
    | none => simpa [nameChars, hc, heq] using hle
    | some =>
      simp only [nameChars, hc, reduceCtorEq, false_and, iff_false, List.singleton_append, List.length_cons,
        List.length_append]
      refine ⟨by omega, fun h => ?_⟩
      have := congrArg List.length h
      simp only [List.length_cons, List.length_append] at this
      omega

theorem replacesLeading_named {c : Char} (h : leadingWords? cs = some (ws, more)) (hc : character? ws = some c) :
    ReplacesLeading character? cs (c :: out) ↔ ReplacesLeading character? more out := by
  refine ⟨fun hout => ?_, .replace h hc⟩
  generalize hall : c :: out = all at hout
  cases hout with
  | stay hnone => simp [hnone ws more h] at hc
  | replace h' _ hmore =>
    obtain ⟨-, rfl⟩ := List.cons.inj hall
    cases h.symm.trans h'
    exact hmore

theorem replacesLeading_unnamed (h : leadingWords? cs = some (ws, more)) (hc : character? ws = none) :
    ReplacesLeading character? cs out ↔ out = cs := by
  constructor
  · intro hout
    cases hout with
    | stay => rfl
    | replace h' hc' =>
      cases h.symm.trans h'
      simp [hc] at hc'
  · rintro rfl
    refine .stay fun _ _ h' => ?_
    cases h.symm.trans h'
    exact hc

theorem replacesLeading_iff_pairwise (h : LeadingRun cs run rest) :
    ReplacesLeading character? cs (run.flatMap (nameChars character?) ++ rest) ↔
      run.Pairwise fun ws later => character? ws = none → character? later = none := by
  induction h with
  | stop h => exact iff_of_true (.stay (by simp [h])) .nil
  | @next _ _ _ ws _ h hrun ih =>
    have heq := (replaced_eq_iff character? hrun).2
    rw [List.pairwise_cons, List.flatMap_cons, List.append_assoc]
    cases hc : character? ws with
    | some => simpa [nameChars, hc, replacesLeading_named h hc] using ih
    | none =>
      rw [replacesLeading_unnamed h hc, (eq_of_leadingWords? h).1, nameChars, hc, List.append_cancel_left_eq, heq]
      refine ⟨fun hnone => ⟨fun later hlater _ => hnone later hlater, ?_⟩, fun h later hlater =>
        h.1 later hlater rfl⟩
      exact List.pairwise_of_forall_mem_list fun a _ b hb _ => hnone b hb

theorem dashes_of_not_infix (h : ¬ ['_', '_'] <:+: cs) : dashes cs = cs := by
  induction cs with
  | nil => rfl
  | cons _ _ ih =>
    rw [List.infix_cons_iff, not_or] at h
    rw [dashes_cons, ih h.2]
    rintro ⟨-, b, rest, -, rfl⟩
    exact h.2 ⟨[], b :: rest, rfl⟩

theorem dunders_of_not_infix (h : ¬ ['_', '_'] <:+: cs) : dunders cs = cs := by
  have hat : atSign cs = cs := by
    unfold atSign
    split
    next b rest => exact (h ⟨[], b :: rest, rfl⟩).elim
    · rfl
  rw [dunders, hat, dashes_of_not_infix h]

/-- In a path without double underscores, all names of characters in the run of names at its start are
replaced. These are the ones to replace exactly if none of them follows a name of no character. -/
theorem replacesLeading_pathChars_iff (character? : List (List Char) → Option Char) (cs : List Char)
    (h : ¬ ['_', '_'] <:+: cs) : ∃ run rest, LeadingRun cs run rest ∧
      pathChars character? cs = run.flatMap (nameChars character?) ++ rest ∧
      (ReplacesLeading character? cs (pathChars character? cs) ↔
        run.Pairwise fun ws later => character? ws = none → character? later = none) := by
  obtain ⟨run, rest, hrun⟩ := exists_leadingRun cs
  have hpath : pathChars character? cs = run.flatMap (nameChars character?) ++ rest := by
    rw [pathChars, dunders_of_not_infix h]
    exact leadingCharacters_eq hrun le_rfl
  refine ⟨run, rest, hrun, hpath, ?_⟩
  rw [hpath]
  exact replacesLeading_iff_pairwise hrun

end

/-- A path with two names of characters before other words. -/
theorem replacesLeading_dollarTilde : ∃ run rest, LeadingRun "dollarSign_tilde_foo_bar".toList run rest ∧
      (ReplacesLeading characterOf? "dollarSign_tilde_foo_bar".toList "$~foo_bar".toList ↔
        run.Pairwise fun ws later => characterOf? ws = none → characterOf? later = none) := by
  obtain ⟨run, rest, hrun, -, hiff⟩ :=
    replacesLeading_pathChars_iff characterOf? "dollarSign_tilde_foo_bar".toList (by decide)
  have hpath : pathChars characterOf? "dollarSign_tilde_foo_bar".toList = "$~foo_bar".toList := by decide +kernel
  rw [hpath] at hiff
  exact ⟨run, rest, hrun, hiff⟩

/-- A name of a character is replaced after a name of none. -/
theorem not_replacesLeading_foo : modulePath "foo_at_bar" = "foo_@bar" ∧
    ReplacesLeading characterOf? "foo_at_bar".toList "foo_at_bar".toList ∧
    ¬ ReplacesLeading characterOf? "foo_at_bar".toList (modulePath "foo_at_bar").toList := by
  have hpath : modulePath "foo_at_bar" = "foo_@bar" := by decide +kernel
  have hwords : leadingWords? "foo_at_bar".toList = some (["foo".toList], "at_bar".toList) := by decide +kernel
  have hfoo {out : List Char} : ReplacesLeading characterOf? "foo_at_bar".toList out ↔ out = "foo_at_bar".toList :=
    replacesLeading_unnamed hwords (by decide +kernel)
  rw [hfoo, hfoo, hpath]
  exact ⟨rfl, rfl, by decide⟩

end Transpiler.Compile
