import Mathlib.Data.List.Induction
import Mathlib.Data.List.Nodup
import Mathlib.Data.Prod.Lex
import Mathlib.Data.String.Basic
import Mathlib.Order.WithBot
import Transpiler.Proofs.SourceMap.Adding

/-!
# The order of tokens in a map

A map keeps its tokens sorted by all of their fields (`Token.rank`). Where a further token goes, only the one before
it is looked at, so that a token is accepted though a greater one is at its place (`add_of_sorted`).
-/

namespace Transpiler.SourceMap

namespace Token

def place (t : Token) : ℤ ×ₗ ℤ :=
  toLex (t.dstLine, t.dstCol)

def orBot : Option String → WithBot String
  | none => ⊥
  | some s => s

def rank (t : Token) : (ℤ ×ₗ ℤ) ×ₗ WithBot String ×ₗ (ℤ ×ₗ ℤ) ×ₗ WithBot String :=
  toLex (t.place, toLex (orBot t.src, toLex (toLex (t.srcLine, t.srcCol), orBot t.name)))

def Comparable (t u : Token) : Prop :=
  ∃ o, t.compareFields u = .ok o

variable {t u : Token}

theorem isAfter_iff : t.isAfter u = true ↔ u.place < t.place := by
  simp [isAfter, place, Prod.Lex.toLex_lt_toLex]

theorem samePlace_iff : t.samePlace u = true ↔ t.place = u.place := by
  simp [samePlace, place]

theorem place_le_of_rank_le (h : t.rank ≤ u.rank) : t.place ≤ u.place :=
  Prod.Lex.monotone_fst _ _ h

theorem compare_toLex {α β : Type} [LinearOrder α] [LinearOrder β] (a c : α) (b d : β) :
    compare (toLex (a, b)) (toLex (c, d)) = (compare a c).then (compare b d) :=
  rfl

theorem compareTexts_eq_ok {a b : Option String} {o : Ordering} (h : compareTexts a b = .ok o) :
    o = compare (orBot a) (orBot b) := by
  cases a <;> cases b <;> cases h
  · exact (compare_eq_iff_eq.mpr rfl).symm
  next a b =>
    show compare a b = compare (a : WithBot String) b
    rcases lt_trichotomy a b with hlt | rfl | hlt
    · rw [compare_lt_iff_lt.mpr hlt, compare_lt_iff_lt.mpr (WithBot.coe_lt_coe.mpr hlt)]
    · rw [compare_eq_iff_eq.mpr rfl, compare_eq_iff_eq.mpr rfl]
    · rw [compare_gt_iff_gt.mpr hlt, compare_gt_iff_gt.mpr (WithBot.coe_lt_coe.mpr hlt)]

theorem then_of_bne {o p : Ordering} (h : (o != .eq) = true) : o.then p = o := by
  cases o <;> simp_all

theorem compareFields_eq_ok {o : Ordering} (h : t.compareFields u = .ok o) : o = compare t.rank u.rank := by
  have eq_of_not {o : Ordering} (h : ¬ (o != .eq) = true) : o = .eq := by simpa using h
  rw [rank, rank, compare_toLex, compare_toLex, compare_toLex, place, place, compare_toLex, compare_toLex]
  unfold compareFields at h
  dsimp only at h
  split at h
  next hplace =>
    cases h
    rw [then_of_bne hplace]
  next hplace =>
    obtain ⟨_, hsrc, h⟩ := bind_eq_ok.mp h
    rw [eq_of_not hplace, Ordering.then, ← compareTexts_eq_ok hsrc]
    split at h
    next hne =>
      cases h
      rw [then_of_bne hne]
    next hsrc =>
      rw [eq_of_not hsrc, Ordering.then]
      split at h
      next hne =>
        cases h
        rw [then_of_bne hne]
      next hsrcPlace =>
        obtain ⟨_, hname, h⟩ := bind_eq_ok.mp h
        rw [eq_of_not hsrcPlace, Ordering.then, ← compareTexts_eq_ok hname]
        split at h
        · cases h; rfl
        next hname =>
          split at h <;> cases h
          exact (eq_of_not hname).symm

end Token

/-! ### Adding one token -/

variable {t : Token} {ts : List Token}

theorem bisect_eq_ok (hsorted : ts.Pairwise (·.rank < ·.rank)) (hcomp : ∀ u ∈ ts, t.Comparable u) (fuel : Nat) :
    ∀ lo hi, hi ≤ ts.length → lo ≤ hi → hi ≤ lo + fuel → (∀ u ∈ ts.take lo, u.rank ≤ t.rank) →
      (∀ u ∈ ts.drop hi, t.rank < u.rank) → ∃ i, i ≤ ts.length ∧ bisect t ts fuel lo hi = .ok i ∧
        (∀ u ∈ ts.take i, u.rank ≤ t.rank) ∧ ∀ u ∈ ts.drop i, t.rank < u.rank := by
  induction fuel with
  | zero =>
    intro lo hi hlen _ _ hlo hhi
    obtain rfl : lo = hi := by omega
    exact ⟨lo, hlen, rfl, hlo, hhi⟩
  | succ _ ih =>
    intro lo hi hlen _ _ hlo hhi
    rw [bisect]
    split
    · have hmid : (lo + hi) / 2 < ts.length := by omega
      generalize hm : (lo + hi) / 2 = mid at hmid ⊢
      have hsplit : ts.take mid ++ ts[mid] :: ts.drop (mid + 1) = ts := by simp
      rw [← hsplit, List.pairwise_append, List.pairwise_cons] at hsorted
      obtain ⟨-, ⟨hafter, -⟩, hbefore⟩ := hsorted
      obtain ⟨_, ho⟩ := hcomp ts[mid] (by simp)
      obtain rfl := Token.compareFields_eq_ok ho
      simp only [List.getElem?_eq_getElem hmid, ho, ok_bind, beq_iff_eq, compare_lt_iff_lt]
      split
      next hless =>
        refine ih _ _ (by omega) (by omega) (by omega) hlo ?_
        rw [List.drop_eq_getElem_cons hmid]
        exact List.forall_mem_cons.mpr ⟨hless, fun u hu => hless.trans (hafter u hu)⟩
      next hnot =>
        refine ih _ _ hlen (by omega) (by omega) ?_ hhi
        rw [← List.take_append_getElem hmid]
        intro u hu
        rcases List.mem_append.mp hu with hu | hu
        · exact (hbefore u hu _ List.mem_cons_self).le.trans (not_lt.mp hnot)
        · rw [List.mem_singleton.mp hu]
          exact not_lt.mp hnot
    · obtain rfl : lo = hi := by omega
      exact ⟨lo, hlen, rfl, hlo, hhi⟩

def Blocks (u t : Token) : Prop :=
  u.place = t.place ∧ u.rank ≤ t.rank

theorem Blocks.not_lt {u : Token} (h : Blocks u t) : ¬ u.place < t.place ∧ ¬ t.rank < u.rank :=
  ⟨fun hlt => absurd h.1 hlt.ne, h.2.not_gt⟩

theorem samePlace_before_iff {i : Nat} (hsorted : ts.Pairwise (·.rank < ·.rank)) (hi : i ≤ ts.length)
    (hlow : ∀ u ∈ ts.take i, u.rank ≤ t.rank) (hhigh : ∀ u ∈ ts.drop i, t.rank < u.rank) :
    ((if i = 0 then none else ts[i - 1]?).map t.samePlace).getD false = true ↔ ∃ u ∈ ts, Blocks u t := by
  have hmem {u : Token} (hu : u ∈ ts) (h : Blocks u t) : u ∈ ts.take i := by
    rw [← List.take_append_drop i ts, List.mem_append] at hu
    exact hu.resolve_right fun hu => h.not_lt.2 (hhigh u hu)
  cases i with
  | zero =>
    simp only [if_true, Option.map_none, Option.getD_none, Bool.false_eq_true, false_iff, not_exists, not_and]
    exact fun u hu h => absurd (hmem hu h) (by simp)
  | succ i =>
    have hlast : ts[i] ∈ ts.take (i + 1) := List.mem_take_iff_getElem.mpr ⟨i, by omega, rfl⟩
    simp only [Nat.succ_ne_zero, if_false, Nat.add_sub_cancel, List.getElem?_eq_getElem hi, Option.map_some,
      Option.getD_some, Token.samePlace_iff]
    constructor
    · exact fun hplace => ⟨ts[i], by simp, hplace.symm, hlow _ hlast⟩
    · rintro ⟨u, hu, h⟩
      have hu := hmem hu h
      rw [← List.take_append_getElem hi, List.mem_append, List.mem_singleton] at hu
      rcases hu with hu | rfl
      · rw [← List.take_append_drop i ts, List.drop_eq_getElem_cons hi, List.pairwise_append] at hsorted
        have hle : u.rank ≤ ts[i].rank := (hsorted.2.2 u hu _ List.mem_cons_self).le
        exact le_antisymm (h.1 ▸ Token.place_le_of_rank_le hle) (Token.place_le_of_rank_le (hlow _ hlast))
      · exact h.1.symm

theorem add_of_sorted {m : SourceMap} (hstrict : m.lenient = false) (hsorted : m.tokens.Pairwise (·.rank < ·.rank))
    (hcomp : ∀ u ∈ m.tokens, t.Comparable u) :
    ((∃ u ∈ m.tokens, Blocks u t) ∧ m.add t = .error .tokenExists) ∨
      (∀ u ∈ m.tokens, ¬ Blocks u t) ∧ ∃ low high, m.tokens = low ++ high ∧
        m.add t = .ok { m with tokens := low ++ t :: high } ∧
        (∀ u ∈ low, u.rank < t.rank) ∧ ∀ u ∈ high, t.rank < u.rank := by
  rw [add]
  split
  next hlast =>
    -- all tokens stand before the last one, or are it
    have hbefore : ∀ u ∈ m.tokens, u.place < t.place := by
      intro u hu
      obtain ⟨_, last, hfront⟩ := (List.eq_nil_or_concat' m.tokens).resolve_left (List.ne_nil_of_mem hu)
      simp only [hfront, List.getLast?_concat, Option.all_some, Token.isAfter_iff] at hlast
      rw [hfront, List.pairwise_append] at hsorted
      rw [hfront, List.mem_append, List.mem_singleton] at hu
      rcases hu with hu | rfl
      · exact (Token.place_le_of_rank_le (hsorted.2.2 u hu last (by simp)).le).trans_lt hlast
      · exact hlast
    refine .inr ⟨fun u hu h => h.not_lt.1 (hbefore u hu), m.tokens, [], by simp, rfl, fun u hu => ?_, by simp⟩
    exact lt_of_not_ge fun hle => (Token.place_le_of_rank_le hle).not_gt (hbefore u hu)
  · obtain ⟨i, hlen, hi, hlow, hhigh⟩ := bisect_eq_ok hsorted hcomp m.tokens.length 0 _ le_rfl (Nat.zero_le _)
      (by simp) (by simp) (by simp)
    have hbefore := samePlace_before_iff hsorted hlen hlow hhigh
    simp only [hi, ok_bind, hstrict, Bool.not_false, Bool.true_and]
    by_cases hblocks : ∃ u ∈ m.tokens, Blocks u t
    · rw [hbefore.mpr hblocks]
      exact .inl ⟨hblocks, rfl⟩
    · rw [Bool.eq_false_iff.mpr (mt hbefore.mp hblocks)]
      simp only [not_exists, not_and] at hblocks
      refine .inr ⟨hblocks, _, _, (List.take_append_drop i _).symm, rfl, fun u hu => ?_, hhigh⟩
      exact (hlow u hu).lt_of_ne fun heq =>
        hblocks u (List.mem_of_mem_take hu) ⟨congrArg (fun r => (ofLex r).1) heq, heq.le⟩

/-! ### Adding many -/

def offer (m : SourceMap) (t : Token) : SourceMap :=
  match m.add t with
  | .ok m' => m'
  | .error _ => m

def offerAll (m : SourceMap) (ts : List Token) : SourceMap :=
  ts.foldl offer m

structure Offered (ts : List Token) (m : SourceMap) : Prop where
  strict : m.lenient = false
  sorted : m.tokens.Pairwise (·.rank < ·.rank)
  subset : m.tokens ⊆ ts

theorem Offered.add {m : SourceMap} (h : Offered ts m) (hcomp : ∀ u ∈ ts, t.Comparable u) :
    ((∃ u ∈ m.tokens, Blocks u t) ∧ m.add t = .error .tokenExists) ∨
      (∀ u ∈ m.tokens, ¬ Blocks u t) ∧ ∃ m', m.add t = .ok m' ∧ m'.tokens.Perm (t :: m.tokens) ∧
        Offered (ts ++ [t]) m' := by
  refine (add_of_sorted h.strict h.sorted fun u hu => hcomp u (h.subset hu)).imp_right ?_
  rintro ⟨hfree, _, _, htokens, hadd, hlow, hhigh⟩
  have hsorted := h.sorted
  have hsubset := h.subset
  rw [htokens] at hsorted hsubset
  rw [List.pairwise_append] at hsorted
  refine ⟨hfree, _, hadd, htokens ▸ List.perm_middle, h.strict, List.pairwise_append.mpr
    ⟨hsorted.1, List.pairwise_cons.mpr ⟨hhigh, hsorted.2.1⟩, fun u hu => ?_⟩, fun u hu => ?_⟩
  · exact List.forall_mem_cons.mpr ⟨hlow u hu, hsorted.2.2 u hu⟩
  · have := @hsubset u
    simp only [List.mem_append, List.mem_cons] at hu this ⊢
    tauto

theorem offered_offerAll (contents : List (String × Json)) (h : ts.Pairwise fun u t => t.Comparable u) :
    Offered ts (offerAll (make [] contents [] false) ts) := by
  induction ts using List.reverseRecOn with
  | nil => exact ⟨rfl, .nil, fun _ => id⟩
  | append_singleton ts t ih =>
    rw [List.pairwise_append] at h
    have hoffered := ih h.1
    rw [offerAll, List.foldl_append]
    show Offered _ (offer (offerAll _ ts) t)
    rcases hoffered.add fun u hu => h.2.2 u hu t (by simp) with ⟨-, hadd⟩ | ⟨-, _, hadd, -, _⟩
    · rw [offer, hadd]
      exact ⟨hoffered.strict, hoffered.sorted, fun u hu => List.mem_append_left _ (hoffered.subset hu)⟩
    · rwa [offer, hadd]

/-- Tokens that can be compared are offered to a map in any order. Then the map is sorted. It refuses a further token,
and stays as it is, exactly if it has one for that place that is not greater. If it has one token at most for each
place, then that stays so, and those are refused whose place is taken, exactly if none for the place is greater. -/
theorem tokens_offerAll (contents : List (String × Json)) {m : SourceMap} (h : ts.Pairwise fun u t => t.Comparable u)
    (hm : offerAll (make [] contents [] false) ts = m) (hcomp : ∀ u ∈ ts, t.Comparable u) :
    m.tokens.Pairwise (·.rank < ·.rank) ∧
      (m.add t = .error .tokenExists ∧ m.offer t = m ∧ (∃ u ∈ m.tokens, Blocks u t) ∨
        (∃ m', m.add t = .ok m' ∧ m'.tokens.Perm (t :: m.tokens)) ∧ ∀ u ∈ m.tokens, ¬ Blocks u t) ∧
      ((m.tokens.map Token.place).Nodup → (((m.offer t).tokens.map Token.place).Nodup ∧
            (m.add t = .error .tokenExists ↔ ∃ u ∈ m.tokens, u.place = t.place) ↔
          ∀ u ∈ m.tokens, u.place = t.place → u.rank ≤ t.rank)) := by
  subst hm
  have hoffered := offered_offerAll contents h
  refine ⟨hoffered.sorted, ?_⟩
  generalize offerAll (make [] contents [] false) ts = m at hoffered
  rcases hoffered.add hcomp with ⟨hblocks, hadd⟩ | ⟨hfree, m', hadd, hperm, -⟩
  · have hoffer : m.offer t = m := by rw [offer, hadd]
    refine ⟨.inl ⟨hadd, hoffer, hblocks⟩, fun hnodup => ?_⟩
    obtain ⟨u, hu, hplace, hrank⟩ := hblocks
    rw [hoffer, hadd]
    refine iff_of_true ⟨hnodup, iff_of_true rfl ⟨u, hu, hplace⟩⟩ fun v hv hv' => ?_
    rwa [← List.inj_on_of_nodup_map hnodup hu hv (hplace.trans hv'.symm)]
  · have hoffer : m.offer t = m' := by rw [offer, hadd]
    refine ⟨.inr ⟨⟨m', hadd, hperm⟩, hfree⟩, fun hnodup => ?_⟩
    rw [hoffer, (hperm.map _).nodup_iff, List.map_cons, List.nodup_cons, hadd]
    simp only [List.mem_map, hnodup, and_true, reduceCtorEq, false_iff, and_self]
    constructor
    · exact fun hnot u hu hplace => (hnot ⟨u, hu, hplace⟩).elim
    · exact fun hle ⟨u, hu, hplace⟩ => hfree u hu ⟨hplace, hle u hu hplace⟩

def startToken (srcLine : Int) : Token :=
  .plain 0 0 (some "a.py") srcLine 0 none

/-- Two tokens are kept for one place if the second comes from an earlier line than the first. -/
theorem offerAll_startTokens :
    (offerAll (make [] [] [] false) [startToken 5, .plain 0 1 (some "a.py") 0 0 none, startToken 0]).tokens =
      [startToken 0, startToken 5, .plain 0 1 (some "a.py") 0 0 none] ∧
    (startToken 0).samePlace (startToken 5) := by
  decide +kernel

theorem tokens_offerAll_startTokens : (startToken 0).Comparable (startToken 5) ∧
    (offerAll (make [] [] [] false) [startToken 5]).tokens.Pairwise (·.rank < ·.rank) := by
  have hcomp : (startToken 0).Comparable (startToken 5) := ⟨.lt, by decide +kernel⟩
  exact ⟨hcomp, (tokens_offerAll (t := startToken 0) [] (List.pairwise_singleton _ _) rfl (by simpa using hcomp)).1⟩

end Transpiler.SourceMap
