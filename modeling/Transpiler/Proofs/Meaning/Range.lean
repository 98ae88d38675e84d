import Transpiler.Proofs.Compile.Trails
import Transpiler.Proofs.Meaning.Loop

/-!
# Loops that count

A loop over a range becomes a loop that counts: it starts with the first number, goes on while the number is
less than the bound, and adds the step after every turn. The loop is run on a `Host`, of which only that is known
which the head of the loop needs. If the step is positive, the turns are those for the elements of the range
(`Host.whileTrue_up`). If it is negative, there are no turns, or there is no end of them
(`Host.whileTrue_down`). So the loop takes the turns of the range exactly if the step is positive or the range
starts where it stops (`takesRange_iff`).
-/

namespace Transpiler.Meaning

open Compile
open Script (Js Origin)
open Source (Expr Stmt)

/-! ### Ranges -/

def rangeLength (start stop step : Int) : Nat :=
  if 0 < step then ((stop - start + step - 1) / step).toNat
  else if step < 0 then ((start - stop - step - 1) / -step).toNat
  else 0

def rangeOf (start stop step : Int) : List Int :=
  (List.range (rangeLength start stop step)).map fun i : Nat => start + step * i

theorem lt_rangeLength_iff (start stop step : Int) (i : Nat) : i < rangeLength start stop step ↔
    (0 < step ∧ start + step * i < stop) ∨ (step < 0 ∧ stop < start + step * i) := by
  unfold rangeLength
  split
  next hpos =>
    have hdiv := Int.le_ediv_iff_mul_le (a := i + 1) (b := stop - start + step - 1) hpos
    have hmul : ((i : Int) + 1) * step = step * i + step := by rw [Int.add_mul, Int.one_mul, Int.mul_comm]
    rw [hmul] at hdiv
    omega
  · split
    · have hdiv := Int.le_ediv_iff_mul_le (a := i + 1) (b := start - stop - step - 1) (c := -step) (by omega)
      have hmul : ((i : Int) + 1) * -step = -(step * i) - step := by
        rw [Int.add_mul, Int.one_mul, Int.mul_neg, Int.mul_comm]
        rfl
      rw [hmul] at hdiv
      omega
    · omega

section

variable {start stop step : Int}

theorem rangeOf_eq_nil_iff : rangeOf start stop step = [] ↔
    ¬ ((0 < step ∧ start < stop) ∨ (step < 0 ∧ stop < start)) := by
  have hfirst := lt_rangeLength_iff start stop step 0
  rw [Int.natCast_zero, Int.mul_zero, Int.add_zero] at hfirst
  rw [← hfirst, rangeOf, List.map_eq_nil_iff, List.range_eq_nil]
  omega

theorem rangeLength_of_lt (hstep : 0 < step) (h : start < stop) :
    rangeLength start stop step = rangeLength (start + step) stop step + 1 := by
  -- a place of the range after the first is a place of the range without its first element
  have hnext (i : Nat) : i + 1 < rangeLength start stop step ↔ i < rangeLength (start + step) stop step := by
    rw [lt_rangeLength_iff, lt_rangeLength_iff, Int.natCast_add, Int.mul_add]
    omega
  have hfirst : 0 < rangeLength start stop step := by
    rw [lt_rangeLength_iff]
    omega
  have hlast := hnext (rangeLength (start + step) stop step)
  have hlast' := hnext (rangeLength start stop step - 1)
  omega

theorem rangeOf_of_lt (hstep : 0 < step) (h : start < stop) :
    rangeOf start stop step = start :: rangeOf (start + step) stop step := by
  rw [rangeOf, rangeLength_of_lt hstep h, List.range_succ_eq_map, List.map_cons, List.map_map, rangeOf]
  congr 1
  · show start + step * 0 = start
    omega
  · apply List.map_congr_left
    intro i _
    show start + step * ((i + 1 : Nat) : Int) = start + step + step * i
    rw [Int.natCast_add, Int.mul_add]
    omega

end

/-! ### Running a loop -/

/-- What a loop is run on. Evaluating an expression may change the state, and statements may end in any way. -/
structure Host (σ α : Type) where
  read : σ → String → Option Int
  write : String → Int → σ → σ
  number : Js → σ → Option (Int × σ)
  perform : List Js → σ → Outcome σ α
  read_write : ∀ x n s y, read (write x n s) y = if y = x then some n else read s y
  number_num : ∀ o digits n s, decimal? digits = some n → number (.num o digits) s = some ((n : Int), s)

def Outcome.along {σ α β : Type} (b : β) : Outcome σ α → Outcome (σ × β) α
  | done s => done (s, b)
  | leave s => leave (s, b)
  | next s => next (s, b)
  | returned a => returned a
  | failed => failed
  | exhausted => exhausted

namespace Host

variable {σ α : Type} (m : Host σ α)

def initialise : List String → List Js → σ → Outcome σ α
  | x :: xs, e :: es, s =>
    match m.number e s with
    | some (n, t) => initialise xs es (m.write x n t)
    | none => .failed
  | _, _, s => .done s

def test : Js → σ → Option Bool
  | .binOp _ (.name _ (.text x)) (.op _ .lt) (.name _ (.text y)), s => do
    let a ← m.read s x
    let b ← m.read s y
    return a < b
  | _, _ => none

def update : Js → σ → Outcome σ α
  | .augAssign _ (.name _ (.text x)) (.op _ .add) e, s =>
    match m.read s x, m.number e s with
    | some n, some (d, t) => .done (m.write x (n + d) t)
    | _, _ => .failed
  | _, _ => .failed

def turn (var : String) (body : List Js) (st : σ × List (Option Int)) : Outcome (σ × List (Option Int)) α :=
  (m.perform body st.1).along (st.2 ++ [m.read st.1 var])

/-- Runs a loop that counts with a variable, for at most `fuel` turns. The outcome comes with what the variable
held at the start of every turn. -/
def runFor (fuel : Nat) (var : String) : Js → σ → Outcome (σ × List (Option Int)) α
  | .forStmt _ (.declare _ .var _ keys values) test update body, s =>
    ((m.initialise keys values s).along []).andThen (.whileTrue (fun st => m.test test st.1) (m.turn var body)
        (fun st => (m.update update st.1).along st.2) fuel)
  | _, _ => .failed

end Host

/-! ### Compiled loops -/

structure RangeLoop where
  outer : Origin
  inner : Origin
  var : String
  limit : String
  start : Js
  bound : Js
  step : Js
  body : List Js

namespace RangeLoop

variable (l : RangeLoop)

def test : Js :=
  .binOp l.inner (.name l.inner (.text l.var)) (.op l.inner .lt) (.name l.inner (.text l.limit))

def update : Js :=
  .augAssign l.inner (.name l.inner (.text l.var)) (.op l.inner .add) l.step

def tree : Js :=
  .forStmt l.outer (.declare l.inner .var true [l.var, l.limit] [l.start, l.bound]) l.test l.update l.body

/-- A loop is compiled from the parts of a range and what is repeated. The bound has a generated name. -/
structure CompiledFrom (cfg : Config) (here : Place) (start stop step : Option Expr) (body : List Stmt) : Prop where
  limit : ∃ number, Context.generatedName? number = some l.limit
  start : ∃ s s', compileRangePart cfg here "0" start s = .ok l.start s'
  bound : ∃ s s', compileRangePart cfg here "0" stop s = .ok l.bound s'
  step : ∃ s s', compileRangePart cfg here "1" step s = .ok l.step s'
  body : ∃ s s', compileBlock compileTemplate cfg here.inner body s = .ok l.body s'

variable {σ α : Type}

structure Keeps (m : Host σ α) (I : σ → Prop) (s t : σ) : Prop where
  holds : I t
  var : m.read t l.var = m.read s l.var
  limit : m.read t l.limit = m.read s l.limit

/-- The loop counts from `a` to `b` by `d`. As long as `I` holds, which does not hang on the variables of the
loop, the bound and the step have their values, and a turn comes to its end without assigning to the variables
of the loop. -/
structure Counts (m : Host σ α) (I : σ → Prop) (s : σ) (a b d : Int) : Prop where
  start : ∃ t, m.number l.start s = some (a, t) ∧ I t
  write : ∀ s x n, x = l.var ∨ x = l.limit → I s → I (m.write x n s)
  bound : ∀ s x, I s → m.read s l.var = some x → ∃ t, m.number l.bound s = some (b, t) ∧ l.Keeps m I s t
  step : ∀ s x, I s → m.read s l.var = some x → ∃ t, m.number l.step s = some (d, t) ∧ l.Keeps m I s t
  body : ∀ s x, I s → m.read s l.var = some x →
    ∃ t, (m.perform l.body s = .done t ∨ m.perform l.body s = .next t) ∧ l.Keeps m I s t

structure At (m : Host σ α) (I : σ → Prop) (b x : Int) (s : σ) : Prop where
  holds : I s
  var : m.read s l.var = some x
  limit : m.read s l.limit = some b

end RangeLoop

/-! ### Turns -/

namespace Host

variable {σ α : Type} {m : Host σ α} {I : σ → Prop} {l : RangeLoop} {s : σ} {a b d x : Int}

def turns (m : Host σ α) (l : RangeLoop) : Nat → σ × List (Option Int) → Outcome (σ × List (Option Int)) α :=
  .whileTrue (fun st => m.test l.test st.1) (m.turn l.var l.body) (fun st => (m.update l.update st.1).along st.2)

theorem test_of_at (h : l.At m I b x s) : m.test l.test s = some (decide (x < b)) := by
  show (do let a ← m.read s l.var; let b ← m.read s l.limit; return decide (a < b)) = _
  rw [h.var, h.limit]
  rfl

variable (hne : l.var ≠ l.limit) (h : l.Counts m I s a b d)

include hne h

theorem exists_initialise : ∃ t, m.initialise [l.var, l.limit] [l.start, l.bound] s = .done t ∧ l.At m I b a t := by
  obtain ⟨s₁, hstart, h₁⟩ := h.start
  have hvar : m.read (m.write l.var a s₁) l.var = some a := by rw [m.read_write, if_pos rfl]
  obtain ⟨s₂, hbound, hkeeps⟩ := h.bound _ a (h.write _ _ _ (.inl rfl) h₁) hvar
  refine ⟨m.write l.limit b s₂, ?_, ?_, ?_, ?_⟩
  · rw [initialise, hstart]
    show m.initialise [l.limit] [l.bound] (m.write l.var a s₁) = _
    rw [initialise, hbound]
    rfl
  · exact h.write _ _ _ (.inr rfl) hkeeps.holds
  · rw [m.read_write, if_neg hne, hkeeps.var, hvar]
  · rw [m.read_write, if_pos rfl]

theorem exists_turn {t : σ} (ht : l.At m I b x t) (log : List (Option Int)) : ∃ t', l.At m I b (x + d) t' ∧ ∀ f, ((m.turn l.var l.body (t, log)).afterTurn fun st =>
    ((m.update l.update st.1).along st.2).andThen f) = f (t', log ++ [some x]) := by
  obtain ⟨t₁, hbody, hkeeps₁⟩ := h.body t x ht.holds ht.var
  have hvar₁ : m.read t₁ l.var = some x := hkeeps₁.var.trans ht.var
  obtain ⟨t₂, hstep, hkeeps₂⟩ := h.step t₁ x hkeeps₁.holds hvar₁
  have hupdate : m.update l.update t₁ = .done (m.write l.var (x + d) t₂) := by
    rw [RangeLoop.update, update, hvar₁, hstep]
  refine ⟨m.write l.var (x + d) t₂, ⟨?_, ?_, ?_⟩, fun f => ?_⟩
  · exact h.write _ _ _ (.inl rfl) hkeeps₂.holds
  · rw [m.read_write, if_pos rfl]
  · rw [m.read_write, if_neg hne.symm, hkeeps₂.limit, hkeeps₁.limit, ht.limit]
  · -- whether the body ends or goes on with the next turn, the step follows
    have hturn : ∀ o, m.perform l.body t = o → (o = .done t₁ ∨ o = .next t₁) →
        ((m.turn l.var l.body (t, log)).afterTurn fun st =>
          ((m.update l.update st.1).along st.2).andThen f) = f (m.write l.var (x + d) t₂, log ++ [some x]) := by
      rintro _ hperform (rfl | rfl) <;>
      · rw [turn, hperform, ht.var]
        show ((m.update l.update t₁).along (log ++ [some x])).andThen f = _
        rw [hupdate]
        rfl
    exact hturn _ rfl hbody

theorem whileTrue_up (hd : 0 < d) {fuel : Nat} {t : σ} (ht : l.At m I b x t)
    (hfuel : (rangeOf x b d).length ≤ fuel) (log : List (Option Int)) :
    ∃ t', m.turns l fuel (t, log) = .done (t', log ++ (rangeOf x b d).map some) := by
  -- the range shrinks from its front as the fuel does
  induction fuel generalizing t x log with
  | zero =>
    have hnil : rangeOf x b d = [] := List.length_eq_zero_iff.mp (Nat.le_zero.mp hfuel)
    have hge : ¬ x < b := fun hlt => rangeOf_eq_nil_iff.mp hnil (.inl ⟨hd, hlt⟩)
    refine ⟨t, ?_⟩
    rw [turns, Outcome.whileTrue, test_of_at ht, decide_eq_false hge, hnil, List.map_nil, List.append_nil]
    rfl
  | succ _ ih =>
    rw [turns, Outcome.whileTrue, test_of_at ht]
    by_cases hlt : x < b
    · obtain ⟨_, ht₁, hturn⟩ := exists_turn hne h ht log
      rw [rangeOf_of_lt hd hlt] at hfuel ⊢
      obtain ⟨t', ht'⟩ := ih ht₁ (by simpa using hfuel) (log ++ [some x])
      refine ⟨t', ?_⟩
      rw [decide_eq_true hlt, Outcome.ofTest, hturn, List.map_cons,
        List.append_cons log (some x) ((rangeOf (x + d) b d).map some)]
      exact ht'
    · have hnil : rangeOf x b d = [] := rangeOf_eq_nil_iff.mpr (by omega)
      refine ⟨t, ?_⟩
      rw [decide_eq_false hlt, hnil, List.map_nil, List.append_nil]
      rfl

theorem whileTrue_down (hd : d < 0) (fuel : Nat) {t : σ} (ht : l.At m I b x t) (log : List (Option Int)) :
    m.turns l fuel (t, log) = if x < b then .exhausted else .done (t, log) := by
  induction fuel generalizing t x log with
  | zero =>
    rw [turns, Outcome.whileTrue, test_of_at ht]
    by_cases hlt : x < b
    · rw [if_pos hlt, decide_eq_true hlt]
      rfl
    · rw [if_neg hlt, decide_eq_false hlt]
      rfl
  | succ _ ih =>
    rw [turns, Outcome.whileTrue, test_of_at ht]
    by_cases hlt : x < b
    · obtain ⟨_, ht₁, hturn⟩ := exists_turn hne h ht log
      -- the next number is less than the bound as well
      have hnext : x + d < b := by omega
      rw [if_pos hlt, decide_eq_true hlt, Outcome.ofTest, hturn]
      exact (ih ht₁ _).trans (if_pos hnext)
    · rw [if_neg hlt, decide_eq_false hlt]
      rfl

theorem exists_runFor : ∃ t, l.At m I b a t ∧ ∀ fuel, m.runFor fuel l.var l.tree s = m.turns l fuel (t, []) := by
  obtain ⟨t, hinit, ht⟩ := exists_initialise hne h
  refine ⟨t, ht, fun fuel => ?_⟩
  show ((m.initialise [l.var, l.limit] [l.start, l.bound] s).along []).andThen (m.turns l fuel) = _
  rw [hinit]
  rfl

end Host

/-! ### Loops over ranges -/

def TakesRange {σ α : Type} (m : Host σ α) (var : String) (j : Js) (s : σ) (a b d : Int) : Prop :=
  ∃ fuel t, m.runFor fuel var j s = .done (t, (rangeOf a b d).map some)

section

variable {σ α : Type} {m : Host σ α} {I : σ → Prop} {l : RangeLoop} {s : σ} {a b d : Int}
  (hne : l.var ≠ l.limit) (h : l.Counts m I s a b d)

include hne h

theorem RangeLoop.takesRange_iff_of_counts (hd : d ≠ 0) :
    TakesRange m l.var l.tree s a b d ↔ 0 < d ∨ a = b := by
  obtain ⟨t, ht, hrun⟩ := Host.exists_runFor hne h
  by_cases hpos : 0 < d
  · obtain ⟨t', ht'⟩ := Host.whileTrue_up hne h hpos ht (Nat.le_refl _) []
    simp only [hpos, true_or, iff_true]
    exact ⟨_, t', (hrun _).trans ht'⟩
  · have hneg : d < 0 := by omega
    have hdown (fuel : Nat) := (hrun fuel).trans (Host.whileTrue_down hne h hneg fuel ht [])
    constructor
    · rintro ⟨_, t', ht'⟩
      rw [hdown] at ht'
      split at ht'
      · cases ht'
      · -- no turn was taken, so the range is empty
        obtain ⟨-, hnil⟩ : t = t' ∧ [] = (rangeOf a b d).map some := by simpa using ht'
        have := rangeOf_eq_nil_iff.mp (List.map_eq_nil_iff.mp hnil.symm)
        omega
    · rintro (hd' | rfl)
      · exact absurd hd' hpos
      · have hnil : rangeOf a a d = [] := rangeOf_eq_nil_iff.mpr (by omega)
        exact ⟨0, t, by rw [hdown, if_neg (Int.lt_irrefl a), hnil, List.map_nil]⟩

theorem RangeLoop.runFor_eq_exhausted (hd : d < 0) (hlt : a < b) (fuel : Nat) :
    m.runFor fuel l.var l.tree s = .exhausted := by
  obtain ⟨_, ht, hrun⟩ := Host.exists_runFor hne h
  rw [hrun, Host.whileTrue_down hne h hd fuel ht, if_pos hlt]

theorem RangeLoop.exists_runFor_eq_done (hd : d < 0) (hle : b ≤ a) :
    ∃ t, ∀ fuel, m.runFor fuel l.var l.tree s = .done (t, []) := by
  obtain ⟨t, ht, hrun⟩ := Host.exists_runFor hne h
  refine ⟨t, fun fuel => ?_⟩
  rw [hrun, Host.whileTrue_down hne h hd fuel ht, if_neg (Int.not_lt.mpr hle)]

end

section

variable {cfg : Config} {here : Place} {p : Source.At} {target iter : Expr} {var : String}
  {start stop step : Option Expr} {body : List Stmt} {s s' : Session} {j : Js}

theorem exists_rangeLoop (hform : loopForm? target iter false = some (.range var start stop step))
    (h : compileStmt compileTemplate cfg here (.forLoop p false target iter body []) s = .ok j s') :
    ∃ l : RangeLoop, j = l.tree ∧ l.var = var ∧ l.CompiledFrom cfg here start stop step body := by
  obtain ⟨_, hloop, -⟩ := inFrame_eq_ok_iff.mp h
  obtain ⟨form, t₁, hfound, hloop⟩ := bind_eq_ok_iff.mp hloop
  obtain ⟨-, hfound, -⟩ := stays_loopForm _ _ _ _ _ rfl form t₁ hfound
  cases (hform.symm.trans hfound)
  obtain ⟨limit, _, hlimit, hloop⟩ := bind_eq_ok_iff.mp hloop
  obtain ⟨first, _, hfirst, hloop⟩ := bind_eq_ok_iff.mp hloop
  obtain ⟨bound, _, hbound, hloop⟩ := bind_eq_ok_iff.mp hloop
  obtain ⟨increment, _, hstep, hloop⟩ := bind_eq_ok_iff.mp hloop
  obtain ⟨js, _, hbody, hloop⟩ := bind_eq_ok_iff.mp hloop
  obtain ⟨rfl, -⟩ := pure_eq_ok_iff.mp hloop
  exact ⟨⟨_, _, var, limit, first, bound, increment, js⟩, rfl, rfl, ⟨_, (ends_newName _ _ _ hlimit).1⟩,
    ⟨_, _, hfirst⟩, ⟨_, _, hbound⟩, ⟨_, _, hstep⟩, ⟨_, _, hbody⟩⟩

variable {l : RangeLoop} {σ α : Type} {m : Host σ α} {I : σ → Prop} {r : σ} {a b d : Int}

theorem RangeLoop.eq_zero_of_counts (hl : l.CompiledFrom cfg here none stop step body) (h : l.Counts m I r a b d) : a = 0 := by
  obtain ⟨_, _, hstart⟩ := hl.start
  obtain ⟨hstart, -⟩ := pure_eq_ok_iff.mp hstart
  obtain ⟨_, ht, -⟩ := h.start
  rw [hstart, m.number_num _ "0" 0 _ (by decide)] at ht
  cases ht
  rfl

theorem RangeLoop.eq_one_of_counts (hne : l.var ≠ l.limit) (hl : l.CompiledFrom cfg here start stop none body)
    (h : l.Counts m I r a b d) : d = 1 := by
  obtain ⟨_, _, hstep⟩ := hl.step
  obtain ⟨hstep, -⟩ := pure_eq_ok_iff.mp hstep
  obtain ⟨t, -, ht⟩ := Host.exists_initialise hne h
  obtain ⟨_, hd, -⟩ := h.step t a ht.holds ht.var
  rw [hstep, m.number_num _ "1" 1 _ (by decide)] at hd
  cases hd
  rfl

/-- A loop over a range is compiled to a loop that counts with the variable of the source. Wherever the parts of
the range have their values and no turn assigns to the variable or leaves the loop, it takes the turns of the range
exactly if the step is positive or the range starts where it stops. With a negative step it goes on without an end
if it starts below the bound, and takes no turn if not. -/
theorem takesRange_iff (hvar : isGenerated var = false)
    (hform : loopForm? target iter false = some (.range var start stop step))
    (h : compileStmt compileTemplate cfg here (.forLoop p false target iter body []) s = .ok j s') :
    ∃ l : RangeLoop, j = l.tree ∧ l.var = var ∧ l.CompiledFrom cfg here start stop step body ∧
      ∀ (σ α : Type) (m : Host σ α) (I : σ → Prop) (r : σ) (a b d : Int), d ≠ 0 → l.Counts m I r a b d →
        (start = none → a = 0) ∧ (step = none → d = 1) ∧
        (TakesRange m var j r a b d ↔ 0 < d ∨ a = b) ∧
        (d < 0 → a < b → ∀ fuel, m.runFor fuel var j r = .exhausted) ∧
        (d < 0 → b ≤ a → ∃ t, ∀ fuel, m.runFor fuel var j r = .done (t, [])) := by
  obtain ⟨l, rfl, rfl, hl⟩ := exists_rangeLoop hform h
  have hne : l.var ≠ l.limit := by
    obtain ⟨_, hlimit⟩ := hl.limit
    intro heq
    rw [heq, isGenerated_of_generatedName? hlimit] at hvar
    cases hvar
  refine ⟨l, rfl, rfl, hl, ?_⟩
  intro σ α m I r a b d hd hcounts
  refine ⟨?_, ?_, l.takesRange_iff_of_counts hne hcounts hd, l.runFor_eq_exhausted hne hcounts,
    l.exists_runFor_eq_done hne hcounts⟩
  · rintro rfl
    exact RangeLoop.eq_zero_of_counts hl hcounts
  · rintro rfl
    exact RangeLoop.eq_one_of_counts hne hl hcounts

end

-- Calls of `range` with one, two and three arguments are such loops.
example (p q r : Source.At) (x : String) (start stop step : Expr) (kws : List Source.Keyword) :
    let form (args : List Expr) := loopForm? (.name p x) (.call q (.name r "range") args kws) false
    form [stop] = some (.range x none (some stop) none) ∧
    form [start, stop] = some (.range x (some start) (some stop) none) ∧
    form [start, stop, step] = some (.range x (some start) (some stop) (some step)) :=
  ⟨rfl, rfl, rfl⟩

/-! ### Loops on integers -/

def Host.ofIntegers (fuel : Nat) : Host (Env JsValue) JsValue where
  read σ x := (σ x).bind JsValue.number?
  write x n σ := σ.set x (.number n)
  number e σ := (evalNumber σ e).map (·, σ)
  perform body := inSequence (execEach fuel body)
  read_write x n σ y := by
    by_cases h : y = x
    · rw [h, Env.set_self, if_pos rfl]
      rfl
    · rw [Env.set_of_ne _ _ h, if_neg h]
  number_num o digits n σ h := by
    show ((evalJs σ (.num o digits)).bind JsValue.number?).map (·, σ) = _
    rw [evalJs, h]
    rfl

def sumLoop (start stop step : Expr) : Stmt :=
  .forLoop none false (.name none "i") (.call none (.name none "range") [start, stop, step] [])
    [.augAssign none (.name none "x") .add (.name none "i")] []

/-- The loop counts by threes. -/
theorem takesRange_sumLoop :
    let numeral (digits : String) : Expr := .constant none (.number digits)
    ∃ j s', compileStmt compileTemplate (.standard false false) .top
        (sumLoop (numeral "1") (numeral "10") (numeral "3")) .start = .ok j s' ∧
      rangeOf 1 10 3 = [1, 4, 7] ∧
      TakesRange (.ofIntegers 0) "i" j (Env.empty.set "x" (.number 0)) 1 10 3 := by
  intro numeral
  refine ⟨_, _, rfl, by decide, ?_⟩
  have hform : loopForm? (.name none "i")
      (.call none (.name none "range") [numeral "1", numeral "10", numeral "3"] []) false =
      some (.range "i" (some (numeral "1")) (some (numeral "10")) (some (numeral "3"))) := rfl
  obtain ⟨l, hl, -, -, hall⟩ := takesRange_iff (by decide +kernel) hform
    (show compileStmt compileTemplate (.standard false false) .top
      (sumLoop (numeral "1") (numeral "10") (numeral "3")) .start = .ok _ _ from rfl)
  obtain ⟨outer, inner, var, limit, start, bound, step, body⟩ := l
  cases hl
  refine (hall _ _ (.ofIntegers 0) (fun σ => ∃ n, σ "x" = some (.number n)) (Env.empty.set "x" (.number 0))
    1 10 3 (by decide) ⟨⟨_, rfl, 0, rfl⟩, ?_, ?_, ?_, ?_⟩).2.2.1.mpr (.inl (by decide))
  · intro σ x n hx hσ
    have hne : "x" ≠ x := by rcases hx with rfl | rfl <;> decide
    show ∃ k, σ.set x (.number n) "x" = some (.number k)
    rw [Env.set_of_ne σ _ hne]
    exact hσ
  · intro σ i hσ _
    exact ⟨σ, rfl, hσ, rfl, rfl⟩
  · intro σ i hσ _
    exact ⟨σ, rfl, hσ, rfl, rfl⟩
  · rintro σ i ⟨n, hn⟩ hi
    -- a turn changes the sum only
    refine ⟨σ.set "x" (.number (n + i)), .inl ?_, ⟨n + i, Env.set_self ..⟩, ?_, ?_⟩
    · show (assignJs σ "x" (do
        let a ← (← σ "x").number?
        let b ← (σ "i").bind JsValue.number?
        return .number (a + b))).andThen .done = _
      have hi : (σ "i").bind JsValue.number? = some i := hi
      rw [hi, hn]
      show (assignJs σ "x" (some (.number (n + i)))).andThen .done = _
      rw [assignJs_eq_done ⟨_, hn⟩]
      rfl
    · exact congrArg (Option.bind · JsValue.number?) (Env.set_of_ne σ _ (by decide))
    · exact congrArg (Option.bind · JsValue.number?) (Env.set_of_ne σ _ (by decide))

/-- A range that goes down has elements, and its loop takes no turn. -/
theorem sumLoop_of_neg_step :
    let numeral (digits : String) : Expr := .constant none (.number digits)
    rangeOf 5 0 (-1) = [5, 4, 3, 2, 1] ∧
    ∃ j s', compileStmt compileTemplate (.standard false false) .top
        (sumLoop (numeral "5") (numeral "0") (.unaryOp none .uSub (numeral "1"))) .start = .ok j s' ∧
      ∀ σ fuel, (Host.ofIntegers 0).runFor fuel "i" j σ =
        .done ((σ.set "i" (.number 5)).set "_pj_a" (.number 0), []) := by
  refine ⟨by decide, _, _, rfl, fun σ fuel => ?_⟩
  cases fuel <;> rfl

end Transpiler.Meaning
