import Mathlib.Data.List.Basic

/-!
# Running statements

The values of variables, what running a statement can come to, and how the outcomes of two programs
correspond (`Simulated`). A run may take at most `fuel` turns in each loop; a loop that would take more
leaves the run `exhausted`. So where the outcomes of two programs correspond under every bound, they
return the same values and neither ends where the other does not.
-/

namespace Transpiler.Meaning

/-! ### Variables -/

abbrev Env (V : Type) := String → Option V

namespace Env

variable {V : Type} (ρ : Env V)

def empty : Env V := fun _ => none

def set (x : String) (v : V) : Env V :=
  fun y => if y = x then some v else ρ y

@[simp]
theorem set_self (x : String) (v : V) : ρ.set x v x = some v := by
  simp [set]

theorem set_of_ne {x y : String} (v : V) (h : y ≠ x) : ρ.set x v y = ρ y := by
  simp [set, h]

def bind : List String → List V → Env V → Env V
  | x :: xs, v :: vs, ρ => bind xs vs (ρ.set x v)
  | _, _, ρ => ρ

theorem mem_of_bind_eq_some {x : String} {v : V} {xs : List String} :
    ∀ {vs : List V} {ρ : Env V}, bind xs vs ρ x = some v → x ∈ xs ∨ ρ x = some v := by
  induction xs with
  | nil => exact fun h => .inr h
  | cons y _ ih =>
    rintro (_ | ⟨_, _⟩) _ h
    · exact .inr h
    · rcases ih h with h | h
      · exact .inl (List.mem_cons_of_mem y h)
      · by_cases hxy : x = y
        · exact .inl (hxy ▸ List.mem_cons_self)
        · rw [set_of_ne _ _ hxy] at h
          exact .inr h

end Env

/-! ### Numerals -/

def digit? (c : Char) : Option Nat :=
  if c.isDigit then some (c.toNat - '0'.toNat) else none

/-- The number that a decimal numeral stands for. A numeral does not start with a zero, but for zero
itself. -/
def decimal? (s : String) : Option Nat :=
  match s.toList with
  | [] => none
  | ['0'] => some 0
  | '0' :: _ => none
  | cs => cs.foldlM (fun n c => (digit? c).map (10 * n + ·)) 0

/-! ### Outcomes -/

/-- The outcome of a statement: in a state after which the next statement is run, or the loop is left,
or the next turn starts; with a returned value; with an error; or not within the bound. -/
inductive Outcome (σ α : Type) where
  | done (s : σ)
  | leave (s : σ)
  | next (s : σ)
  | returned (a : α)
  | failed
  | exhausted
  deriving Repr, DecidableEq

/-- The outcome of a call: a value, the end without one, an error, or none within the bound. -/
inductive Answer (α : Type) where
  | returned (a : α)
  | ended
  | failed
  | exhausted
  deriving Repr, DecidableEq

def Answer.map {α β : Type} (f : α → β) : Answer α → Answer β
  | returned a => returned (f a)
  | ended => ended
  | failed => failed
  | exhausted => exhausted

namespace Outcome

variable {σ α : Type}

def andThen (o : Outcome σ α) (f : σ → Outcome σ α) : Outcome σ α :=
  match o with
  | done s => f s
  | o => o

def ofTest (test : Option Bool) (yes no : Outcome σ α) : Outcome σ α :=
  match test with
  | none => failed
  | some true => yes
  | some false => no

theorem andThen_done (o : Outcome σ α) : o.andThen done = o := by
  cases o <;> rfl

def afterTurn (o : Outcome σ α) (f : σ → Outcome σ α) : Outcome σ α :=
  match o with
  | done s | next s => f s
  | leave s => done s
  | o => o

def whileTrue (test : σ → Option Bool) (turn update : σ → Outcome σ α) : Nat → σ → Outcome σ α
  | 0, s => ofTest (test s) exhausted (done s)
  | fuel + 1, s =>
    ofTest (test s) ((turn s).afterTurn fun s => (update s).andThen (whileTrue test turn update fuel)) (done s)

def forEach {β : Type} (turn : β → σ → Outcome σ α) : Nat → List β → σ → Outcome σ α
  | _, [], s => done s
  | 0, _ :: _, _ => exhausted
  | fuel + 1, b :: rest, s => (turn b s).afterTurn (forEach turn fuel rest)

def answer : Outcome σ α → Answer α
  | done _ => .ended
  | returned a => .returned a
  | leave _ | next _ | failed => .failed
  | exhausted => .exhausted

end Outcome

/-! ### Correspondence -/

/-- Two outcomes correspond: they are of one kind, with states in the relation `R` or values in the
relation `V`. Nothing is said where the first is an error. -/
inductive Simulated {σ τ α β : Type} (R : σ → τ → Prop) (V : α → β → Prop) :
    Outcome σ α → Outcome τ β → Prop
  | done {s : σ} {t : τ} (h : R s t) : Simulated R V (.done s) (.done t)
  | leave {s : σ} {t : τ} (h : R s t) : Simulated R V (.leave s) (.leave t)
  | next {s : σ} {t : τ} (h : R s t) : Simulated R V (.next s) (.next t)
  | returned {a : α} {b : β} (h : V a b) : Simulated R V (.returned a) (.returned b)
  | failed (o : Outcome τ β) : Simulated R V .failed o
  | exhausted : Simulated R V .exhausted .exhausted

namespace Simulated

variable {σ τ α β : Type} {R R' : σ → τ → Prop} {V : α → β → Prop} {o : Outcome σ α} {o' : Outcome τ β}

theorem andThen {f : σ → Outcome σ α} {g : τ → Outcome τ β} (h : Simulated R V o o')
    (hf : ∀ s t, R s t → Simulated R' V (f s) (g t)) (hR : ∀ s t, R s t → R' s t) :
    Simulated R' V (o.andThen f) (o'.andThen g) := by
  cases h with
  | done h => exact hf _ _ h
  | leave h => exact .leave (hR _ _ h)
  | next h => exact .next (hR _ _ h)
  | returned h => exact .returned h
  | failed => exact .failed _
  | exhausted => exact .exhausted

theorem mono (h : Simulated R V o o') (hR : ∀ s t, R s t → R' s t) : Simulated R' V o o' := by
  rw [← o.andThen_done, ← o'.andThen_done]
  exact h.andThen (fun _ _ h => .done (hR _ _ h)) hR

theorem ofTest {test test' : Option Bool} {no : Outcome σ α} {no' : Outcome τ β}
    (htest : ∀ b, test = some b → test' = some b) (hyes : Simulated R V o o')
    (hno : Simulated R V no no') :
    Simulated R V (.ofTest test o no) (.ofTest test' o' no') := by
  cases test with
  | none => exact .failed _
  | some b =>
    rw [htest b rfl]
    cases b with
    | true => exact hyes
    | false => exact hno

theorem afterTurn {f : σ → Outcome σ α} {g : τ → Outcome τ β} (h : Simulated R V o o')
    (hf : ∀ s t, R s t → Simulated R' V (f s) (g t)) (hR : ∀ s t, R s t → R' s t) :
    Simulated R' V (o.afterTurn f) (o'.afterTurn g) := by
  cases h with
  | done h => exact hf _ _ h
  | leave h => exact .done (hR _ _ h)
  | next h => exact hf _ _ h
  | returned h => exact .returned h
  | failed => exact .failed _
  | exhausted => exact .exhausted

theorem whileTrue {test : σ → Option Bool} {test' : τ → Option Bool}
    {turn update : σ → Outcome σ α} {turn' update' : τ → Outcome τ β}
    (htest : ∀ s t, R s t → ∀ b, test s = some b → test' t = some b)
    (hturn : ∀ s t, R s t → Simulated R V (turn s) (turn' t))
    (hupdate : ∀ s t, R s t → Simulated R V (update s) (update' t)) (fuel : Nat) :
    ∀ s t, R s t → Simulated R V (.whileTrue test turn update fuel s) (.whileTrue test' turn' update' fuel t) := by
  induction fuel with
  | zero =>
    intro s t h
    exact ofTest (htest s t h) .exhausted (.done h)
  | succ _ ih =>
    intro s t h
    refine ofTest (htest s t h) ?_ (.done h)
    exact (hturn s t h).afterTurn (fun s t h => (hupdate s t h).andThen ih fun _ _ => id) fun _ _ => id

theorem answer_eq {f : α → β} (h : Simulated R (fun a b => b = f a) o o')
    (hfailed : o.answer ≠ .failed) : o'.answer = o.answer.map f := by
  cases h with
  | done => rfl
  | leave => exact absurd rfl hfailed
  | next => exact absurd rfl hfailed
  | returned h => rw [h]; rfl
  | failed => exact absurd rfl hfailed
  | exhausted => rfl

end Simulated

end Transpiler.Meaning
