import Transpiler.Proofs.Meaning.Expr

/-!
# Corresponding environments and array loops

While statements are run, the variables of the source have the same values in the script, which
besides has variables of generated names (`Related`). A statement changes none of the generated
variables that are in use around it (`KeepsNames`): those up to some number. An array loop counts with
three new ones, and takes the turns of the loop over the list (`Counter.simulated`).
-/

namespace Transpiler.Meaning

open Compile
open Compile.Context (generatedName?)
open Script (Js Origin)
open Source (Expr Stmt)

/-! ### Generated names -/

theorem isGenerated_of_generatedName? {k : Int} {g : String} (h : generatedName? k = some g) :
    isGenerated g = true := by
  obtain ⟨_, -, rfl⟩ := Option.map_eq_some_iff.mp h
  simp [isGenerated]

def Fresh (N : Int) (x : String) : Prop :=
  ∀ k, 0 ≤ k → k ≤ N → generatedName? k ≠ some x

theorem Fresh.of_plain {x : String} (h : isGenerated x = false) (N : Int) : Fresh N x := by
  intro _ _ _ hk
  rw [isGenerated_of_generatedName? hk] at h
  cases h

theorem Fresh.of_lt {N k : Int} {g : String} (h : generatedName? k = some g) (hk : 0 ≤ k) (hN : N < k) : Fresh N g := by
  intro _ hm _ hg
  exact Context.ne_of_generatedName? hm hk (by omega) hg h rfl

def KeepsNames (N : Int) (σ τ : Env JsValue) : Prop :=
  ∀ k g, 0 ≤ k → k ≤ N → generatedName? k = some g → τ g = σ g

namespace KeepsNames

variable {M N : Int} {σ τ υ : Env JsValue}

theorem refl (N : Int) (σ : Env JsValue) : KeepsNames N σ σ :=
  fun _ _ _ _ _ => rfl

theorem trans (h : KeepsNames N σ τ) (h' : KeepsNames N τ υ) : KeepsNames N σ υ :=
  fun k g hk hN hg => (h' k g hk hN hg).trans (h k g hk hN hg)

theorem mono (h : KeepsNames M σ τ) (hNM : N ≤ M) : KeepsNames N σ τ :=
  fun k g hk hN hg => h k g hk (Int.le_trans hN hNM) hg

theorem set (h : KeepsNames N σ τ) {x : String} (hx : Fresh N x) (v : JsValue) : KeepsNames N σ (τ.set x v) := by
  intro k g hk hN hg
  have hgx : g ≠ x := by
    rintro rfl
    exact hx k hk hN hg
  rw [Env.set_of_ne _ v hgx]
  exact h k g hk hN hg

end KeepsNames

/-! ### Corresponding environments -/

/-- The environments of the two programs correspond. The variables `declared` exist in the script. -/
structure Related (declared : List String) (ρ : Env Value) (σ : Env JsValue) : Prop where
  agrees : Agrees ρ σ
  plain : ∀ x v, ρ x = some v → isGenerated x = false
  exists_value : ∀ x ∈ declared, ∃ v, σ x = some v

namespace Related

variable {declared : List String} {ρ : Env Value} {σ : Env JsValue}

theorem exists_value_set (h : Related declared ρ σ) (y : String) (v : JsValue) :
    ∀ x ∈ declared, ∃ w, σ.set y v x = some w := by
  intro x hx
  by_cases hxy : x = y
  · exact ⟨v, by rw [hxy, Env.set_self]⟩
  · rw [Env.set_of_ne _ v hxy]
    exact h.exists_value x hx

theorem set (h : Related declared ρ σ) {x : String} (hx : isGenerated x = false) (v : Value) :
    Related declared (ρ.set x v) (σ.set x v.toJs) := by
  refine ⟨h.agrees.set x v, fun y w hw => ?_, h.exists_value_set x v.toJs⟩
  by_cases hyx : y = x
  · rw [hyx]
    exact hx
  · rw [Env.set_of_ne _ _ hyx] at hw
    exact h.plain y w hw

theorem setGenerated (h : Related declared ρ σ) {g : String} (hg : isGenerated g = true)
    (v : JsValue) : Related declared ρ (σ.set g v) := by
  refine ⟨fun y w hw => ?_, h.plain, h.exists_value_set g v⟩
  have hyg : y ≠ g := by
    rintro rfl
    rw [h.plain y w hw] at hg
    cases hg
  rw [Env.set_of_ne _ v hyg]
  exact h.agrees y w hw

end Related

def After (N : Int) (declared : List String) (σ : Env JsValue) (ρ' : Env Value) (σ' : Env JsValue) :
    Prop :=
  Related declared ρ' σ' ∧ KeepsNames N σ σ'

theorem After.trans {N : Int} {declared : List String} {σ τ υ : Env JsValue} {ρ ρ' : Env Value}
    (h : After N declared σ ρ τ) (h' : After N declared τ ρ' υ) : After N declared σ ρ' υ :=
  ⟨h'.1, h.2.trans h'.2⟩

def IsNumber (n : Int) (v : JsValue) : Prop :=
  v = .number n

theorem assignJs_eq_done {σ : Env JsValue} {x : String} (h : ∃ w, σ x = some w) (v : JsValue) :
    assignJs σ x (some v) = .done (σ.set x v) := by
  obtain ⟨_, hw⟩ := h
  simp [assignJs, hw]

/-! ### Array loops -/

/-- The variables that an array loop counts with, where the names up to `N` are in use. -/
structure LoopNames (N : Int) where
  array : String
  length : String
  index : String
  start : -1 ≤ N
  array_eq : generatedName? (N + 1) = some array
  length_eq : generatedName? (N + 1 + 1) = some length
  index_eq : generatedName? (N + 1 + 1 + 1) = some index

namespace LoopNames

variable {N : Int} (names : LoopNames N)

theorem array_ne_length : names.array ≠ names.length := by
  have := names.start
  exact Context.ne_of_generatedName? (by omega) (by omega) (by omega) names.array_eq names.length_eq

theorem array_ne_index : names.array ≠ names.index := by
  have := names.start
  exact Context.ne_of_generatedName? (by omega) (by omega) (by omega) names.array_eq names.index_eq

theorem length_ne_index : names.length ≠ names.index := by
  have := names.start
  exact Context.ne_of_generatedName? (by omega) (by omega) (by omega) names.length_eq names.index_eq

theorem fresh_array : Fresh N names.array :=
  .of_lt names.array_eq (by have := names.start; omega) (by omega)

theorem fresh_length : Fresh N names.length :=
  .of_lt names.length_eq (by have := names.start; omega) (by omega)

theorem fresh_index : Fresh N names.index :=
  .of_lt names.index_eq (by have := names.start; omega) (by omega)

structure Counts (ns : List Int) (k : Nat) (σ : Env JsValue) : Prop where
  array : σ names.array = some (.array ns)
  length : σ names.length = some (.number ns.length)
  index : σ names.index = some (.number k)

namespace Counts

variable {names} {ns : List Int} {k : Nat} {σ τ : Env JsValue}

section

variable (h : names.Counts ns k σ)

include h

theorem of_keepsNames (hkeeps : KeepsNames (N + 1 + 1 + 1) σ τ) : names.Counts ns k τ := by
  have hstart := names.start
  exact ⟨(hkeeps _ _ (by omega) (by omega) names.array_eq).trans h.array,
    (hkeeps _ _ (by omega) (by omega) names.length_eq).trans h.length,
    (hkeeps _ _ (by omega) (by omega) names.index_eq).trans h.index⟩

theorem next : names.Counts ns (k + 1) (σ.set names.index (.number (k + 1 : Nat))) :=
  ⟨(Env.set_of_ne _ _ names.array_ne_index).trans h.array,
    (Env.set_of_ne _ _ names.length_ne_index).trans h.length, Env.set_self ..⟩

theorem evalBoolean_test (n : Origin) : evalBoolean σ (.binOp n (.name n (.text names.index)) (.op n .lt)
    (.name n (.text names.length))) = some (decide (k < ns.length)) := by
  have hindex : evalNumber σ (.name n (.text names.index)) = some (k : Int) := by
    simp [evalNumber, evalJs, h.index, JsValue.number?]
  have hlength : evalNumber σ (.name n (.text names.length)) = some (ns.length : Int) := by
    simp [evalNumber, evalJs, h.length, JsValue.number?]
  have hlt : applyOperator? .lt = some fun a b => .boolean (a < b) := rfl
  rw [evalBoolean, evalJs_binOp hlt hindex hlength n n]
  simp [JsValue.boolean?]

theorem execJs_pick {m : Int} (hm : ns[k]? = some m) {x : String} (hx : ∃ w, σ x = some w) (n : Origin) (fuel : Nat) :
    execJs fuel (.exprStmt n (.assign n (.name n (.text x))
      (.subscript n (.name n (.text names.array)) (.name n (.text names.index))))) σ = .done (σ.set x (.number m)) := by
  have helement : evalJs σ (.subscript n (.name n (.text names.array))
      (.name n (.text names.index))) = some (.number m) := by
    simp [evalJs, h.array, h.index, JsValue.array?, JsValue.number?, JsValue.element, hm]
  rw [execJs, execJs, helement]
  exact assignJs_eq_done hx _

theorem execJs_next (n : Origin) (fuel : Nat) :
    execJs fuel (.exprStmt n (.augAssign n (.name n (.text names.index)) (.op n .add) (.num n "1"))) σ =
      .done (σ.set names.index (.number (k + 1 : Nat))) := by
  have hone : evalNumber σ (.num n "1") = some 1 := rfl
  rw [execJs, execJs, h.index, hone]
  exact assignJs_eq_done ⟨_, h.index⟩ _

end

end Counts

theorem exists_start {declared : List String} {ρ : Env Value} {σ : Env JsValue} (h : Related declared ρ σ) {x : String}
    (hvars : [x, names.index, names.array, names.length] ⊆ declared) {xs : String} {ns : List Int}
    (hlist : ρ xs = some (.list ns)) (n m : Origin) :
    ∃ τ, initialise [x, names.index, names.array, names.length]
        [.absent, .num n "0", .name m (.text xs), .dot n (.name n (.text names.array)) "length"] σ =
          .done τ ∧
      After N declared σ ρ τ ∧ names.Counts ns 0 τ := by
  have hindex := isGenerated_of_generatedName? names.index_eq
  have harray := isGenerated_of_generatedName? names.array_eq
  have hlength := isGenerated_of_generatedName? names.length_eq
  have h₁ := h.setGenerated hindex (.number 0)
  have h₂ := h₁.setGenerated harray (.array ns)
  have h₃ := h₂.setGenerated hlength (.number ns.length)
  refine ⟨_, ?_, ⟨h₃, ?_⟩, ?_⟩
  · have hzero : evalJs σ (.num n "0") = some (.number 0) := rfl
    have hxs : evalJs (σ.set names.index (.number 0)) (.name m (.text xs)) = some (.array ns) := by
      rw [evalJs]
      exact h₁.agrees xs _ hlist
    simp only [initialise, Js.isAbsent, Js.absent, if_true, Bool.false_eq_true, if_false, hzero,
      assignJs_eq_done (h.exists_value names.index (hvars (by simp))), Outcome.andThen, hxs,
      assignJs_eq_done (h₁.exists_value names.array (hvars (by simp)))]
    have hdot : evalJs ((σ.set names.index (.number 0)).set names.array (.array ns))
        (.dot n (.name n (.text names.array)) "length") = some (.number ns.length) := by
      simp [evalJs, JsValue.array?]
    rw [hdot, assignJs_eq_done (h₂.exists_value names.length (hvars (by simp)))]
  · exact (((KeepsNames.refl N σ).set names.fresh_index _).set names.fresh_array _).set names.fresh_length _
  · refine ⟨?_, Env.set_self .., ?_⟩
    · rw [Env.set_of_ne _ _ names.array_ne_length, Env.set_self]
    · rw [Env.set_of_ne _ _ names.length_ne_index.symm, Env.set_of_ne _ _ names.array_ne_index.symm, Env.set_self]
      rfl

end LoopNames

section

variable {N : Int} {names : LoopNames N} {declared : List String} {σ : Env JsValue} {ns : List Int}
  {x : String} {turn : Env Value → Outcome (Env Value) Int}
  {pick turn' next : Env JsValue → Outcome (Env JsValue) JsValue} {test : Env JsValue → Option Bool}

theorem simulated_forEach (hx : isGenerated x = false)
    (htest : ∀ k τ, names.Counts ns k τ → test τ = some (decide (k < ns.length)))
    (hpick : ∀ k m ρ τ, Related declared ρ τ → names.Counts ns k τ → ns[k]? = some m →
      pick τ = .done (τ.set x (.number m)))
    (hnext : ∀ k τ, names.Counts ns k τ → next τ = .done (τ.set names.index (.number (k + 1 : Nat))))
    (hturn : ∀ ρ τ, Related declared ρ τ →
      Simulated (After (N + 1 + 1 + 1) declared τ) IsNumber (turn ρ) (turn' τ)) (fuel : Nat) :
    ∀ k ρ τ, After N declared σ ρ τ → names.Counts ns k τ → Simulated (After N declared σ) IsNumber
        (.forEach (fun m ρ => turn (ρ.set x (.int m))) fuel (ns.drop k) ρ)
        (.whileTrue test (fun τ => (pick τ).andThen turn') next fuel τ) := by
  induction fuel with
  | zero =>
    intro k _ τ hafter hcounts
    rw [Outcome.whileTrue, htest k τ hcounts]
    by_cases hk : k < ns.length
    · rw [List.drop_eq_getElem_cons hk, decide_eq_true hk]
      exact .exhausted
    · rw [List.drop_eq_nil_of_le (Nat.le_of_not_lt hk), decide_eq_false hk]
      exact .done hafter
  | succ _ ih =>
    intro k ρ τ hafter hcounts
    rw [Outcome.whileTrue, htest k τ hcounts]
    by_cases hk : k < ns.length
    · rw [List.drop_eq_getElem_cons hk, decide_eq_true hk, hpick k _ ρ τ hafter.1 hcounts (List.getElem?_eq_getElem hk)]
      have hpicked : KeepsNames (N + 1 + 1 + 1) τ (τ.set x (.number ns[k])) :=
        (KeepsNames.refl _ τ).set (.of_plain hx _) _
      refine (hturn _ _ (hafter.1.set hx (.int ns[k]))).afterTurn ?_ ?_
      · rintro ρ' τ' ⟨hrelated, hkeeps⟩
        have hcounts' := hcounts.of_keepsNames (hpicked.trans hkeeps)
        rw [hnext k τ' hcounts']
        refine ih (k + 1) ρ' _ ⟨?_, ?_⟩ hcounts'.next
        · exact hrelated.setGenerated (isGenerated_of_generatedName? names.index_eq) _
        · exact (hafter.2.trans ((hpicked.trans hkeeps).mono (by omega))).set names.fresh_index _
      · rintro _ _ ⟨hrelated, hkeeps⟩
        exact ⟨hrelated, hafter.2.trans ((hpicked.trans hkeeps).mono (by omega))⟩
    · rw [List.drop_eq_nil_of_le (Nat.le_of_not_lt hk), decide_eq_false hk]
      exact .done hafter

end

end Transpiler.Meaning
