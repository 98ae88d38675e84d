import Transpiler.Compile.Session

/-!
# Outcomes of steps

How computations that may fail are taken apart. There are the equations of a step after a result. For the steps of a
compilation there is `Ends`, which says what holds of every result and of the session after it, with one rule for each
way to build a step. Two special cases are `Yields`, for what holds from whatever session the step starts, and
`Keeps`, for steps that do not change it.
-/

namespace Transpiler

@[simp]
theorem ok_bind {ε α β : Type} (a : α) (f : α → Except ε β) : (Except.ok a >>= f) = f a :=
  rfl

theorem bind_eq_ok {ε α β : Type} {x : Except ε α} {f : α → Except ε β} {b : β} :
    x >>= f = .ok b ↔ ∃ a, x = .ok a ∧ f a = .ok b := by
  cases x with
  | error => simp [bind, Except.bind]
  | ok => simp

theorem exists_of_isOk {ε α : Type} {x : Except ε α} (h : x.isOk = true) : ∃ a, x = .ok a := by
  cases x with
  | error => cases h
  | ok a => exact ⟨a, rfl⟩

section

variable {ε σ α β : Type} {x : EStateM ε σ α} {f : α → EStateM ε σ β} {s t : σ}

theorem bind_of_ok {a : α} (h : x s = .ok a t) : (x >>= f) s = f a t := by
  simp [bind, EStateM.bind, h]

theorem bind_of_error {e : ε} (h : x s = .error e t) : (x >>= f) s = .error e t := by
  simp [bind, EStateM.bind, h]

theorem bind_eq_ok_iff {b : β} : (x >>= f) s = .ok b t ↔ ∃ a t', x s = .ok a t' ∧ f a t' = .ok b t := by
  rcases hx : x s with ⟨a, t'⟩ | ⟨e, t'⟩ <;> simp [bind, EStateM.bind, hx, and_assoc]

end

namespace Compile

variable {α β : Type} {x : Run α} {f : α → Run β} {s : Session} {P : α → Prop} {R : β → Prop}

/-! ### Steps from a session -/

def Ends (x : Run α) (s : Session) (Q : α → Session → Prop) : Prop :=
  ∀ a s', x s = .ok a s' → Q a s'

namespace Ends

variable {Q : α → Session → Prop} {Q' : β → Session → Prop}

theorem pure {a : α} (h : Q a s) : Ends (pure a) s Q := by
  rintro _ _ ⟨⟩
  exact h

theorem throw (e : Fault) : Ends (MonadExcept.throw e : Run α) s Q := by
  rintro _ _ ⟨⟩

theorem bind (hx : Ends x s Q) (hf : ∀ a s', Q a s' → Ends (f a) s' Q') : Ends (x >>= f) s Q' := by
  intro b s' h
  obtain ⟨a, t, hxs, h⟩ := bind_eq_ok_iff.mp h
  exact hf a t (hx a t hxs) b s' h

theorem throwBind (e : Fault) : Ends ((MonadExcept.throw e : Run α) >>= f) s Q' := by
  rintro _ _ ⟨⟩

theorem get : Ends get s fun a s' => a = s ∧ s' = s := by
  rintro _ _ ⟨⟩
  exact ⟨rfl, rfl⟩

theorem modify (g : Session → Session) : Ends (modify g) s fun _ s' => s' = g s := by
  rintro _ _ ⟨⟩
  rfl

end Ends

/-! ### Steps from any session -/

def Yields (x : Run α) (P : α → Prop) : Prop :=
  ∀ s, Ends x s fun a _ => P a

namespace Yields

theorem any (x : Run α) : Yields x fun _ => True :=
  fun _ _ _ _ => trivial

theorem imp {Q : α → Prop} (h : Yields x P) (hPQ : ∀ a, P a → Q a) : Yields x Q :=
  fun s a s' hx => hPQ a (h s a s' hx)

theorem and {Q : α → Prop} (h : Yields x P) (h' : Yields x Q) : Yields x fun a => P a ∧ Q a :=
  fun s a s' hx => ⟨h s a s' hx, h' s a s' hx⟩

theorem pure {a : α} (h : P a) : Yields (pure a) P :=
  fun _ => .pure h

theorem throw (e : Fault) : Yields (throw e : Run α) P :=
  fun _ => .throw e

theorem bind (hx : Yields x P) (hf : ∀ a, P a → Yields (f a) R) : Yields (x >>= f) R :=
  fun s => (hx s).bind fun a s' ha => hf a ha s'

theorem andThen (x : Run α) (hf : ∀ a, Yields (f a) R) : Yields (x >>= f) R :=
  (any x).bind fun a _ => hf a

theorem ofExcept {e : Except Fault α} (h : ∀ a, e = .ok a → P a) : Yields (ofExcept e : Run α) P := by
  cases e with
  | error fault => exact throw fault
  | ok a => exact pure (h a rfl)

theorem inFrame (hx : Yields x P) : Yields (inFrame x) P :=
  andThen _ fun _ => hx.bind fun _ ha => andThen _ fun _ => pure ha

theorem mapM {ys : List β} {g : β → Run α} (h : ∀ y ∈ ys, Yields (g y) P) :
    Yields (ys.mapM g) fun as => ∀ a ∈ as, P a := by
  induction ys with
  | nil => exact pure (by simp)
  | cons y _ ih =>
    rw [List.mapM_cons]
    refine (h y (by simp)).bind fun a ha => ?_
    refine (ih fun z hz => h z (by simp [hz])).bind fun _ has => pure ?_
    exact List.forall_mem_cons.mpr ⟨ha, has⟩

theorem result {a : α} {s : Session} (hx : Yields x P) (h : Run.result x s = .ok a) : P a := by
  unfold Run.result at h
  split at h
  next s' hxs =>
    cases h
    exact hx s a s' hxs
  · cases h

end Yields

/-! ### Steps that leave the session as it is -/

def Keeps (x : Run α) (s : Session) (P : α → Prop) : Prop :=
  Ends x s fun a s' => s' = s ∧ P a

namespace Keeps

theorem imp {Q : α → Prop} (h : Keeps x s P) (hPQ : ∀ a, P a → Q a) : Keeps x s Q :=
  fun a s' hx => ⟨(h a s' hx).1, hPQ a (h a s' hx).2⟩

theorem pure {a : α} (h : P a) : Keeps (pure a) s P :=
  Ends.pure ⟨rfl, h⟩

theorem throw (e : Fault) : Keeps (MonadExcept.throw e : Run α) s P :=
  Ends.throw e

theorem throwBind (e : Fault) : Keeps ((MonadExcept.throw e : Run α) >>= f) s R :=
  Ends.throwBind e

theorem endsBind {Q : β → Session → Prop} (hx : Keeps x s P) (hf : ∀ a, P a → Ends (f a) s Q) : Ends (x >>= f) s Q := by
  refine Ends.bind hx ?_
  rintro a _ ⟨rfl, ha⟩
  exact hf a ha

theorem bind (hx : Keeps x s P) (hf : ∀ a, P a → Keeps (f a) s R) : Keeps (x >>= f) s R :=
  hx.endsBind hf

theorem map {g : α → β} (hx : Keeps x s P) (hg : ∀ a, P a → R (g a)) : Keeps (g <$> x) s R := by
  rw [← bind_pure_comp]
  exact hx.bind fun a ha => pure (hg a ha)

theorem refuseIf (cond : Bool) (node : Source.Ref) (why : Refusal) :
    Keeps (refuseIf cond node why) s fun _ => cond = false := by
  unfold Compile.refuseIf
  split
  · exact throw _
  next h => exact pure (by simpa using h)

theorem guardFeature (on : Bool) (node : Source.Ref) (what : Requirement) :
    Keeps (guardFeature on node what) s fun _ => on = true := by
  unfold Compile.guardFeature
  split
  next h => exact pure h
  · exact throw _

theorem demand (cond : Bool) : Keeps (demand cond) s fun _ => cond = true := by
  unfold Compile.demand
  split
  next h => exact pure h
  · exact throw _

end Keeps

end Compile

end Transpiler
