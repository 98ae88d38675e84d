import Transpiler.Compile.Function
import Transpiler.Proofs.Script.Dialect

/-!
# Compiling for the two dialects

Two compilations of one source, the second of which allows all that the first does and may use ES6.
What a step of the first gives, the second gives as well, up to lowering (`Lowers`). There is one rule
for each way to build a step, and one for each step that the rules of the compiler share.
-/

namespace Transpiler.Source

def Expr.isNeutral : Expr → Bool
  | .call _ (.name _ id) _ _ => id != "int" && id != "float"
  | .compare _ _ ops _ => ops.all fun op => op != .isIn && op != .notIn
  | _ => true

end Transpiler.Source

namespace Transpiler.Compile

open Script (Js Lowering Origin)
open Source (Ref)

/-- The run-time functions that are noted by two compilations. What is noted with ES6 is enough to
compile the library again if it is not the same. -/
def SnippetsLower (c : Lowering) : Option (List Snippet) → Option (List Snippet) → Prop
  | none, none => True
  | some fs, some gs =>
    match c with
    | .same => gs = fs
    | .dialect => gs = fs ∧ ∀ f ∈ fs, f = .assertion
    | .functions => gs.isEmpty = fs.isEmpty ∧ ∀ f ∈ gs, f = .assertion ∨ f = .containsEs6
  | _, _ => False

def Session.Lowers (c : Lowering) (s t : Session) : Prop :=
  ∃ gs, t = { s with snippets := gs } ∧ SnippetsLower c s.snippets gs

/-- What a step may give. -/
class Lowerable (α : Type) where
  lower : Lowering → α → α

open Lowerable (lower)

section

variable {c : Lowering}

instance : Lowerable Js := ⟨Js.lower⟩

instance : Lowerable String := ⟨fun _ s => s⟩

instance : Lowerable (Option String) := ⟨fun _ name => name⟩

instance : Lowerable Unit := ⟨fun _ u => u⟩

instance {α : Type} [Lowerable α] : Lowerable (List α) := ⟨fun c => List.map (lower c)⟩

instance {α β : Type} [Lowerable α] [Lowerable β] : Lowerable (α × β) := ⟨fun c => Prod.map (lower c) (lower c)⟩

@[simp]
theorem lower_absent : Js.absent.lower c = .absent :=
  rfl

@[simp]
theorem lower_tree (j : Js) : lower c j = j.lower c :=
  rfl

@[simp]
theorem lower_trees (js : List Js) : lower c js = js.map (Js.lower c) :=
  rfl

@[simp]
theorem lower_pairs (ps : List (Js × Js)) : lower c ps = ps.map (Prod.map (Js.lower c) (Js.lower c)) :=
  rfl

@[simp]
theorem lower_pair {α β : Type} [Lowerable α] [Lowerable β] (a : α) (b : β) : lower c (a, b) = (lower c a, lower c b) :=
  rfl

@[simp]
theorem lower_text (s : String) : lower c s = s :=
  rfl

@[simp]
theorem lower_texts (names : List String) : lower c names = names :=
  List.map_id names

@[simp]
theorem lower_unit (u : Unit) : lower c u = u :=
  rfl

end

def Lowers {α : Type} [Lowerable α] (c : Lowering) (x y : Run α) : Prop :=
  ∀ s t, s.Lowers c t → ∀ a s', x s = .ok a s' → ∃ a' t', y t = .ok a' t' ∧ lower c a' = a ∧ s'.Lowers c t'

namespace Lowers

variable {α β : Type} [Lowerable α] [Lowerable β] {c : Lowering} {x y : Run α} {k k' : α → Run β}

theorem pure {a a' : α} (h : lower c a' = a) : Lowers c (pure a) (pure a') := by
  rintro _ t hst _ _ ⟨⟩
  exact ⟨a', t, rfl, h, hst⟩

theorem throw (e : Fault) (y : Run α) : Lowers c (MonadExcept.throw e) y := by
  rintro _ _ _ _ _ ⟨⟩

theorem bindOf {R : α → Prop} (hx : Lowers c x y) (hR : Yields x R)
    (hk : ∀ a a', R a → lower c a' = a → Lowers c (k a) (k' a')) : Lowers c (x >>= k) (y >>= k') := by
  intro s t hst d s'' h
  obtain ⟨a, s', hxs, hrest⟩ := bind_eq_ok_iff.mp h
  obtain ⟨a', t', hyt, ha, hst'⟩ := hx s t hst a s' hxs
  obtain ⟨d', t'', hk', hd, hst''⟩ := hk a a' (hR s a s' hxs) ha s' t' hst' d s'' hrest
  exact ⟨d', t'', bind_eq_ok_iff.mpr ⟨a', t', hyt, hk'⟩, hd, hst''⟩

theorem bind (hx : Lowers c x y) (hk : ∀ a a', lower c a' = a → Lowers c (k a) (k' a')) :
    Lowers c (x >>= k) (y >>= k') :=
  hx.bindOf (Yields.any x) fun a a' _ => hk a a'

theorem map {h h' : α → β} (hx : Lowers c x y) (hh : ∀ a, lower c (h' a) = h (lower c a)) :
    Lowers c (h <$> x) (h' <$> y) := by
  rw [← bind_pure_comp, ← bind_pure_comp]
  exact hx.bind fun a a' ha => pure (ha ▸ hh a')

theorem getBind {k k' : Session → Run α} (h : ∀ s t, s.Lowers c t → Lowers c (k s) (k' t)) :
    Lowers c (get >>= k) (get >>= k') := by
  intro s t hst b s' hk
  exact h s t hst s t hst b s' hk

theorem modify (h : Session → Session) (hh : ∀ (s : Session) (gs : Option (List Snippet)),
    h { s with snippets := gs } = { h s with snippets := gs } ∧ (h s).snippets = s.snippets) :
    Lowers c (modify h : Run Unit) (modify h) := by
  rintro s _ ⟨gs, rfl, _⟩ _ _ ⟨⟩
  exact ⟨(), h { s with snippets := gs }, rfl, rfl, gs, (hh s gs).1, by rwa [(hh s none).2]⟩

theorem inFrame (hx : Lowers c x y) : Lowers c (inFrame x) (inFrame y) := by
  refine bind (modify _ fun s _ => ⟨rfl, rfl⟩) fun _ _ _ => hx.bind fun a _ ha => ?_
  exact bind (modify _ fun s _ => ⟨rfl, rfl⟩) fun _ _ _ => pure ha

theorem result {s t : Session} (hx : Lowers c x y) (hst : s.Lowers c t) {a : α}
    (h : Run.result x s = .ok a) : ∃ a', Run.result y t = .ok a' ∧ lower c a' = a := by
  unfold Run.result at h
  split at h
  next s' hxs =>
    cases h
    obtain ⟨a', _, hy, ha, -⟩ := hx s t hst a s' hxs
    exact ⟨a', by simp [Run.result, hy], ha⟩
  · cases h

end Lowers

/-! ### Steps that do not depend on the dialect -/

variable {c : Lowering}

theorem lowers_newName : Lowers c newName newName := by
  rintro s _ ⟨gs, rfl, hgs⟩ _ _ h
  unfold newName at h ⊢
  rcases hname : s.context.newName with ⟨_ | _, _⟩
  · simp [hname] at h
  · simp only [hname] at h ⊢
    cases h
    exact ⟨_, _, rfl, rfl, gs, rfl, hgs⟩

theorem lowers_setEntry (key : String) (v : Entry) : Lowers c (setEntry key v) (setEntry key v) :=
  .modify _ fun _ _ => ⟨rfl, rfl⟩

theorem lowers_openScope (taken : List String) (body : List Source.Stmt) :
    Lowers c (openScope taken body) (openScope taken body) := by
  refine .getBind fun s t hst => ?_
  obtain ⟨_, rfl, -⟩ := hst
  exact (lowers_setEntry _ _).bind fun _ _ _ => .pure (by simp)

theorem lowers_addGlobals (names : List String) : Lowers c (addGlobals names) (addGlobals names) :=
  .modify _ fun _ _ => ⟨rfl, rfl⟩

theorem lowers_warn (node : Ref) (text : String) : Lowers c (warn node text) (warn node text) :=
  .modify _ fun _ _ => ⟨rfl, rfl⟩

def SnippetLowers : Lowering → Snippet → Snippet → Prop
  | .same, f, g => g = f
  | .dialect, f, g => g = f ∧ f = .assertion
  | .functions, _, g => g = .assertion ∨ g = .containsEs6

theorem SnippetsLower.insert {f g : Snippet} (h : SnippetLowers c f g) {fs gs : List Snippet}
    (hs : SnippetsLower c (some fs) (some gs)) :
    SnippetsLower c (some (if fs.contains f then fs else fs ++ [f]))
      (some (if gs.contains g then gs else gs ++ [g])) := by
  cases c with
  | same =>
    cases h
    cases hs
    rfl
  | dialect =>
    obtain ⟨rfl, rfl⟩ := h
    obtain ⟨rfl, hall⟩ := hs
    refine ⟨rfl, ?_⟩
    split <;> simpa [or_imp, forall_and] using hall
  | functions =>
    obtain ⟨_, hall⟩ := hs
    have hne (k : Snippet) (ks : List Snippet) : (if ks.contains k then ks else ks ++ [k]).isEmpty = false := by
      split
      · cases ks <;> simp_all
      · simp
    refine ⟨by rw [hne, hne], ?_⟩
    split
    · exact hall
    · intro k hk
      rcases List.mem_append.1 hk with hk | hk
      · exact hall k hk
      · rwa [List.mem_singleton.1 hk]

theorem lowers_useSnippet {f g : Snippet} (h : SnippetLowers c f g) : Lowers c (useSnippet f) (useSnippet g) := by
  rintro ⟨_, snippets, _, _⟩ _ ⟨gs, rfl, hgs⟩ _ _ hrun
  cases snippets with
  | none => cases hrun
  | some =>
    cases gs with
    | none => exact hgs.elim
    | some =>
      cases hrun
      exact ⟨(), _, rfl, rfl, _, rfl, hgs.insert h⟩

/-! ### Settings and places -/

/-- The settings of two compilations: the second allows what the first does, and if it differs in the
dialect, it is the one with ES6. -/
structure Config.Lowers (c : Lowering) (cfg cfg' : Config) : Prop where
  stage3 : cfg.stage3 = true → cfg'.stage3 = true
  snippets : cfg'.snippets = cfg.snippets
  mapped : cfg'.mapped = cfg.mapped
  remap : cfg'.remap = cfg.remap
  same : c = .same → cfg'.es6 = cfg.es6
  differ : c ≠ .same → cfg.es6 = false ∧ cfg'.es6 = true
  /-- Where functions have other names, they are told apart by having no source. -/
  unmapped : c = .functions → cfg.remap = none

namespace Config.Lowers

variable {cfg cfg' : Config}

theorem es6 (h : cfg.Lowers c cfg') (hes6 : cfg.es6 = true) : cfg'.es6 = true := by
  by_cases hc : c = .same
  · rw [h.same hc, hes6]
  · exact (h.differ hc).2

theorem eq_same (h : cfg.Lowers c cfg') (hes6 : cfg.es6 = true) : c = .same := by
  by_contra hc
  simp [(h.differ hc).1] at hes6

theorem origin (h : cfg.Lowers c cfg') (source : Option Ref) : (cfg'.origin source).lower c = cfg.origin source := by
  cases c with
  | same => simp [Origin.lower, Config.origin, h.remap, h.mapped, h.same rfl]
  | dialect | functions =>
    simp [Origin.lower, Config.origin, h.remap, h.mapped, (h.differ (by simp)).1]

theorem contains (h : cfg.Lowers c cfg') (hc : c ≠ .dialect) :
    SnippetLowers c (if cfg.es6 then .containsEs6 else .contains) (if cfg'.es6 then .containsEs6 else .contains) := by
  cases c with
  | same => rw [SnippetLowers, h.same rfl]
  | dialect => exact absurd rfl hc
  | functions =>
    rw [(h.differ (by simp)).2]
    exact .inr rfl

end Config.Lowers

end Transpiler.Compile
