import Transpiler.Source.Stmt

/-!
# Parameters and their defaults

The defaults of a definition belong to the last of the parameters that may come by position (`alignRight`). A
leading `self` is no parameter of a function (`withoutSelf`). Without it, the parameters that may come by position
(`Params.positional`) are more than the ordinary ones (`Params.ordinary`), unless no other parameter only comes by
position (`Params.freeOfPosOnly_of_length_eq`).
-/

namespace Transpiler.Source

/-! ### Defaults -/

def alignRight (names : List String) (defaults : List Expr) : List (String × Option Expr) :=
  let bare := names.length - defaults.length
  (names.take bare).map (·, none) ++ (names.drop bare).zip (defaults.map some)

def dropSelf (names : List String) : List String :=
  if names.head? = some "self" then names.drop 1 else names

def withoutSelf (ps : List (String × Option Expr)) : List (String × Option Expr) :=
  if (ps.map (·.1)).head? = some "self" then ps.drop 1 else ps

section

variable {names : List String} {defaults : List Expr}

theorem map_fst_alignRight : (alignRight names defaults).map (·.1) = names := by
  have hlast : (names.drop (names.length - defaults.length)).length ≤ (defaults.map some).length := by
    simp
    omega
  simp [alignRight, List.map_fst_zip hlast, Function.comp_def]

theorem alignRight_eq_zip : alignRight names defaults =
    names.zip (List.replicate (names.length - defaults.length) none ++ defaults.map some) := by
  generalize hbare : names.length - defaults.length = bare
  have hzip : ((names.take bare).map fun name => (name, (none : Option Expr))) =
      (names.take bare).zip (List.replicate bare none) :=
    List.ext_getElem (by simp) (by simp)
  conv => rhs; rw [← List.take_append_drop bare names]
  rw [List.zip_append (by simp; omega), alignRight, hbare, hzip]

theorem alignRight_append (front : List String) (h : defaults.length ≤ names.length) :
    alignRight (front ++ names) defaults = front.map (·, none) ++ alignRight names defaults := by
  have hbare : (front ++ names).length - defaults.length = front.length + (names.length - defaults.length) := by
    rw [List.length_append, Nat.add_sub_assoc h]
  simp only [alignRight, hbare, List.take_length_add_append, List.drop_length_add_append, List.map_append,
    List.append_assoc]

theorem map_fst_withoutSelf (ps : List (String × Option Expr)) :
    (withoutSelf ps).map (·.1) = dropSelf (ps.map (·.1)) := by
  rw [withoutSelf, dropSelf]
  split <;> simp

theorem length_dropSelf_le (names : List String) : (dropSelf names).length ≤ names.length := by
  rw [dropSelf]
  split <;> simp

theorem withoutSelf_alignRight (h : defaults.length ≤ (dropSelf names).length) :
    withoutSelf (alignRight names defaults) = alignRight (dropSelf names) defaults := by
  rw [withoutSelf, map_fst_alignRight]
  rw [dropSelf] at h ⊢
  split at h
  next hself =>
    obtain ⟨_, rfl⟩ := List.head?_eq_some_iff.mp hself
    rw [if_pos hself, if_pos hself]
    exact congrArg (List.drop 1) (alignRight_append ["self"] h)
  next hself => rw [if_neg hself, if_neg hself]

end

namespace Params

variable (ps : Params)

/-- There are not more defaults than parameters that may have one, and there is one entry for each parameter that
only comes by name. -/
structure Aligned : Prop where
  defaults : ps.defaults.length ≤ ps.posOnly.length + ps.args.length
  kwDefaults : ps.kwDefaults.length = ps.kwOnly.length

/-- The parameters that may come by position, each with its own default, without a leading `self`. -/
def positional : List (String × Option Expr) :=
  withoutSelf (alignRight ((ps.posOnly ++ ps.args).map (·.name)) ps.defaults)

/-- The parameters that may come by position or by name, each with its own default, without a leading `self`. -/
def ordinary : List (String × Option Expr) :=
  withoutSelf ((alignRight ((ps.posOnly ++ ps.args).map (·.name)) ps.defaults).drop ps.posOnly.length)

def byName : List (String × Option Expr) :=
  (ps.kwOnly.zip ps.kwDefaults).map fun (k, v) => (k.name, if v.isAbsent then none else some v)

def FreeOfPosOnly : Prop :=
  ps.posOnly = [] ∨ ps.posOnly.map (·.name) = ["self"] ∧ ps.args.head?.map (·.name) ≠ some "self"

variable {ps}

theorem map_fst_positional : ps.positional.map (·.1) = dropSelf (ps.posOnly.map (·.name) ++ ps.args.map (·.name)) := by
  rw [positional, map_fst_withoutSelf, map_fst_alignRight, List.map_append]

theorem map_fst_ordinary : ps.ordinary.map (·.1) = dropSelf (ps.args.map (·.name)) := by
  rw [ordinary, map_fst_withoutSelf, List.map_drop, map_fst_alignRight, List.map_append, List.drop_left' (by simp)]

theorem length_ordinary : ps.ordinary.length = (dropSelf (ps.args.map (·.name))).length := by
  rw [← map_fst_ordinary, List.length_map]

theorem ordinary_eq_alignRight (h : ps.defaults.length ≤ ps.ordinary.length) :
    ps.ordinary = alignRight (dropSelf (ps.args.map (·.name))) ps.defaults := by
  rw [length_ordinary] at h
  rw [ordinary, List.map_append, alignRight_append _ (Nat.le_trans h (length_dropSelf_le _)),
    List.drop_left' (by simp), withoutSelf_alignRight h]

theorem FreeOfPosOnly.positional_eq (h : ps.FreeOfPosOnly) : ps.positional = ps.ordinary := by
  rcases h with h | ⟨hself, _⟩
  · simp [positional, ordinary, h]
  · have hone : ps.posOnly.length = 1 := by simpa using congrArg List.length hself
    have hnames : (alignRight ((ps.posOnly ++ ps.args).map (·.name)) ps.defaults).map (·.1) =
        "self" :: ps.args.map (·.name) := by
      rw [map_fst_alignRight, List.map_append, hself, List.singleton_append]
    have hrest : ¬ (ps.args.map (·.name)).head? = some "self" := by rwa [List.head?_map]
    rw [positional, ordinary, hone, withoutSelf, withoutSelf, List.map_drop, hnames, List.head?_cons,
      if_pos rfl, List.drop_succ_cons, List.drop_zero, if_neg hrest]

theorem freeOfPosOnly_of_length_eq (h : ps.positional.length = ps.ordinary.length) : ps.FreeOfPosOnly := by
  rw [length_ordinary, ← List.length_map (·.1), map_fst_positional] at h
  have hle : (dropSelf (ps.args.map (·.name))).length ≤ ps.args.length := by
    simpa using length_dropSelf_le (ps.args.map (·.name))
  cases hfront : ps.posOnly with
  | nil => exact .inl hfront
  | cons _ rest =>
    rw [hfront, List.map_cons, List.cons_append, dropSelf] at h
    split at h
    next hself =>
      have hlength : rest.length + ps.args.length = (dropSelf (ps.args.map (·.name))).length := by simpa using h
      obtain rfl : rest = [] := List.length_eq_zero_iff.mp (by omega)
      refine .inr ⟨by simpa [hfront] using hself, fun hargs => ?_⟩
      rw [← List.head?_map] at hargs
      rw [dropSelf, if_pos hargs, List.length_drop, List.length_map] at hlength
      have hne : ps.args ≠ [] := by
        rintro hnil
        simp [hnil] at hargs
      have := List.length_pos_iff.mpr hne
      omega
    · simp at h
      omega

end Params

end Transpiler.Source
