import Mathlib.Data.List.Basic
import Transpiler.Proofs.Script.Traits

/-!
# Scopes

An identifier denotes the variable that the nearest scope around it declares (`binding`). A function opens a scope for
its parameters and for the variables that are declared in it, the catching part of a `try` statement opens one for the
exception, and a block one for its classes. Every identifier that a tree writes is met in some scopes of the tree
(`Js.exists_mentions_iff`).

An identifier denotes the same variable inside some scopes as outside exactly if none of them declares it
(`binding_append_eq_iff`).
-/

namespace Transpiler.Script

/-! ### Variables -/

/-- The scopes from the one that declares a name on outwards, where `scopes` are in force, the innermost first. There
are none if the name is global. -/
def binding (x : String) (scopes : List (List String)) : List (List String) :=
  scopes.dropWhile fun scope => !scope.contains x

section

variable {x : String} {inner : List (List String)}

theorem binding_cons (scope : List String) (outer : List (List String)) :
    binding x (scope :: outer) = if x ∈ scope then scope :: outer else binding x outer := by
  by_cases hx : x ∈ scope <;> simp [binding, hx]

theorem length_binding_le (x : String) (scopes : List (List String)) : (binding x scopes).length ≤ scopes.length :=
  (List.dropWhile_suffix _).length_le

theorem binding_append_eq_iff (outer : List (List String)) :
    binding x (inner ++ outer) = binding x outer ↔ ∀ scope ∈ inner, x ∉ scope := by
  induction inner with
  | nil => simp
  | cons scope rest ih =>
    rw [List.cons_append, binding_cons, List.forall_mem_cons]
    by_cases hx : x ∈ scope
    · -- the variable is declared further inside than any of the scopes around
      have hne : scope :: (rest ++ outer) ≠ binding x outer := by
        intro heq
        have hlength := length_binding_le x outer
        rw [← heq, List.length_cons, List.length_append] at hlength
        omega
      simp [hx, hne]
    · simp [hx, ih]

/-- A name that the scopes further inside do not declare denotes the one variable of a scope if it is its name, and
the variable outside otherwise. -/
theorem binding_append_cons_iff {y : String} (hinner : ∀ scope ∈ inner, x ∉ scope) (outer : List (List String)) :
    (binding x (inner ++ [y] :: outer) = binding x outer ↔ x ≠ y) ∧
      (binding x (inner ++ [y] :: outer) = [y] :: outer ↔ x = y) := by
  have hne : binding x outer ≠ [y] :: outer := by
    intro heq
    have hlength := length_binding_le x outer
    rw [heq, List.length_cons] at hlength
    omega
  rw [(binding_append_eq_iff ([y] :: outer)).mpr hinner, binding_cons]
  by_cases hx : x = y
  · subst hx
    simp [hne.symm]
  · simp [hx, hne]

end

/-! ### Declarations -/

mutual
def Js.patternNames : Js → List String
  | .text x => [x]
  | .name _ id => id.patternNames
  | .assign _ left _ => left.patternNames
  | .marked _ _ value => value.patternNames
  | .list _ elts => patternNamesAll elts
  | _ => []

def patternNamesAll : List Js → List String
  | [] => []
  | j :: rest => j.patternNames ++ patternNamesAll rest
end

mutual
/-- The names that a statement declares in the function around it. What stands inside other functions and in classes
does not count. -/
def Js.hoistedNames : Js → List String
  | .declare _ .var _ keys _ => keys
  -- an arrow function with a name is written as an assignment
  | .func _ .arrow .. => []
  | .func _ _ given .. => given.toList
  | .importOf _ i => i.locals
  | .exprStmt _ value => value.hoistedNames
  | .statements _ items => hoistedNamesAll items
  | .ifStmt _ _ body orelse => hoistedNamesAll body ++ hoistedNamesAll orelse
  | .whileStmt _ _ body => hoistedNamesAll body
  | .forStmt _ left _ _ body => left.hoistedNames ++ hoistedNamesAll body
  | .forEach _ _ target _ body => target.patternNames ++ hoistedNamesAll body
  | .tryStmt _ body _ catchBody finallyBody =>
    hoistedNamesAll body ++ hoistedNamesAll catchBody ++ hoistedNamesAll finallyBody
  | _ => []

def hoistedNamesAll : List Js → List String
  | [] => []
  | j :: rest => j.hoistedNames ++ hoistedNamesAll rest
end

mutual
def Js.blockNames : Js → List String
  | .declare _ .letVar _ keys _ => keys
  | .classDef _ cls _ _ => cls.patternNames
  | .statements _ items => blockNamesAll items
  | _ => []

def blockNamesAll : List Js → List String
  | [] => []
  | j :: rest => j.blockNames ++ blockNamesAll rest
end

theorem blockNamesAll_append (js ks : List Js) : blockNamesAll (js ++ ks) = blockNamesAll js ++ blockNamesAll ks := by
  induction js with
  | nil => rfl
  | cons _ _ ih => rw [List.cons_append, blockNamesAll, ih, blockNamesAll, List.append_assoc]

/-! ### Trees inside trees -/

structure Scoped where
  scopes : List (List String)
  tree : Js

def Scoped.under (scope : List String) (p : Scoped) : Scoped :=
  ⟨p.scopes ++ [scope], p.tree⟩

def unscoped (js : List Js) : List Scoped :=
  js.map fun j => ⟨[], j⟩

def blocked (js : List Js) : List Scoped :=
  js.map fun j => ⟨[blockNamesAll js], j⟩

def functionParts (args body : List Js) (rest : Js) (kwargs : List Js) : List Scoped :=
  let params := args ++ rest :: kwargs
  (unscoped params ++ blocked body).map (.under (patternNamesAll params ++ hoistedNamesAll body))

def Js.scopedParts : Js → List Scoped
  | .bare _ | .text _ | .num _ _ | .json _ _ | .atom _ _ | .op _ _ | .template _ _ | .literal _ _ | .jump _ _
  | .importOf _ _ | .pass _ | .comment _ _ => []
  | .name _ e | .paren _ e | .dot _ e _ | .keySubscript _ e | .tagged _ _ e | .marked _ _ e | .exprStmt _ e | .ret _ e
  | .command _ _ e | .exportDefault _ e => unscoped [e]
  | .assign _ left right | .subscript _ left right | .unaryOp _ left right => unscoped [left, right]
  | .ifExp _ test body orelse => unscoped [test, body, orelse]
  | .binOp _ left o right | .augAssign _ left o right => unscoped [left, o, right]
  | .call _ _ f args kwargs => unscoped (f :: (args ++ [kwargs]))
  | .tests _ conj ops lefts rights => unscoped (conj :: (ops ++ lefts ++ rights))
  | .dict _ keys values => unscoped (keys ++ values)
  -- statements that are only grouped stand in the block around them
  | .list _ js | .statements _ js | .declare _ _ _ _ js | .exportNames _ js => unscoped js
  | .ifStmt _ test body orelse => unscoped [test] ++ blocked body ++ blocked orelse
  | .whileStmt _ test body => unscoped [test] ++ blocked body
  | .forStmt _ left test right body => (unscoped [left, test, right] ++ blocked body).map (.under left.blockNames)
  | .forEach _ _ target source body => unscoped [target, source] ++ blocked body
  | .tryStmt _ body target catchBody finallyBody =>
    blocked body ++ (unscoped [target] ++ blocked catchBody).map (.under target.patternNames) ++ blocked finallyBody
  | .func _ _ _ args body rest kwargs | .member _ _ _ _ args body rest kwargs => functionParts args body rest kwargs
  -- the name of a class is declared by the block around it
  | .classDef _ cls superclass members => unscoped (cls :: superclass :: members)

def Js.ownNames : Js → List String
  | .text x => [x]
  | .declare _ _ _ keys _ => keys
  | .func _ _ given .. => given.toList
  | .importOf _ i => i.locals
  | _ => []

inductive Js.Encloses : Js → List (List String) → Js → Prop
  | self (j : Js) : Encloses j [] j
  | part {j i : Js} {p : Scoped} {scopes : List (List String)} (hp : p ∈ j.scopedParts)
      (h : Encloses p.tree scopes i) : Encloses j (scopes ++ p.scopes) i

def Js.Mentions (j : Js) (scopes : List (List String)) (x : String) : Prop :=
  ∃ i, j.Encloses scopes i ∧ x ∈ i.ownNames

theorem Js.Encloses.trans {j k i : Js} {outer inner : List (List String)} (hk : j.Encloses outer k)
    (hi : k.Encloses inner i) : j.Encloses (inner ++ outer) i := by
  induction hk with
  | self => simpa using hi
  | part hp _ ih =>
    rw [← List.append_assoc]
    exact .part hp (ih hi)

theorem Js.Encloses.mentions {j k : Js} {outer inner : List (List String)} {x : String} (hk : j.Encloses outer k)
    (hx : k.Mentions inner x) : j.Mentions (inner ++ outer) x := by
  obtain ⟨i, hi, hx⟩ := hx
  exact ⟨i, hk.trans hi, hx⟩

/-! ### Identifiers -/

def Trait.identifier? : Trait → Option String
  | .name _ id => some id
  | .feature _ | .template _ => none

def identifiers (ts : List Trait) : List String :=
  ts.filterMap Trait.identifier?

theorem mem_identifiers {ts : List Trait} {x : String} : x ∈ identifiers ts ↔ ∃ node, .name node x ∈ ts := by
  rw [identifiers, List.mem_filterMap]
  constructor
  · rintro ⟨t, ht, hx⟩
    cases t with
    | name node =>
      obtain rfl := Option.some.inj hx
      exact ⟨node, ht⟩
    | feature | template => cases hx
  · rintro ⟨_, hx⟩
    exact ⟨_, hx, rfl⟩

@[simp]
theorem identifiers_nil : identifiers [] = [] :=
  rfl

@[simp]
theorem identifiers_name_cons (node : Option Source.Ref) (x : String) (ts : List Trait) :
    identifiers (.name node x :: ts) = x :: identifiers ts :=
  rfl

@[simp]
theorem identifiers_feature_cons (f : Feature) (ts : List Trait) : identifiers (.feature f :: ts) = identifiers ts :=
  rfl

@[simp]
theorem identifiers_template_cons (text : String) (ts : List Trait) :
    identifiers (.template text :: ts) = identifiers ts :=
  rfl

@[simp]
theorem identifiers_append (ts us : List Trait) : identifiers (ts ++ us) = identifiers ts ++ identifiers us :=
  List.filterMap_append ..

@[simp]
theorem identifiers_featureIf (cond : Bool) (f : Feature) : identifiers (featureIf cond f) = [] := by
  unfold featureIf
  split <;> rfl

@[simp]
theorem identifiers_map_name (node : Option Source.Ref) (xs : List String) :
    identifiers (xs.map (.name node)) = xs := by
  induction xs with
  | nil => rfl
  | cons _ _ ih => rw [List.map_cons, identifiers_name_cons, ih]

@[simp]
theorem mem_identifiers_traitsAll {js : List Js} {x : String} :
    x ∈ identifiers (traitsAll js) ↔ ∃ j ∈ js, x ∈ identifiers j.traits := by
  induction js with
  | nil => simp
  | cons _ _ ih => simp [ih]

def Js.inside (j : Js) : List Js :=
  j.scopedParts.map Scoped.tree

@[simp]
theorem map_tree_unscoped (js : List Js) : (unscoped js).map Scoped.tree = js := by
  simp [unscoped, Function.comp_def]

@[simp]
theorem map_tree_blocked (js : List Js) : (blocked js).map Scoped.tree = js := by
  simp [blocked, Function.comp_def]

@[simp]
theorem tree_comp_under (scope : List String) : Scoped.tree ∘ Scoped.under scope = Scoped.tree :=
  rfl

theorem Js.mem_identifiers_iff (j : Js) (x : String) : x ∈ identifiers j.traits ↔
    x ∈ j.ownNames ∨ x ∈ identifiers (traitsAll j.inside) := by
  cases j
  case name o id => cases id <;> simp [inside, scopedParts, ownNames]
  case func | member =>
    simp [inside, scopedParts, ownNames, functionParts, parameterTraits, -mem_identifiers_traitsAll]
    tauto
  all_goals simp [inside, scopedParts, ownNames, -mem_identifiers_traitsAll]

theorem Js.sizeOf_inside {j k : Js} (h : k ∈ j.inside) : sizeOf k < sizeOf j := by
  have hmem {js : List Js} (hk : k ∈ js) := List.sizeOf_lt_of_mem hk
  cases j
  all_goals simp [inside, scopedParts, functionParts] at h
  all_goals
    simp
    grind

theorem Js.exists_mentions_iff (j : Js) (x : String) : (∃ scopes, j.Mentions scopes x) ↔ x ∈ identifiers j.traits := by
  constructor
  · rintro ⟨_, i, hi, hx⟩
    induction hi with
    | self j => exact (j.mem_identifiers_iff x).mpr (.inl hx)
    | @part j _ p _ hp _ ih =>
      exact (j.mem_identifiers_iff x).mpr (.inr (mem_identifiers_traitsAll.mpr ⟨p.tree, List.mem_map_of_mem hp, ih hx⟩))
  · intro hx
    -- the parts are smaller trees
    induction hsize : sizeOf j using Nat.strongRecOn generalizing j with
    | _ _ ih =>
      rcases (j.mem_identifiers_iff x).mp hx with hx | hx
      · exact ⟨[], j, .self j, hx⟩
      · obtain ⟨k, hk, hx⟩ := mem_identifiers_traitsAll.mp hx
        obtain ⟨_, hscopes⟩ := ih _ (hsize ▸ sizeOf_inside hk) k hx rfl
        obtain ⟨_, hp, rfl⟩ := List.mem_map.mp hk
        obtain ⟨i, hi, hx⟩ := hscopes
        exact ⟨_, i, .part hp hi, hx⟩

end Transpiler.Script
