import Mathlib.Data.String.Basic
import Transpiler.Proofs.Source.Nodes

/-!
# Walks over source trees

A walk with a stack meets the nodes that a recursion over the tree lists (`Tree.walk_eq_metAll`): a
node, then what is below it from right to left, unless the walk does not go below the node. So the
names that are assigned in a scope are those of the nodes met in it (`mem_localNames`).
-/

namespace Transpiler.Source

variable {i : Info} {ps : List Tree} {kind : String} {pos : At} {names : List String}

namespace Tree

mutual
def met (descend : Info → Bool) : Tree → List Tree
  | node i ps => node i ps :: if descend i then metAll descend ps else []

def metAll (descend : Info → Bool) : List Tree → List Tree
  | [] => []
  | t :: rest => metAll descend rest ++ t.met descend
end

variable {descend : Info → Bool}

theorem metAll_eq_flatMap (ts : List Tree) : metAll descend ts = ts.reverse.flatMap (met descend) := by
  induction ts with
  | nil => rfl
  | cons _ _ ih => simp [metAll, ih]

theorem sizeAll_append (ts us : List Tree) : sizeAll (ts ++ us) = sizeAll ts + sizeAll us := by
  induction ts with
  | nil => simp [sizeAll]
  | cons _ _ ih => simp [sizeAll, ih, Nat.add_assoc]

theorem sizeAll_reverse (ts : List Tree) : sizeAll ts.reverse = sizeAll ts := by
  induction ts with
  | nil => rfl
  | cons _ _ ih => simp [sizeAll, sizeAll_append, ih, Nat.add_comm]

theorem walkFrom_eq_flatMap {fuel : Nat} : ∀ {stack : List Tree}, sizeAll stack ≤ fuel →
    walkFrom descend fuel stack = stack.flatMap (met descend) := by
  induction fuel with
  | zero =>
    rintro (_ | ⟨⟨_, _⟩, _⟩) h
    · rfl
    · rw [sizeAll, size] at h
      omega
  | succ fuel ih =>
    rintro (_ | ⟨⟨i, ps⟩, stack⟩) h
    · rfl
    · rw [sizeAll, size] at h
      rw [walkFrom, List.flatMap_cons, met, List.cons_append]
      cases hi : descend i with
      | true =>
        have hsize : sizeAll (ps.reverse ++ stack) ≤ fuel := by
          rw [sizeAll_append, sizeAll_reverse]
          omega
        simp [info, parts, hi, ih hsize, metAll_eq_flatMap]
      | false =>
        have hsize : sizeAll stack ≤ fuel := by omega
        simp [info, hi, ih hsize]

theorem walk_eq_metAll (ts : List Tree) : walk descend ts = metAll descend ts := by
  rw [walk, walkFrom_eq_flatMap (Nat.le_of_eq (sizeAll_reverse ts)), metAll_eq_flatMap]

mutual
theorem of_mem_met {φ : Info → Bool} {u : Tree} : ∀ t : Tree, t.all φ = true → u ∈ t.met descend → φ u.info = true
  | node i ps, h, hu => by
    rw [all_node, Bool.and_eq_true] at h
    rw [met, List.mem_cons] at hu
    rcases hu with rfl | hu
    · exact h.1
    · split at hu
      · exact of_mem_metAll ps h.2 hu
      · cases hu

theorem of_mem_metAll {φ : Info → Bool} {u : Tree} : ∀ ts : List Tree, allOf φ ts = true →
    u ∈ metAll descend ts → φ u.info = true
  | [], _, hu => by
    rw [metAll] at hu
    cases hu
  | t :: rest, h, hu => by
    rw [allOf_cons, Bool.and_eq_true] at h
    rw [metAll, List.mem_append] at hu
    rcases hu with hu | hu
    · exact of_mem_metAll rest h.2 hu
    · exact of_mem_met t h.1 hu
end

theorem scopeHas_eq_false {wanted : String → Bool} {ts : List Tree}
    (h : allOf (fun i => !wanted i.kind) ts = true) : scopeHas wanted ts = false := by
  rw [scopeHas, List.any_eq_false]
  intro t ht
  rw [List.any_eq_true]
  rintro ⟨_, hu, hwanted⟩
  rw [walkScope, walk_eq_metAll, metAll, metAll, List.nil_append] at hu
  have := of_mem_met t (allOf_iff.mp h t ht) hu
  rw [kind] at hwanted
  simp [hwanted] at this

/-! ### Nodes in a scope -/

def Finds (φ : Info → Prop) (ts : List Tree) : Prop :=
  ∃ u ∈ metAll (fun i => !opensScope i.kind) ts, φ u.info

section

variable {φ : Info → Prop} {ts us : List Tree}

@[simp]
theorem not_finds_nil : ¬ Finds φ [] := by
  rintro ⟨_, hu, -⟩
  rw [metAll] at hu
  cases hu

@[simp]
theorem finds_append : Finds φ (ts ++ us) ↔ Finds φ ts ∨ Finds φ us := by
  simp only [Finds, metAll_eq_flatMap, List.reverse_append, List.flatMap_append, List.mem_append]
  grind

@[simp]
theorem finds_node : Finds φ [node i ps] ↔ φ i ∨ opensScope i.kind = false ∧ Finds φ ps := by
  cases hi : opensScope i.kind <;> simp [Finds, metAll, met, info, hi]

@[simp]
theorem finds_plain : Finds φ [plain kind pos ps] ↔ φ ⟨kind, pos, []⟩ ∨ opensScope kind = false ∧ Finds φ ps :=
  finds_node

theorem finds_cons {t : Tree} : Finds φ (t :: ts) ↔ Finds φ [t] ∨ Finds φ ts := by
  rw [← List.singleton_append, finds_append]

theorem finds_map {α : Type} {f : α → Tree} {as : List α} : Finds φ (as.map f) ↔ ∃ a ∈ as, Finds φ [f a] := by
  induction as with
  | nil => simp
  | cons _ _ ih => rw [List.map_cons, finds_cons, ih]; simp

theorem not_finds {ψ : Info → Bool} (h : allOf ψ ts = true) (hψ : ∀ i, ψ i = true → ¬ φ i) : ¬ Finds φ ts := by
  rintro ⟨_, hu, hφ⟩
  exact hψ _ (of_mem_metAll ts h hu) hφ

end

def scopeNames (ts : List Tree) : List String :=
  (metAll (fun i => !opensScope i.kind) ts).flatMap (·.info.assigned)

variable {x : String}

theorem mem_scopeNames {ts : List Tree} : x ∈ scopeNames ts ↔ Finds (x ∈ ·.assigned) ts :=
  List.mem_flatMap

@[simp]
theorem mem_scopeNames_append {ts us : List Tree} :
    x ∈ scopeNames (ts ++ us) ↔ x ∈ scopeNames ts ∨ x ∈ scopeNames us := by
  simp only [mem_scopeNames, finds_append]

theorem mem_scopeNames_node : x ∈ scopeNames [node i ps] ↔
    x ∈ i.assigned ∨ opensScope i.kind = false ∧ x ∈ scopeNames ps := by
  simp only [mem_scopeNames, finds_node]

theorem mem_scopeNames_plain
    (h : opensScope kind = false) : x ∈ scopeNames [plain kind pos ps] ↔ x ∈ scopeNames ps := by
  simp [mem_scopeNames, h]

end Tree

theorem mem_insertName {x y : String} : x ∈ insertName y names ↔ x = y ∨ x ∈ names := by
  induction names with
  | nil => simp [insertName]
  | cons _ _ ih =>
    unfold insertName
    split
    · simp
    · split
      next hyz => simp [hyz]
      · simp [ih, or_left_comm]

theorem mem_sortNames {x : String} : x ∈ sortNames names ↔ x ∈ names := by
  induction names with
  | nil => simp [sortNames]
  | cons y rest ih =>
    have hcons : sortNames (y :: rest) = insertName y (sortNames rest) := rfl
    rw [hcons, mem_insertName, ih, List.mem_cons]

theorem nodup_sortNames (names : List String) : (sortNames names).Nodup := by
  have hinsert {n : String} {names : List String} (h : names.Pairwise (· < ·)) :
      (insertName n names).Pairwise (· < ·) := by
    induction names with
    | nil => simp [insertName]
    | cons _ _ ih =>
      rw [insertName]
      rw [List.pairwise_cons] at h
      split_ifs with hlt heq
      · rw [List.pairwise_cons, List.forall_mem_cons]
        exact ⟨⟨hlt, fun y hy => hlt.trans (h.1 y hy)⟩, List.pairwise_cons.mpr h⟩
      · exact List.pairwise_cons.mpr h
      · refine List.pairwise_cons.mpr ⟨fun y hy => ?_, ih h.2⟩
        rcases mem_insertName.mp hy with rfl | hy
        · exact lt_of_le_of_ne (not_lt.mp hlt) (Ne.symm heq)
        · exact h.1 y hy
  have hpairwise : (sortNames names).Pairwise (· < ·) := by
    induction names with
    | nil => exact .nil
    | cons _ _ ih => exact hinsert ih
  exact hpairwise.imp ne_of_lt

theorem mem_localNames {x : String} {body : List Stmt} :
    x ∈ localNames body ↔ x ∈ Tree.scopeNames (stmtTrees body) := by
  rw [localNames, mem_sortNames]
  generalize stmtTrees body = ts
  induction ts with
  | nil => simp [Tree.scopeNames, Tree.metAll]
  | cons t rest ih =>
    have hcons : t :: rest = [t] ++ rest := rfl
    rw [List.flatMap_cons, List.mem_append, ih, hcons, Tree.mem_scopeNames_append, Tree.walkScope, Tree.walk_eq_metAll]
    rfl

end Transpiler.Source
