import Transpiler.Proofs.Source.Walk

/-!
# What a walk of a scope reaches

The walk of a scope meets each node once that is reached without going below a function or class, and meets them in
the order of a traversal from right to left, a node before what is below it (`walkScope_reached`). Nodes are told
apart by their paths, since two nodes of a tree may look the same.
-/

namespace Transpiler.Source.Tree

/-- The node at a path: the position of a part, then the rest of the path below it. No path leads below a node that
opens a scope. -/
def reach? : Tree → List Nat → Option Tree
  | t, [] => some t
  | t, i :: path => if opensScope t.kind then none else t.parts[i]?.bind (·.reach? path)

/-- The node at a path into one of several trees. -/
def reachIn? (ts : List Tree) : List Nat → Option Tree
  | [] => none
  | i :: path => ts[i]?.bind (·.reach? path)

/-- The order of nodes from right to left: a node stands before those below it, and what is below one part stands
before what is below an earlier one. -/
def Precedes : List Nat → List Nat → Prop
  | [], path => path ≠ []
  | _ :: _, [] => False
  | i :: path, j :: path' => j < i ∨ i = j ∧ Precedes path path'

/-- The paths of the nodes that a search finds, in the order in which it finds them. -/
def Lists (find : List Nat → Option Tree) (met : List Tree) : Prop :=
  ∃ paths : List (List Nat), paths.Pairwise Precedes ∧ (∀ path, path ∈ paths ↔ (find path).isSome = true) ∧
    paths.map find = met.map some

variable {i : Info} {ps rest : List Tree} {t : Tree} {path : List Nat} {met : List Tree}

theorem reach?_node (h : opensScope i.kind = false) (hpath : path ≠ []) :
    (node i ps).reach? path = reachIn? ps path := by
  cases path with
  | nil => exact absurd rfl hpath
  | cons => simp [reach?, reachIn?, kind, info, parts, h]

theorem Lists.node (h : Lists (reachIn? ps) met) (hi : opensScope i.kind = false) :
    Lists (node i ps).reach? (.node i ps :: met) := by
  obtain ⟨paths, hpairs, hmem, hmap⟩ := h
  have hne : ∀ path ∈ paths, path ≠ [] := by
    rintro _ hpath rfl
    exact absurd ((hmem []).mp hpath) (by simp [reachIn?])
  refine ⟨[] :: paths, List.pairwise_cons.mpr ⟨hne, hpairs⟩, fun path => ?_, ?_⟩
  · by_cases hpath : path = []
    · simp [hpath, reach?]
    · simp [hpath, hmem, reach?_node hi hpath]
  · rw [List.map_cons, List.map_cons, ← hmap]
    exact congrArg _ (List.map_congr_left fun path hpath => reach?_node hi (hne path hpath))

theorem reachIn?_later (t : Tree) (path : List Nat) : reachIn? (t :: rest) (path.modifyHead (· + 1)) = reachIn? rest path := by
  cases path <;> simp [reachIn?]

theorem Precedes.later {path' : List Nat} (h : Precedes path path') :
    Precedes (path.modifyHead (· + 1)) (path'.modifyHead (· + 1)) := by
  cases path <;> cases path' <;> simp_all [Precedes]

/-- The nodes of later trees come first. -/
theorem Lists.cons {met' : List Tree} (h : Lists (reachIn? rest) met) (h' : Lists t.reach? met') :
    Lists (reachIn? (t :: rest)) (met ++ met') := by
  obtain ⟨paths, hpairs, hmem, hmap⟩ := h
  obtain ⟨paths', hpairs', hmem', hmap'⟩ := h'
  refine ⟨paths.map (·.modifyHead (· + 1)) ++ paths'.map (0 :: ·), ?_, ?_, ?_⟩
  · rw [List.pairwise_append, List.pairwise_map, List.pairwise_map]
    refine ⟨hpairs.imp Precedes.later, hpairs'.imp fun h => .inr ⟨rfl, h⟩, ?_⟩
    simp only [List.forall_mem_map]
    intro path hpath _ _
    cases path with
    | nil => exact absurd ((hmem []).mp hpath) (by simp [reachIn?])
    | cons j => exact .inl (Nat.succ_pos j)
  · intro path
    have hlater : path ∈ paths.map (·.modifyHead (· + 1)) ↔ ∃ j path', path = (j + 1) :: path' ∧ j :: path' ∈ paths := by
      rw [List.mem_map]
      constructor
      · rintro ⟨_ | ⟨j, path'⟩, hpath, rfl⟩
        · exact absurd ((hmem []).mp hpath) (by simp [reachIn?])
        · exact ⟨j, path', rfl, hpath⟩
      · rintro ⟨_, _, rfl, hpath⟩
        exact ⟨_, hpath, rfl⟩
    rw [List.mem_append, hlater]
    rcases path with _ | ⟨_ | _, _⟩
    · simp [reachIn?]
    · simp [hmem', reachIn?]
    · simp [and_assoc, hmem, reachIn?]
  · have hfirst (path : List Nat) : reachIn? (t :: rest) (0 :: path) = t.reach? path := rfl
    simp [← hmap, ← hmap', Function.comp_def, reachIn?_later, hfirst]

mutual
theorem lists_met : ∀ t : Tree, Lists t.reach? (t.met fun i => !opensScope i.kind)
  | node i ps => by
    rw [met]
    cases hi : opensScope i.kind with
    | false => simpa [hi] using (lists_metAll ps).node hi
    | true =>
      refine ⟨[[]], by simp, ?_, by simp [reach?]⟩
      intro path
      cases path <;> simp [reach?, kind, info, hi]

theorem lists_metAll : ∀ ts : List Tree, Lists (reachIn? ts) (metAll (fun i => !opensScope i.kind) ts)
  | [] => ⟨[], .nil, by intro path; cases path <;> simp [reachIn?], by simp [metAll]⟩
  | t :: rest => by
    rw [metAll]
    exact (lists_metAll rest).cons (lists_met t)
end

/-- **The walk of a scope is a traversal from right to left.** It meets the nodes that can be reached without going
below a function or class, each once and each before those below it and before those below earlier parts; and it
ends, since more steps find nothing more. -/
theorem walkScope_reached (ts : List Tree) : Lists (reachIn? ts) (walkScope ts) ∧
    ∀ more, walkFrom (fun i => !opensScope i.kind) (sizeAll ts + more) ts.reverse = walkScope ts := by
  rw [walkScope, walk_eq_metAll]
  refine ⟨lists_metAll ts, fun more => ?_⟩
  rw [walkFrom_eq_flatMap (by simp [sizeAll_reverse]), metAll_eq_flatMap]

end Transpiler.Source.Tree
