import Mathlib.Data.List.Basic
import Transpiler.Proofs.Script.Nodes

/-!
# The order of a block

A block is written with the comments at its start, its imports and its movable declarations in front,
each kind in the order of the source (`arranged_hoisted`). The places of its statements are numbered, so
that it can be said of two statements which is written first (`writtenOrder`).

A declaration that gives values must not pass a statement that came before it. It does not if the
declarations that move and give values come first in their block (`Js.Settled`).
-/

namespace Transpiler.Script

/-! ### The form of an arrangement -/

/-- Statements in the order in which they are written: comments, imports, movable declarations and the
rest. -/
structure Arranged (before after : List Js) : Prop where
  perm : after.Perm before
  split : ∃ comments rest, after = comments ++ before.filter (·.slot == .importing) ++
      before.filter (·.slot == .variable) ++ rest ∧
    comments ++ rest = before.filter (fun j => j.slot != .importing && j.slot != .variable) ∧
    (∀ j ∈ comments, j.slot = .comment) ∧ ∀ j ∈ rest.head?, j.slot ≠ .comment

section

variable {α : Type} (xs : List (Slot × α))

def stayers : List (Slot × α) :=
  xs.filter fun x => x.1 != .importing && x.1 != .variable

theorem arrange_eq : arrange xs = ((stayers xs).takeWhile (·.1 == .comment) ++ xs.filter (·.1 == .importing) ++
    xs.filter (·.1 == .variable) ++ (stayers xs).dropWhile (·.1 == .comment)).map (·.2) :=
  rfl

theorem arrange_map {β : Type} (g : α → β) : arrange (xs.map (Prod.map id g)) = (arrange xs).map g := by
  simp [arrange, List.filter_map, List.takeWhile_map, List.dropWhile_map, Function.comp_def]

open scoped List in
theorem movers_perm : xs.filter (·.1 == .importing) ++ xs.filter (·.1 == .variable) ~
    xs.filter fun x => !(x.1 != .importing && x.1 != .variable) := by
  induction xs with
  | nil => exact .refl _
  | cons x _ ih =>
    obtain ⟨slot, _⟩ := x
    simp only [Bool.not_and] at ih ⊢
    by_cases hslot : slot = .variable
    · subst hslot
      simpa using List.perm_middle.trans (ih.cons _)
    · cases slot <;> simp_all

open scoped List in
theorem arrange_perm : arrange xs ~ xs.map (·.2) := by
  rw [arrange_eq]
  refine List.Perm.map _ ?_
  generalize hcomments : (stayers xs).takeWhile (·.1 == .comment) = comments
  generalize hrest : (stayers xs).dropWhile (·.1 == .comment) = rest
  calc
    _ = comments ++ (xs.filter (·.1 == .importing) ++ xs.filter (·.1 == .variable) ++ rest) := by
      simp only [List.append_assoc]
    _ ~ comments ++ (rest ++ (xs.filter (·.1 == .importing) ++ xs.filter (·.1 == .variable))) :=
      List.perm_append_comm.append_left _
    _ = stayers xs ++ (xs.filter (·.1 == .importing) ++ xs.filter (·.1 == .variable)) := by
      rw [← List.append_assoc, ← hcomments, ← hrest, List.takeWhile_append_dropWhile]
    _ ~ stayers xs ++ xs.filter fun x => !(x.1 != .importing && x.1 != .variable) :=
      (movers_perm xs).append_left _
    _ ~ xs := List.filter_append_perm _ xs

theorem filter_other_sublist : (xs.filter (·.1 == .other)).Sublist ((stayers xs).dropWhile (·.1 == .comment)) := by
  have hcomments : ((stayers xs).takeWhile (·.1 == .comment)).filter (·.1 == .other) = [] := by
    rw [List.filter_eq_nil_iff]
    intro x hx
    have hcomment := List.all_eq_true.mp List.all_takeWhile x hx
    simp_all
  have hstay : (stayers xs).filter (·.1 == .other) = xs.filter (·.1 == .other) := by
    rw [stayers, List.filter_filter]
    congr 1
    funext x
    cases x.1 <;> rfl
  rw [← hstay]
  conv_lhs => rw [← List.takeWhile_append_dropWhile (p := (·.1 == .comment)) (l := stayers xs)]
  rw [List.filter_append, hcomments, List.nil_append]
  exact List.filter_sublist

theorem sublist_arrange {xs : List (Slot × α)} {a b : Slot × α} (h : [a, b].Sublist xs)
    (hslots : a.1 = .variable ∧ b.1 = .variable ∨ (a.1 = .variable ∨ a.1 = .other) ∧ b.1 = .other) :
    [a.2, b.2].Sublist (arrange xs) := by
  rw [arrange_eq]
  show ([a, b].map (·.2)).Sublist _
  refine List.Sublist.map _ ?_
  rcases hslots with ⟨ha, hb⟩ | ⟨ha | ha, hb⟩
  · have hvariables := h.filter (·.1 == .variable)
    simp only [List.filter_cons, ha, hb, beq_self_eq_true, if_true, List.filter_nil] at hvariables
    exact (hvariables.trans (List.sublist_append_right _ _)).trans (List.sublist_append_left _ _)
  · -- the first is among the declarations, and the second in the rest
    have hfirst := h.filter (·.1 == .variable)
    have hsecond := (h.filter (·.1 == .other)).trans (filter_other_sublist xs)
    simp only [List.filter_cons, ha, hb, beq_self_eq_true, if_true, List.filter_nil] at hfirst hsecond
    exact (hfirst.trans (List.sublist_append_right _ _)).append hsecond
  · have hothers := (h.filter (·.1 == .other)).trans (filter_other_sublist xs)
    simp only [List.filter_cons, ha, hb, beq_self_eq_true, if_true, List.filter_nil] at hothers
    exact hothers.trans (List.sublist_append_right _ _)

end

theorem arranged_hoisted (items : List Js) : Arranged (flattenOnce items) (hoisted items) := by
  generalize hxs : (flattenOnce items).map (fun s => (s.slot, s)) = xs
  have hfilter (p : Slot → Bool) : (xs.filter fun x => p x.1).map (·.2) =
      (flattenOnce items).filter fun j => p j.slot := by
    simp [← hxs, List.filter_map, Function.comp_def]
  have hslot : ∀ x ∈ xs, x.2.slot = x.1 := by simp +contextual [← hxs]
  refine ⟨?_, ((stayers xs).takeWhile (·.1 == .comment)).map (·.2),
    ((stayers xs).dropWhile (·.1 == .comment)).map (·.2), ?_, ?_, ?_, ?_⟩
  · simpa [hoisted, ← hxs, Function.comp_def] using arrange_perm xs
  · rw [← hfilter (· == .importing), ← hfilter (· == .variable)]
    simp [hoisted, hxs, arrange_eq]
  · rw [← List.map_append, List.takeWhile_append_dropWhile, stayers, hfilter fun s => s != .importing && s != .variable]
  · intro _ hj
    obtain ⟨x, hx, rfl⟩ := List.mem_map.mp hj
    have hmem := List.mem_of_mem_filter ((List.takeWhile_sublist _).subset hx)
    rw [hslot x hmem]
    simpa using List.all_eq_true.mp List.all_takeWhile x hx
  · intro _ hj
    rw [List.head?_map] at hj
    obtain ⟨x, hx, rfl⟩ := Option.map_eq_some_iff.mp hj
    have hmem := List.mem_of_mem_filter ((List.dropWhile_sublist _).subset (List.mem_of_mem_head? hx))
    rw [hslot x hmem]
    have hhead := List.head?_dropWhile_not (·.1 == .comment) (stayers xs)
    rw [Option.mem_def.mp hx] at hhead
    simpa using hhead

/-! ### Which statement is written first -/

def writtenOrder (items : List Js) : List Nat :=
  arrange ((flattenOnce items).zipIdx.map fun p => (p.1.slot, p.2))

theorem hoisted_eq_writtenOrder (items : List Js) :
    hoisted items = (writtenOrder items).filterMap ((flattenOnce items)[·]?) := by
  generalize hplaced : (flattenOnce items).zipIdx.map (fun p => (p.1.slot, p)) = placed
  have hzip : (flattenOnce items).map (fun s => (s.slot, s)) = placed.map (Prod.map id Prod.fst) := by
    rw [← hplaced, List.map_map]
    conv_lhs => rw [← List.zipIdx_map_fst 0 (flattenOnce items), List.map_map]
    rfl
  have horder : (flattenOnce items).zipIdx.map (fun p => (p.1.slot, p.2)) = placed.map (Prod.map id Prod.snd) := by
    simp [← hplaced, Function.comp_def]
  have hget : ∀ p ∈ arrange placed, (flattenOnce items)[p.2]? = some p.1 := by
    intro _ hp
    have hmem := (arrange_perm _).subset hp
    simpa [← hplaced, List.mem_zipIdx_iff_getElem?] using hmem
  rw [hoisted, writtenOrder, hzip, horder, arrange_map, arrange_map, List.filterMap_map]
  exact (List.filterMap_eq_map_iff_forall_eq_some.mpr hget).symm

theorem writtenOrder_perm (items : List Js) : (writtenOrder items).Perm (List.range (flattenOnce items).length) := by
  have hplaces := arrange_perm ((flattenOnce items).zipIdx.map fun p => (p.1.slot, p.2))
  rw [List.map_map] at hplaces
  simpa [writtenOrder, Function.comp_def, List.range_eq_range'] using hplaces

theorem sublist_writtenOrder {items : List Js} {i j : Nat} {x y : Js} (hij : i < j)
    (hx : (flattenOnce items)[i]? = some x) (hy : (flattenOnce items)[j]? = some y)
    (hslots : x.slot = .variable ∧ y.slot = .variable ∨ (x.slot = .variable ∨ x.slot = .other) ∧ y.slot = .other) :
    [i, j].Sublist (writtenOrder items) := by
  have hpair : [(x, i), (y, j)].Sublist (flattenOnce items).zipIdx := by
    rw [← List.take_append_drop j (flattenOnce items).zipIdx]
    show ([(x, i)] ++ [(y, j)]).Sublist _
    refine List.Sublist.append (List.singleton_sublist.mpr ?_) (List.singleton_sublist.mpr ?_)
    · exact List.mem_of_getElem? (i := i) (by simp [hij, hx])
    · exact List.mem_of_getElem? (i := 0) (by simp [hy])
  exact sublist_arrange (hpair.map fun p => (p.1.slot, p.2)) hslots

/-! ### Declarations with values -/

def Js.initialises : Js → Bool
  | .declare _ .var _ _ values => values.any (!·.isAbsent)
  | _ => false

def Js.movesValue (j : Js) : Bool :=
  j.slot == .variable && j.initialises

def ValuesFirst (items : List Js) : Prop :=
  ∃ front rest, flattenOnce items = front ++ rest ∧ (∀ j ∈ front, j.movesValue = true) ∧
    ∀ j ∈ rest, j.movesValue = false

theorem Js.slot_of_movesValue {j : Js} (h : j.movesValue = true) : j.slot = .variable :=
  beq_iff_eq.mp (Bool.and_eq_true_iff.mp h).1

theorem Js.slot_of_initialises {j : Js} (h : j.initialises = true) (hmoves : j.movesValue = false) :
    j.slot = .other := by
  unfold initialises at h
  split at h
  next movable keys values =>
    cases movable with
    | true => simp [movesValue, slot, initialises, h] at hmoves
    | false => rfl
  · cases h

theorem ValuesFirst.sublist {items : List Js} (h : ValuesFirst items) {i j : Nat} {x y : Js} (hij : i < j)
    (hx : (flattenOnce items)[i]? = some x) (hy : (flattenOnce items)[j]? = some y)
    (hvalues : y.initialises = true) (himport : x.slot ≠ .importing) (hcomment : x.slot ≠ .comment) :
    [i, j].Sublist (writtenOrder items) := by
  refine sublist_writtenOrder hij hx hy ?_
  obtain ⟨front, _, hitems, hfront, hrest⟩ := h
  cases hmoves : y.movesValue with
  | true =>
    -- what moves with a value has only its like before it
    have hj : j < front.length := by
      by_contra hj
      rw [hitems, List.getElem?_append_right (by omega)] at hy
      have hstays := hrest y (List.mem_of_getElem? hy)
      simp [hmoves] at hstays
    rw [hitems, List.getElem?_append_left (by omega)] at hx
    have hfirst := hfront x (List.mem_of_getElem? hx)
    exact .inl ⟨Js.slot_of_movesValue hfirst, Js.slot_of_movesValue hmoves⟩
  | false =>
    refine .inr ⟨?_, Js.slot_of_initialises hvalues hmoves⟩
    cases hslot : x.slot <;> simp_all

def Js.isStill : Js → Bool
  | .statements _ items => items.all (!·.movesValue)
  | j => !j.movesValue

def Js.Settled : Js → Prop
  | .statements _ items => ValuesFirst items
  | _ => True

section

variable {j : Js} (o : Origin)

@[simp]
theorem Js.movesValue_declare (d : Declarer) (movable : Bool) (keys : List String) (values : List Js) :
    (Js.declare o d movable keys values).movesValue = (d == .var && movable && values.any (!·.isAbsent)) := by
  cases d <;> cases movable <;> rfl

@[simp]
theorem Js.movesValue_of_ne (h : ∀ o d movable keys values, j ≠ .declare o d movable keys values) :
    j.movesValue = false := by
  unfold movesValue initialises
  split
  next o movable keys values => exact (h o .var movable keys values rfl).elim
  · simp

@[simp]
theorem Js.isStill_statements (items : List Js) : (Js.statements o items).isStill = items.all (!·.movesValue) :=
  rfl

@[simp]
theorem Js.isStill_of_ne (h : ∀ o items, j ≠ .statements o items) : j.isStill = !j.movesValue := by
  unfold isStill
  split
  next o items => exact (h o items rfl).elim
  · rfl

@[simp]
theorem Js.isStill_absent : Js.absent.isStill = true :=
  rfl

@[simp]
theorem Js.movesValue_of_isStill (h : j.isStill = true) : j.movesValue = false := by
  unfold isStill at h
  split at h
  · simp
  · simpa using h

@[simp]
theorem Js.isAbsent_absent : Js.absent.isAbsent = true :=
  rfl

@[simp]
theorem Js.isAbsent_text (s : String) : (Js.text s).isAbsent = false :=
  rfl

@[simp]
theorem Js.settled_statements (items : List Js) : (Js.statements o items).Settled ↔ ValuesFirst items :=
  Iff.rfl

@[simp]
theorem Js.settled_of_ne (h : ∀ o items, j ≠ .statements o items) : j.Settled := by
  unfold Settled
  split
  next o items => exact (h o items rfl).elim
  · trivial

end

def AllSettled (ts : List Js) : Prop :=
  ∀ t ∈ ts, t.Settled

section

variable {ts us items : List Js}

@[simp]
theorem allSettled_nil : AllSettled [] := by
  simp [AllSettled]

@[simp]
theorem allSettled_cons {t : Js} : AllSettled (t :: ts) ↔ t.Settled ∧ AllSettled ts :=
  List.forall_mem_cons

@[simp]
theorem allSettled_append : AllSettled (ts ++ us) ↔ AllSettled ts ∧ AllSettled us :=
  List.forall_mem_append

@[simp]
theorem allSettled_nodesAll : AllSettled (nodesAll items) ↔ ∀ j ∈ items, AllSettled j.nodes := by
  induction items with
  | nil => simp
  | cons _ _ ih => simp [ih]

theorem movesValue_of_isStill (h : ∀ j ∈ items, j.isStill = true) : ∀ j ∈ flattenOnce items, j.movesValue = false := by
  intro j hj
  obtain ⟨k, hk, hj⟩ := List.mem_flatMap.mp hj
  have hstill := h k hk
  unfold Js.isStill at hstill
  split at hstill
  · simpa using List.all_eq_true.mp hstill j hj
  next hne =>
    obtain rfl : j = k := by
      split at hj
      next o inner => exact (hne o inner rfl).elim
      · exact List.mem_singleton.mp hj
    simpa using hstill

@[simp]
theorem valuesFirst_of_isStill (h : ∀ j ∈ items, j.isStill = true) : ValuesFirst items :=
  ⟨[], flattenOnce items, rfl, by simp, movesValue_of_isStill h⟩

theorem valuesFirst_cons {first : Js} (hfirst : first.movesValue = true)
    (h : ∀ j ∈ items, j.isStill = true) : ValuesFirst (first :: items) := by
  refine ⟨[first], flattenOnce items, ?_, by simpa using hfirst, movesValue_of_isStill h⟩
  cases first <;> first | rfl | simp at hfirst

end

end Transpiler.Script
