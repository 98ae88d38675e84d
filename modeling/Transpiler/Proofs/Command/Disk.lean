import Mathlib.Data.List.Nodup
import Mathlib.Data.List.TakeWhile
import Transpiler.Command.Disk
import Transpiler.Proofs.Source.Walk
import Transpiler.Proofs.Text.Lines

/-!
# Directories on a disk

The visible directories under a directory, as rows of names (`FileTree.dirRows`), and what changes of a disk
do to them. No change removes a directory (`Disk.Extends`), and writing a file adds none.
-/

namespace Transpiler

variable {n path : String} {es : List (String × FileTree)} {t u new t' : FileTree} {x row : List String}

/-! ### Names -/

namespace Path

def isEntry (n : String) : Bool :=
  n != "" && n != "." && n != ".." && !n.toList.contains '/'

theorem notMem_of_isEntry (h : isEntry n = true) : '/' ∉ n.toList := by
  simp only [isEntry, Bool.and_eq_true, Bool.not_eq_true', List.contains_eq_mem, decide_eq_false_iff_not] at h
  exact h.2

theorem head?_of_isEntry (h : isEntry n = true) : n.toList.head? ≠ some '/' :=
  fun hhead => notMem_of_isEntry h (List.mem_of_head? hhead)

abbrev Entries (row : List String) : Prop :=
  ∀ n ∈ row, isEntry n = true

theorem entries_append {row' : List String} : Entries (row ++ row') ↔ Entries row ∧ Entries row' :=
  List.forall_mem_append

theorem entries_concat : Entries (row ++ [n]) ↔ Entries row ∧ isEntry n = true :=
  entries_append.trans (and_congr_right' List.forall_mem_singleton)

theorem components_empty : components "" = [] := by
  decide

theorem components_append (a b : String) : components (a ++ "/" ++ b) = components a ++ components b := by
  have hchars : (a ++ "/" ++ b).toList = a.toList ++ '/' :: b.toList := by simp
  simp only [components, Text.splitOn, hchars, Text.splitChars_eq_splitOn, List.splitOn_append_cons_self,
    List.map_append, List.filter_append]

theorem components_of_isEntry (h : isEntry n = true) : components n = [n] := by
  have hslash := notMem_of_isEntry h
  simp only [isEntry, Bool.and_eq_true, bne_iff_ne] at h
  simp [components, Text.splitOn, Text.splitChars_eq_splitOn, List.splitOn_eq_singleton hslash, h.1.1.1, h.1.1.2]

theorem isEntry_of_mem_components (h : n ∈ components path) (hup : n ≠ "..") : isEntry n = true := by
  simp only [components, Text.splitOn, List.mem_filter, List.mem_map, Bool.and_eq_true, bne_iff_ne] at h
  obtain ⟨⟨_, hpiece, rfl⟩, hne, hdot⟩ := h
  simp [isEntry, hne, hdot, hup, Text.notMem_of_mem_splitChars hpiece]

theorem rootSlashes_eq_zero_iff (path : String) : rootSlashes path = 0 ↔ path.toList.head? ≠ some '/' := by
  rw [Ne, List.head?_eq_some_iff]
  unfold rootSlashes
  split <;> simp_all

section

variable (dir : String) (h : isEntry n = true)

include h

theorem within_cases : (within dir n = n ∧ components dir = [] ∧ rootSlashes dir = 0) ∨
    ∃ stem, within dir n = stem ++ "/" ++ n ∧ components dir = components stem ∧
      (rootSlashes dir = 0 ↔ rootSlashes (stem ++ "/" ++ n) = 0) := by
  have hn := head?_of_isEntry h
  have hne : n ≠ "." := by rintro rfl; simp [isEntry] at h
  by_cases hdot : dir = "."
  · subst hdot
    exact .inl ⟨rfl, by decide, by decide⟩
  by_cases hempty : dir = ""
  · subst hempty
    exact .inl ⟨by simp [within, hne, join, hn], by decide, by decide⟩
  right
  by_cases hlast : dir.toList.getLast? = some '/'
  · -- the slash at the end of the directory is the one before the entry
    have hdir : dir = String.ofList dir.toList.dropLast ++ "/" := by
      rw [← String.toList_inj]
      simp [List.dropLast_append_getLast? _ hlast]
    refine ⟨String.ofList dir.toList.dropLast, ?_, ?_, ?_⟩
    · rw [← hdir]
      simp [within, hdot, hne, join, hn, hlast]
    · conv_lhs =>
        rw [hdir, ← String.append_empty (s := _ ++ "/"), components_append, components_empty, List.append_nil]
    · rw [← hdir, rootSlashes_eq_zero_iff, rootSlashes_eq_zero_iff, String.toList_append,
        List.head?_append_of_ne_nil _ (by simpa using hempty)]
  · refine ⟨dir, by simp [within, hdot, hne, join, hn, hlast, hempty], rfl, ?_⟩
    rw [rootSlashes_eq_zero_iff, rootSlashes_eq_zero_iff, String.toList_append, String.toList_append,
      List.append_assoc, List.head?_append_of_ne_nil _ (by simpa using hempty)]

theorem components_within : components (within dir n) = components dir ++ [n] := by
  rcases within_cases dir h with ⟨heq, hnil, -⟩ | ⟨_, heq, hstem, -⟩
  · rw [heq, hnil, components_of_isEntry h, List.nil_append]
  · rw [heq, components_append, hstem, components_of_isEntry h]

theorem rootSlashes_within : rootSlashes (within dir n) = 0 ↔ rootSlashes dir = 0 := by
  rcases within_cases dir h with ⟨heq, -, hroot⟩ | ⟨_, heq, -, hroot⟩
  · simp [heq, hroot, rootSlashes_eq_zero_iff, head?_of_isEntry h]
  · rw [heq, hroot]

theorem basename_within : basename (within dir n) = n := by
  have hall : ∀ c ∈ n.toList.reverse, (c != '/') = true := fun c hc => by
    simpa using fun heq : c = '/' => notMem_of_isEntry h (heq ▸ List.mem_reverse.mp hc)
  rcases within_cases dir h with ⟨heq, -⟩ | ⟨stem, heq, -⟩
  · rw [heq, basename, splitLast, List.takeWhile_eq_self_iff.mpr hall]
    simp
  · have hchars : (stem ++ "/" ++ n).toList.reverse = n.toList.reverse ++ '/' :: stem.toList.reverse := by simp
    rw [heq, basename, splitLast, hchars, List.takeWhile_append_of_pos hall]
    simp

end

end Path

namespace Command

open Transpiler.Path (Entries isEntry)

/-! ### Trees -/

def isVisible (n : String) : Bool :=
  n != "__pycache__" && n != "__init__.py"

namespace FileTree

mutual
def wellFormed : FileTree → Bool
  | file _ => true
  | dir es => decide (es.map (·.1)).Nodup && wellFormedOf es

def wellFormedOf : List (String × FileTree) → Bool
  | [] => true
  | (n, t) :: rest => isEntry n && t.wellFormed && wellFormedOf rest
end

mutual
def dirRows : FileTree → List (List String)
  | file _ => []
  | dir es => [] :: dirRowsOf es

def dirRowsOf : List (String × FileTree) → List (List String)
  | [] => []
  | (n, t) :: rest => (if isVisible n then t.dirRows.map (n :: ·) else []) ++ dirRowsOf rest
end

theorem wellFormedOf_iff : wellFormedOf es = true ↔ ∀ e ∈ es, isEntry e.1 = true ∧ e.2.wellFormed = true := by
  induction es with
  | nil => simp [wellFormedOf]
  | cons e _ ih =>
    obtain ⟨_, _⟩ := e
    simp [wellFormedOf, ih]

theorem wellFormed_dir_iff : (dir es).wellFormed = true ↔
    (es.map (·.1)).Nodup ∧ ∀ e ∈ es, isEntry e.1 = true ∧ e.2.wellFormed = true := by
  rw [wellFormed, Bool.and_eq_true, decide_eq_true_iff, wellFormedOf_iff]

theorem mem_of_child? (h : t.child? n = some u) : (n, u) ∈ t.entries := by
  obtain ⟨⟨m, _⟩, hfind, rfl⟩ := Option.map_eq_some_iff.mp h
  obtain rfl : m = n := by simpa using List.find?_some hfind
  exact List.mem_of_find?_eq_some hfind

theorem child?_cons (n m : String) (u : FileTree) (es : List (String × FileTree)) :
    (dir ((m, u) :: es)).child? n = if m = n then some u else (dir es).child? n := by
  by_cases h : m = n <;> simp [child?, entries, h]

theorem child?_setEntry (n m : String) (new : FileTree) (es : List (String × FileTree)) :
    (dir (setEntry m new es)).child? n = if m = n then some new else (dir es).child? n := by
  induction es with
  | nil => rw [setEntry, child?_cons]
  | cons e =>
    obtain ⟨_, _⟩ := e
    rw [setEntry]
    split
    next hk => rw [child?_cons, child?_cons, hk]; split <;> rfl
    · grind [child?_cons]

theorem find?_append (x y : List String) (t : FileTree) : t.find? (x ++ y) = (t.find? x).bind (find? y) := by
  induction x generalizing t with
  | nil => rfl
  | cons n _ ih =>
    rw [List.cons_append, find?, find?]
    cases t.child? n with
    | none => rfl
    | some u => exact ih u

theorem wellFormed_of_find? (h : t.find? x = some u) (ht : t.wellFormed = true) : u.wellFormed = true := by
  induction x generalizing t with
  | nil => cases h; exact ht
  | cons _ _ ih =>
    obtain ⟨_, hchild, hfind⟩ := Option.bind_eq_some_iff.mp h
    cases t with
    | file => cases hchild
    | dir => exact ih hfind ((wellFormed_dir_iff.mp ht).2 _ (mem_of_child? hchild)).2

theorem map_fst_setEntry (m : String) (new : FileTree) (es : List (String × FileTree)) :
    (setEntry m new es).map (·.1) = if m ∈ es.map (·.1) then es.map (·.1) else es.map (·.1) ++ [m] := by
  induction es with
  | nil => simp [setEntry]
  | cons e _ ih =>
    obtain ⟨k, _⟩ := e
    by_cases hk : k = m
    · simp [setEntry, hk]
    · simp only [setEntry, hk, if_false, List.map_cons, ih, List.mem_cons, Ne.symm hk, false_or]
      split <;> simp

theorem mem_setEntry {m : String} {e : String × FileTree} (h : e ∈ setEntry m new es) : e = (m, new) ∨ e ∈ es := by
  induction es with
  | nil => simpa [setEntry] using h
  | cons f =>
    obtain ⟨_, _⟩ := f
    rw [setEntry] at h
    split at h
    · grind
    · grind

theorem wellFormed_setEntry {m : String} (hm : isEntry m = true) (hnew : new.wellFormed = true)
    (hes : (dir es).wellFormed = true) : (dir (setEntry m new es)).wellFormed = true := by
  rw [wellFormed_dir_iff] at hes ⊢
  refine ⟨?_, fun e he => ?_⟩
  · rw [map_fst_setEntry]
    split
    · exact hes.1
    next hmem => exact hes.1.append (List.nodup_singleton m) (by simpa using hmem)
  · rcases mem_setEntry he with rfl | he
    · exact ⟨hm, hnew⟩
    · exact hes.2 e he

theorem wellFormed_put? (h : put? new row t = some t') (hrow : Entries row)
    (hnew : new.wellFormed = true) (ht : t.wellFormed = true) : t'.wellFormed = true := by
  fun_induction put? new row t generalizing t' with
  | case1 | case2 => cases h
  | case3 name =>
    cases h
    exact wellFormed_setEntry (hrow name (by simp)) hnew ht
  | case4 name _ _ _ ih =>
    obtain ⟨inner, hchild, h⟩ := Option.bind_eq_some_iff.mp h
    obtain ⟨_, hput, h⟩ := Option.bind_eq_some_iff.mp h
    cases h
    have hinner := ((wellFormed_dir_iff.mp ht).2 _ (mem_of_child? hchild)).2
    exact wellFormed_setEntry (hrow name (by simp)) (ih inner hput (fun n hn => hrow n (by simp [hn])) hinner) ht

/-! ### Directories of a tree -/

theorem dirRowsOf_eq_flatMap (es : List (String × FileTree)) : dirRowsOf es =
    es.flatMap fun e => if isVisible e.1 then e.2.dirRows.map (e.1 :: ·) else [] := by
  induction es with
  | nil => rfl
  | cons e _ ih =>
    obtain ⟨_, _⟩ := e
    rw [dirRowsOf, ih, List.flatMap_cons]

theorem exists_cons_of_mem_dirRowsOf (h : row ∈ dirRowsOf es) : ∃ n rest, row = n :: rest ∧ n ∈ es.map (·.1) := by
  rw [dirRowsOf_eq_flatMap, List.mem_flatMap] at h
  obtain ⟨e, he, hrow⟩ := h
  split at hrow
  · obtain ⟨rest, -, rfl⟩ := List.mem_map.mp hrow
    exact ⟨e.1, rest, rfl, List.mem_map_of_mem he⟩
  · cases hrow

mutual
theorem nodup_dirRows : ∀ t : FileTree, t.wellFormed = true → t.dirRows.Nodup
  | file _, _ => by simp [dirRows]
  | dir es, h => by
    rw [wellFormed, Bool.and_eq_true, decide_eq_true_iff] at h
    rw [dirRows, List.nodup_cons]
    refine ⟨fun hmem => ?_, nodup_dirRowsOf es h.1 h.2⟩
    obtain ⟨_, _, hrow, -⟩ := exists_cons_of_mem_dirRowsOf hmem
    cases hrow

theorem nodup_dirRowsOf : ∀ es : List (String × FileTree), (es.map (·.1)).Nodup → wellFormedOf es = true →
    (dirRowsOf es).Nodup
  | [], _, _ => by simp [dirRowsOf]
  | (n, t) :: rest, hnames, h => by
    simp only [wellFormedOf, Bool.and_eq_true] at h
    rw [List.map_cons, List.nodup_cons] at hnames
    rw [dirRowsOf]
    refine List.Nodup.append ?_ (nodup_dirRowsOf rest hnames.2 h.2) fun row hrow hrest => ?_
    · split
      · exact (nodup_dirRows t h.1.2).map (List.cons_injective)
      · simp
    · -- the rows of another entry start with another name
      obtain ⟨_, _, rfl, hm⟩ := exists_cons_of_mem_dirRowsOf hrest
      split at hrow
      · obtain ⟨_, -, heq⟩ := List.mem_map.mp hrow
        exact hnames.1 ((List.cons.inj heq).1 ▸ hm)
      · cases hrow
end

mutual
theorem isEntry_of_mem_dirRows : ∀ t : FileTree, t.wellFormed = true → ∀ row ∈ t.dirRows, Entries row
  | file _, _ => by simp [dirRows]
  | dir es, h => by
    rw [wellFormed, Bool.and_eq_true] at h
    rw [dirRows, List.forall_mem_cons]
    exact ⟨nofun, isEntry_of_mem_dirRowsOf es h.2⟩

theorem isEntry_of_mem_dirRowsOf : ∀ es : List (String × FileTree), wellFormedOf es = true →
    ∀ row ∈ dirRowsOf es, Entries row
  | [], _ => by simp [dirRowsOf]
  | (n, t) :: rest, h => by
    simp only [wellFormedOf, Bool.and_eq_true] at h
    rw [dirRowsOf, List.forall_mem_append]
    refine ⟨?_, isEntry_of_mem_dirRowsOf rest h.2⟩
    split
    · rw [List.forall_mem_map]
      exact fun row hrow => List.forall_mem_cons.mpr ⟨h.1.1, isEntry_of_mem_dirRows t h.1.2 row hrow⟩
    · simp
end

mutual
theorem length_dirRows_le : ∀ t : FileTree, t.dirRows.length ≤ t.dirCount
  | file _ => by simp [dirRows]
  | dir es => by
    rw [dirRows, dirCount, List.length_cons]
    exact Nat.succ_le_succ (length_dirRowsOf_le es)

theorem length_dirRowsOf_le : ∀ es : List (String × FileTree), (dirRowsOf es).length ≤ dirCountOf es
  | [] => by simp [dirRowsOf]
  | (n, t) :: rest => by
    have htree := length_dirRows_le t
    have hrest := length_dirRowsOf_le rest
    rw [dirRowsOf, dirCountOf, List.length_append]
    split <;> simp <;> omega
end

theorem dirCount_le_of_mem {e : String × FileTree} (h : e ∈ es) : e.2.dirCount ≤ dirCountOf es := by
  induction es with
  | nil => cases h
  | cons f _ ih =>
    obtain ⟨_, _⟩ := f
    rw [dirCountOf]
    rcases List.mem_cons.mp h with rfl | h
    · simp
    · exact Nat.le_add_left_of_le (ih h)

theorem dirCount_le_of_find? (h : t.find? x = some u) : u.dirCount ≤ t.dirCount := by
  induction x generalizing t with
  | nil => cases h; exact Nat.le_refl _
  | cons _ _ ih =>
    obtain ⟨_, hchild, hfind⟩ := Option.bind_eq_some_iff.mp h
    cases t with
    | file => cases hchild
    | dir =>
      have hv := dirCount_le_of_mem (mem_of_child? hchild)
      have hu := ih hfind
      rw [dirCount]
      simp only [entries] at hv
      omega

theorem dirRowsOf_setEntry {name : String}
    (h : isVisible name = true → new.dirRows = (((dir es).child? name).map dirRows).getD []) :
    dirRowsOf (setEntry name new es) = dirRowsOf es := by
  induction es with
  | nil =>
    simp only [setEntry, dirRowsOf, List.append_nil]
    split
    next hvisible => rw [h hvisible]; rfl
    · rfl
  | cons e _ ih =>
    obtain ⟨_, _⟩ := e
    rw [child?_cons] at h
    rw [setEntry]
    split
    next hm =>
      subst hm
      rw [dirRowsOf, dirRowsOf]
      split
      next hvisible => rw [h hvisible]; simp
      · rfl
    next hm =>
      rw [if_neg hm] at h
      rw [dirRowsOf, dirRowsOf, ih h]

theorem dirRows_put? (hput : put? new row t = some t') (hnone : ((t.find? row).map dirRows).getD [] = [])
    (hnew : new.dirRows = [] ∨ row.all isVisible = false) : t'.dirRows = t.dirRows := by
  fun_induction put? new row t generalizing t' with
  | case1 | case2 => cases hput
  | case3 =>
    cases hput
    rw [dirRows, dirRows, dirRowsOf_setEntry fun hvisible => ?_]
    rw [hnew.resolve_right (by simp [hvisible])]
    simpa [find?] using hnone.symm
  | case4 _ _ _ _ ih =>
    obtain ⟨inner, hchild, hput⟩ := Option.bind_eq_some_iff.mp hput
    obtain ⟨_, hinner, hput⟩ := Option.bind_eq_some_iff.mp hput
    cases hput
    rw [dirRows, dirRows, dirRowsOf_setEntry fun hvisible => ?_]
    rw [ih inner hinner (by simpa [find?, hchild] using hnone) (by simpa [hvisible] using hnew), hchild]
    rfl

theorem isDir_of_find? (h : t.find? x = some u) (hu : u.isDir = true) : t.isDir = true := by
  cases x with
  | nil => cases h; exact hu
  | cons =>
    obtain ⟨_, hc, -⟩ := Option.bind_eq_some_iff.mp h
    cases t with
    | file => cases hc
    | dir => rfl

theorem isDir_of_put? (h : put? new row t = some t') : t'.isDir = true := by
  fun_induction put? new row t with
  | case1 | case2 => cases h
  | case3 =>
    cases h
    rfl
  | case4 =>
    obtain ⟨_, -, h⟩ := Option.bind_eq_some_iff.mp h
    obtain ⟨_, -, h⟩ := Option.bind_eq_some_iff.mp h
    cases h
    rfl

/-- What is put where no directory stands leaves every directory in its place. It changes what is in one only
if it is a directory and can be seen from there. -/
theorem exists_find?_put? (hput : put? new row t = some t')
    (hnone : ∀ v, t.find? row = some v → v.isDir = false) (hu : t.find? x = some u) (hdir : u.isDir = true) :
    ∃ u', t'.find? x = some u' ∧ u'.isDir = true ∧
      ((new.dirRows = [] ∨ ∀ z, row = x ++ z → z.all isVisible = false) → u'.dirRows = u.dirRows) := by
  induction x generalizing row t t' with
  | nil =>
    cases hu
    have hrows : ((u.find? row).map dirRows).getD [] = [] := by
      cases hfind : u.find? row with
      | none => rfl
      | some v =>
        cases v with
        | file => simp [dirRows]
        | dir => cases hnone _ hfind
    exact ⟨t', rfl, isDir_of_put? hput, fun hnew => dirRows_put? hput hrows (hnew.imp_right fun h => h row rfl)⟩
  | cons n x ih =>
    obtain ⟨c, hc, hfind⟩ := Option.bind_eq_some_iff.mp hu
    have hcdir := isDir_of_find? hfind hdir
    -- another entry is set, or the one that leads on to the directory
    have hother {m : String} {inner : FileTree} {es : List (String × FileTree)} (hes : t = dir es) (hm : m ≠ n) :
        (dir (setEntry m inner es)).find? (n :: x) = some u := by
      rw [find?, child?_setEntry, if_neg hm, ← hes]
      exact hu
    fun_induction put? new row t with
    | case1 | case2 => cases hput
    | case3 m =>
      cases hput
      have hm : m ≠ n := by
        rintro rfl
        cases (hnone c (by simp [find?, hc])).symm.trans hcdir
      exact ⟨u, hother rfl hm, hdir, fun _ => rfl⟩
    | case4 m =>
      obtain ⟨inner, hinner, hput⟩ := Option.bind_eq_some_iff.mp hput
      obtain ⟨_, hput', hput⟩ := Option.bind_eq_some_iff.mp hput
      cases hput
      by_cases hm : m = n
      · subst hm
        obtain rfl : c = inner := Option.some.inj (hc.symm.trans hinner)
        obtain ⟨u', hu', hdir', hrows⟩ := ih hput' (fun v hv => hnone v (by simp [find?, hc, hv])) hfind
        refine ⟨u', by simpa [find?, child?_setEntry] using hu', hdir', fun hnew => hrows ?_⟩
        exact hnew.imp_right fun h z hz => h z (by rw [hz, List.cons_append])
      · exact ⟨u, hother rfl hm, hdir, fun _ => rfl⟩

end FileTree

/-! ### Disks -/

namespace Disk

/-- The names on a disk can be those of entries, no two in a directory are the same, and names start from a
directory given without `..`. -/
structure WellFormed (d : Disk) : Prop where
  root : d.root.wellFormed = true
  cwd : ".." ∉ Path.components d.cwd

/-- A later state of a disk. Every directory is still there, and those whose rows satisfy `P` have the same
visible directories in them. -/
structure Extends (P : List String → Prop) (d d' : Disk) : Prop where
  cwd : d'.cwd = d.cwd
  wellFormed : d.WellFormed → d'.WellFormed
  dirs : ∀ x u, d.root.find? x = some u → u.isDir = true →
    ∃ u', d'.root.find? x = some u' ∧ u'.isDir = true ∧ (P x → u'.dirRows = u.dirRows)

variable {P : List String → Prop} {d d' d'' : Disk}

theorem Extends.refl (d : Disk) : d.Extends P d :=
  ⟨rfl, id, fun _ u hu hdir => ⟨u, hu, hdir, fun _ => rfl⟩⟩

theorem Extends.trans (h : d.Extends P d') (h' : d'.Extends P d'') : d.Extends P d'' where
  cwd := h'.cwd.trans h.cwd
  wellFormed := h'.wellFormed ∘ h.wellFormed
  dirs x u hu hdir := by
    obtain ⟨v, hv, hvdir, hrows⟩ := h.dirs x u hu hdir
    obtain ⟨v', hv', hvdir', hrows'⟩ := h'.dirs x v hv hvdir
    exact ⟨v', hv', hvdir', fun hx => (hrows' hx).trans (hrows hx)⟩

theorem Extends.imp {Q : List String → Prop} (h : d.Extends P d') (hPQ : ∀ x, Q x → P x) : d.Extends Q d' where
  cwd := h.cwd
  wellFormed := h.wellFormed
  dirs x u hu hdir := by
    obtain ⟨v, hv, hvdir, hrows⟩ := h.dirs x u hu hdir
    exact ⟨v, hv, hvdir, fun hx => hrows (hPQ x hx)⟩

theorem follow_of_extends (h : d.Extends P d') {back cs : List String}
    (hfollow : follow d.root back cs = some row) : follow d'.root back cs = some row := by
  fun_induction follow d.root back cs with
  | case1 => exact hfollow
  | case2 back _ hdir ih =>
    obtain ⟨u, hu, hudir⟩ : ∃ u, d.root.find? back.reverse = some u ∧ u.isDir = true := by
      cases hu : d.root.find? back.reverse with
      | none => simp [hu] at hdir
      | some u => exact ⟨u, rfl, by simpa [hu] using hdir⟩
    obtain ⟨_, hu', hudir', -⟩ := h.dirs _ u hu hudir
    rw [follow, if_pos rfl, if_pos (by simp [hu', hudir'])]
    exact ih hfollow
  | case3 => cases hfollow
  | case4 _ _ _ hc ih =>
    rw [follow, if_neg hc]
    exact ih hfollow

theorem locate?_of_extends (h : d.Extends P d') (hrow : d.locate? path = some row) : d'.locate? path = some row := by
  rw [locate?, h.cwd]
  exact follow_of_extends h hrow

theorem follow_append (root : FileTree) (back cs : List String) (hn : n ≠ "..") :
    follow root back (cs ++ [n]) = (follow root back cs).map (· ++ [n]) := by
  fun_induction follow root back cs with
  | case1 => simp [follow, hn]
  | case2 _ _ hdir ih => rw [List.cons_append, follow, if_pos rfl, if_pos hdir, ih]
  | case3 _ _ hdir => rw [List.cons_append, follow, if_pos rfl, if_neg hdir]; rfl
  | case4 _ _ _ hc ih => rw [List.cons_append, follow, if_neg hc, ih]

theorem locate?_within (d : Disk) (dir : String) (h : isEntry n = true) :
    d.locate? (Path.within dir n) = (d.locate? dir).map (· ++ [n]) := by
  have hup : n ≠ ".." := by
    rintro rfl
    simp [isEntry] at h
  have hroot : (Path.rootSlashes (Path.within dir n) > 0) ↔ (Path.rootSlashes dir > 0) := by
    have hzero := Path.rootSlashes_within dir h
    omega
  simp only [locate?, Path.components_within dir h, hroot, follow_append _ _ _ hup]

theorem isEntry_of_locate? (h : d.WellFormed) (hrow : d.locate? path = some row) : Entries row := by
  have hfollow (root : FileTree) (back cs : List String) (row : List String)
      (hback : Entries back) (hcs : ∀ n ∈ cs, n ≠ ".." → isEntry n = true)
      (hrow : follow root back cs = some row) : Entries row := by
    fun_induction follow root back cs with
    | case1 => cases hrow; simpa [Entries] using hback
    | case2 _ _ _ ih =>
      exact ih (fun n hn => hback n (List.mem_of_mem_drop hn)) (fun n hn => hcs n (by simp [hn])) hrow
    | case3 => cases hrow
    | case4 _ c _ hc ih =>
      exact ih (List.forall_mem_cons.mpr ⟨hcs c (by simp) hc, hback⟩) (fun n hn => hcs n (by simp [hn])) hrow
  refine hfollow _ _ _ row (fun n hn => ?_) (fun n hn => Path.isEntry_of_mem_components hn) hrow
  rw [List.mem_reverse] at hn
  split at hn
  · cases hn
  · exact Path.isEntry_of_mem_components hn fun heq => h.cwd (heq ▸ hn)

theorem extends_put (h : d.put path t = .ok d') (ht : t.wellFormed = true) (hnone : d.isDir path = false) :
    ∃ row, d.locate? path = some row ∧
      d.Extends (fun x => t.dirRows = [] ∨ ∀ z, row = x ++ z → z.all isVisible = false) d' := by
  unfold put at h
  split at h
  · cases h
  next row hrow =>
    split at h
    next root hput =>
      cases h
      refine ⟨row, hrow, rfl, fun hd => ⟨FileTree.wellFormed_put? hput (isEntry_of_locate? hd hrow) ht hd.root,
        hd.cwd⟩, fun x u hu hdir => FileTree.exists_find?_put? hput (fun v hv => ?_) hu hdir⟩
      simpa [isDir, lookup?, hrow, hv] using hnone
    · split at h <;> cases h

theorem extends_write {text : String} (h : d.write path text = .ok d') : d.Extends (fun _ => True) d' := by
  unfold write at h
  split at h
  · cases h
  next hdir =>
    obtain ⟨_, -, hext⟩ := extends_put h rfl (by simpa using hdir)
    exact hext.imp fun _ _ => .inl rfl

theorem extends_makeDir (h : d.makeDir path = .ok d') (hnone : d.hasAny path = false) :
    ∃ row, d.locate? path = some row ∧ d.Extends (fun x => ∀ z, row = x ++ z → z.all isVisible = false) d' := by
  have hlookup : d.lookup? path = none := by simpa [hasAny] using hnone
  obtain ⟨row, hrow, hext⟩ := extends_put h rfl (by simp [isDir, hlookup])
  exact ⟨row, hrow, hext.imp fun _ hx => .inr hx⟩

end Disk

end Command

end Transpiler
