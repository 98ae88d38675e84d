import Mathlib.Data.List.Perm.Basic
import Mathlib.Data.List.Perm.Subperm
import Transpiler.Command.Run
import Transpiler.Proofs.Command.Disk
import Transpiler.Proofs.Outcome

/-!
# Visits of directories

A turn of the loop over directories takes the first of a queue, makes the directory for its output, compiles
its files and puts the directories in it to the end of the queue. `Visits` says which directories a whole run
takes. Directories are made while it goes on. If they are not put under the source, or where they cannot be
seen, a run takes each directory once that is there when it starts (`visits_compileDirs`).
-/

namespace Transpiler.Command

open Path (within)
open Act
open Transpiler.Path (Entries isEntry)

variable {w w' : World} {o : Options} {es : List (String × FileTree)} {q : List String} {rest : List (List String)}
  {dir : String} {row : List String} {inner : List (String × Option String)}

/-! ### Steps that leave the directories -/

theorem concerning_ok {α : Type} {file : Option String} {step : Act α} {a : α}
    (h : concerning file step w = .ok a w') : step w = .ok a w' := by
  unfold concerning at h
  split at h
  next hstep =>
    cases h
    exact hstep
  · cases h

theorem onDisk_ok {change : Disk → Except Fault Disk} {a : Unit} (h : onDisk change w = .ok a w') :
    change w.disk = .ok w'.disk := by
  obtain ⟨_, _, ⟨⟩, h⟩ := bind_eq_ok_iff.mp h
  cases hchange : change w.disk with
  | error => rw [hchange] at h; cases h
  | ok => rw [hchange] at h; cases h; rfl

def LeavesDirs {ε α : Type} (x : EStateM ε World α) : Prop :=
  ∀ w a w', x w = .ok a w' → w.disk.Extends (fun _ => True) w'.disk

namespace LeavesDirs

variable {ε α β : Type}

theorem of_disk {x : EStateM ε World α} (h : ∀ w a w', x w = .ok a w' → w'.disk = w.disk) : LeavesDirs x := by
  intro w a w' hx
  rw [h w a w' hx]
  exact .refl _

theorem pure (a : α) : LeavesDirs (pure a : EStateM ε World α) := by
  apply of_disk
  rintro _ _ _ ⟨⟩
  rfl

theorem throw (e : ε) : LeavesDirs (throw e : EStateM ε World α) := by
  rintro _ _ _ ⟨⟩

theorem get : LeavesDirs (get : EStateM ε World World) := by
  apply of_disk
  rintro _ _ _ ⟨⟩
  rfl

theorem bind {x : EStateM ε World α} {f : α → EStateM ε World β} (hx : LeavesDirs x)
    (hf : ∀ a, LeavesDirs (f a)) : LeavesDirs (x >>= f) := by
  intro w b w'' h
  obtain ⟨a, w', hxw, hfw⟩ := bind_eq_ok_iff.mp h
  exact (hx w a w' hxw).trans (hf a w' b w'' hfw)

theorem ofExcept (e : Except ε α) : LeavesDirs (ofExcept e : EStateM ε World α) := by
  cases e with
  | error e => exact throw e
  | ok a => exact pure a

theorem ofEngine (step : Engine.Step α) : LeavesDirs (ofEngine step) := by
  apply of_disk
  intro _ _ _ h
  unfold Act.ofEngine at h
  split at h <;> cases h
  rfl

theorem printLine (s : String) : LeavesDirs (printLine s) := by
  apply of_disk
  rintro _ _ _ ⟨⟩
  rfl

theorem write (path text : String) : LeavesDirs (onDisk (·.write path text)) := by
  intro _ _ _ h
  exact Disk.extends_write (onDisk_ok h)

theorem forM {xs : List β} {f : β → EStateM ε World PUnit} (h : ∀ x ∈ xs, LeavesDirs (f x)) :
    LeavesDirs (xs.forM f) := by
  induction xs with
  | nil => exact pure _
  | cons x _ ih =>
    exact (h x (by simp)).bind fun _ => ih fun y hy => h y (by simp [hy])

end LeavesDirs

theorem leavesDirs_targetsOf (src : String) (dst : Option String) : LeavesDirs (targetsOf src dst) :=
  .bind .get fun _ => .pure _

theorem leavesDirs_readSource (path : String) : LeavesDirs (readSource path) := by
  refine .bind .get fun w => ?_
  split
  · exact .pure _
  · exact .throw _

theorem leavesDirs_compileFile (o : Options) (src : String) (dst : Option String) :
    LeavesDirs (compileFile o src dst) := by
  refine .bind (leavesDirs_targetsOf src dst) fun t => .bind (leavesDirs_readSource src) fun _ =>
    .bind (.ofExcept _) fun out => ?_
  have hafter (ending : String) : LeavesDirs (do
      onDisk (·.write t.script (out.text ++ ending))
      if !o.inlineMap then
        let map ← ofExcept out.map.stringify
        onDisk (·.write t.map map)) := by
    refine .bind (.write _ _) fun _ => ?_
    split
    · exact .bind (.ofExcept _) fun _ => .write _ _
    · exact .pure _
  dsimp only
  split
  · exact .bind (.ofExcept _) hafter
  · exact .bind (.pure _) hafter

theorem leavesDirs_compileFileToEs5 (o : Options) (src : String) (dst : Option String) :
    LeavesDirs (compileFileToEs5 o src dst) := by
  have hscript (code : Json) : LeavesDirs (scriptText code) := by
    cases code with
    | str => exact .pure _
    | null | bool | int | decimal | arr | obj => exact .throw _
  refine .bind (leavesDirs_targetsOf src dst) fun t => .bind (leavesDirs_readSource src) fun _ =>
    .bind (.ofExcept _) fun _ => .bind (.ofExcept _) fun _ => .bind (.ofEngine _) fun _ => ?_
  exact .bind (.ofExcept _) fun code => .bind (.write _ _) fun _ => .bind (.write _ _) fun _ =>
    .bind (hscript code) fun _ => .bind (.write _ _) fun _ => .write _ _

theorem leavesDirs_compileReported (o : Options) (src : String) (dst : Option String) :
    LeavesDirs (compileReported o src dst) := by
  have hstep : LeavesDirs (do
      compileAs o src dst
      printLine ("Compiled file " ++ src)) := by
    refine .bind ?_ fun _ => .printLine _
    unfold compileAs
    split
    · exact leavesDirs_compileFileToEs5 o src dst
    · exact leavesDirs_compileFile o src dst
  intro w a w' h
  exact hstep w a w' (concerning_ok h)

/-! ### Turns -/

def visitDir (o : Options) (dir : String) (dst : Option String) : Job (List (String × Option String)) := do
  concerning none (dst.forM prepareDir)
  let (files, dirs) := sortEntries (← get).disk dir
  files.forM fun f => compileReported o f dst
  return dirs.map fun d => (d, dst.map (within · (Path.basename d)))

inductive Visits (o : Options) :
    World → List (String × Option String) → List String → EStateM.Result Failure World Unit → Prop
  | done {w : World} : Visits o w [] [] (.ok () w)
  | failed {w w' : World} {dir : String} {dst : Option String} {rest : List (String × Option String)}
      {f : Failure} (h : visitDir o dir dst w = .error f w') :
      Visits o w ((dir, dst) :: rest) [dir] (.error f w')
  | turn {w w' : World} {dir : String} {dst : Option String} {rest inner : List (String × Option String)}
      {dirs : List String} {result : EStateM.Result Failure World Unit}
      (h : visitDir o dir dst w = .ok inner w') (hrest : Visits o w' (rest ++ inner) dirs result) :
      Visits o w ((dir, dst) :: rest) (dir :: dirs) result

theorem compileDirs_cons (o : Options) (fuel : Nat) (dir : String) (dst : Option String)
    (rest : List (String × Option String)) : compileDirs o (fuel + 1) ((dir, dst) :: rest) =
      visitDir o dir dst >>= fun inner => compileDirs o fuel (rest ++ inner) := by
  simp only [compileDirs, visitDir, bind_assoc, pure_bind]

theorem Visits.compileDirs_eq {queue : List (String × Option String)} {dirs : List String}
    {result : EStateM.Result Failure World Unit} (h : Visits o w queue dirs result) {fuel : Nat}
    (hfuel : dirs.length ≤ fuel) : compileDirs o fuel queue w = result := by
  induction h generalizing fuel with
  | done => cases fuel <;> rfl
  | failed hturn =>
    obtain ⟨_, rfl⟩ := Nat.exists_eq_add_of_le' (Nat.one_le_of_lt hfuel)
    rw [compileDirs_cons, bind_of_error hturn]
  | turn hturn _ ih =>
    obtain ⟨_, rfl⟩ := Nat.exists_eq_add_of_le' (Nat.one_le_of_lt hfuel)
    rw [compileDirs_cons, bind_of_ok hturn]
    exact ih (by simpa using hfuel)

/-! ### What is listed -/

def listedDirs (es : List (String × FileTree)) : List String :=
  (Source.sortNames (es.map (·.1))).filter fun n =>
    isVisible n && (((FileTree.dir es).child? n).map FileTree.isDir).getD false

theorem mem_listedDirs {n : String} (h : n ∈ listedDirs es) : n ∈ es.map (·.1) ∧ isVisible n = true ∧
    ∃ c, (FileTree.dir es).child? n = some c ∧ c.isDir = true := by
  rw [listedDirs, List.mem_filter, Source.mem_sortNames, Bool.and_eq_true] at h
  refine ⟨h.1, h.2.1, ?_⟩
  cases hc : (FileTree.dir es).child? n with
  | none => simp [hc] at h
  | some c => exact ⟨c, rfl, by simpa [hc] using h.2.2⟩

theorem dirs_sortEntries {d : Disk} (hd : d.WellFormed)
    (hrow : d.locate? dir = some row) (hes : d.root.find? row = some (.dir es)) :
    (sortEntries d dir).2 = (listedDirs es).map (within dir) := by
  have hentries := (FileTree.wellFormed_dir_iff.mp (FileTree.wellFormed_of_find? hes hd.root)).2
  have hlist : d.list dir = Source.sortNames (es.map (·.1)) := by
    simp [Disk.list, Disk.lookup?, hrow, hes, FileTree.entries]
  have hisDir : ∀ n ∈ Source.sortNames (es.map (·.1)), d.isDir (within dir n) =
      (((FileTree.dir es).child? n).map FileTree.isDir).getD false := by
    intro _ hn
    obtain ⟨e, he, rfl⟩ := List.mem_map.mp (Source.mem_sortNames.mp hn)
    simp [Disk.isDir, Disk.lookup?, d.locate?_within dir (hentries e he).1, hrow, FileTree.find?_append, hes,
      FileTree.find?]
  simp only [sortEntries, hlist, List.filter_map, List.filter_filter, List.map_map, listedDirs]
  refine congrArg (List.map (within dir)) (List.filter_congr fun n hn => ?_)
  rw [Bool.and_comm, Function.comp_apply, hisDir n hn]
  rfl

theorem child?_of_mem (h : (es.map (·.1)).Nodup) {e : String × FileTree} (he : e ∈ es) :
    (FileTree.dir es).child? e.1 = some e.2 := by
  induction es with
  | nil => cases he
  | cons f _ ih =>
    obtain ⟨m, _⟩ := f
    rw [List.map_cons, List.nodup_cons] at h
    rw [FileTree.child?_cons]
    rcases List.mem_cons.mp he with rfl | hrest
    · simp
    · have hne : m ≠ e.1 := by
        rintro rfl
        exact h.1 (List.mem_map.mpr ⟨e, hrest, rfl⟩)
      rw [if_neg hne, ih h.2 hrest]

theorem dirRowsOf_perm (h : (es.map (·.1)).Nodup) : (FileTree.dirRowsOf es).Perm ((listedDirs es).flatMap fun n =>
    ((((FileTree.dir es).child? n).map FileTree.dirRows).getD []).map (n :: ·)) := by
  -- the rows that start with a name
  let rows (n : String) : List (List String) := if isVisible n then
    ((((FileTree.dir es).child? n).map FileTree.dirRows).getD []).map (n :: ·) else []
  have hnames : FileTree.dirRowsOf es = (es.map (·.1)).flatMap rows := by
    rw [FileTree.dirRowsOf_eq_flatMap, List.flatMap_map]
    refine List.flatMap_congr fun e he => ?_
    simp [rows, child?_of_mem h he]
  have hlisted : ∀ names : List String, names.flatMap rows = (names.filter fun n =>
      isVisible n && (((FileTree.dir es).child? n).map FileTree.isDir).getD false).flatMap fun n =>
        ((((FileTree.dir es).child? n).map FileTree.dirRows).getD []).map (n :: ·) := by
    intro names
    induction names with
    | nil => rfl
    | cons n _ ih =>
      rw [List.flatMap_cons, ih, List.filter_cons]
      split
      next hn => simp [rows, (Bool.and_eq_true_iff.mp hn).1]
      next hn =>
        have hnone : rows n = [] := by
          simp only [rows]
          split
          next hvisible =>
            cases hc : (FileTree.dir es).child? n with
            | none => simp
            | some c =>
              cases c with
              | file => simp [FileTree.dirRows]
              | dir => simp [hvisible, hc, FileTree.isDir] at hn
          · rfl
        rw [hnone, List.nil_append]
  rw [hnames, listedDirs, ← hlisted]
  have hperm := (List.perm_ext_iff_of_nodup h (Source.nodup_sortNames _)).mpr fun _ => Source.mem_sortNames.symm
  exact hperm.flatMap_right rows

/-! ### Runs -/

def place (dir : String) (row : List String) : String :=
  row.foldl within dir

theorem place_snoc (dir : String) (row : List String) (n : String) :
    place dir (row ++ [n]) = within (place dir row) n := by
  rw [place, List.foldl_append]
  rfl

theorem locate?_place (d : Disk) (dir : String) (h : Entries row) :
    d.locate? (place dir row) = (d.locate? dir).map (· ++ row) := by
  induction row using List.reverseRecOn with
  | nil => cases hdir : d.locate? dir <;> simp [place, hdir]
  | append_singleton _ _ ih =>
    rw [Path.entries_concat] at h
    rw [place_snoc, d.locate?_within _ h.2, ih h.1, Option.map_map]
    simp [Function.comp_def]

/-- Nothing that is put at a name comes under the directory `x`, except where it cannot be seen from there. -/
def Disk.Outside (d : Disk) (x : List String) (name : String) : Prop :=
  ∀ p, p ≠ [] → d.locate? name = some (x ++ p) → p.all isVisible = false

def rowsUnder (d : Disk) (x row : List String) : List (List String) :=
  ((d.root.find? (x ++ row)).map fun t => t.dirRows.map (row ++ ·)).getD []

/-- What holds between turns. A queue has directories of at most two neighbouring depths, the less deep ones
first. -/
structure Ready (src : String) (dst : Option String) (x : List String) (d : Disk)
    (queue : List (List String)) : Prop where
  wellFormed : d.WellFormed
  source : d.locate? src = some x
  outside : ∀ s ∈ dst, d.Outside x s
  names : ∀ q ∈ queue, ∀ n ∈ q, isEntry n = true ∧ isVisible n = true
  dirs : ∀ q ∈ queue, ∃ t, d.root.find? (x ++ q) = some t ∧ t.isDir = true
  sorted : queue.Pairwise (·.length ≤ ·.length)
  near : ∀ q ∈ queue, ∀ r ∈ queue, r.length ≤ q.length + 1

variable {src : String} {dst : Option String} {x : List String} {d d' : Disk} {queue : List (List String)}

theorem rowsUnder_of_extends {P : List String → Prop} (h : d.Extends P d')
    (hq : ∃ t, d.root.find? (x ++ q) = some t ∧ t.isDir = true) (hP : P (x ++ q)) :
    rowsUnder d' x q = rowsUnder d x q := by
  obtain ⟨t, ht, hdir⟩ := hq
  obtain ⟨_, ht', -, hrows⟩ := h.dirs _ t ht hdir
  simp [rowsUnder, ht, ht', hrows hP]

theorem Ready.of_extends {P : List String → Prop} (h : Ready src dst x d queue) (hext : d.Extends P d')
    (hdst : ∀ s ∈ dst, (d.locate? s).isSome = true) : Ready src dst x d' queue where
  wellFormed := hext.wellFormed h.wellFormed
  source := Disk.locate?_of_extends hext h.source
  outside s hs p hp hlocate := by
    obtain ⟨_, hy⟩ := Option.isSome_iff_exists.mp (hdst s hs)
    have heq := (Disk.locate?_of_extends hext hy).symm.trans hlocate
    exact h.outside s hs p hp (hy.trans heq)
  names := h.names
  dirs q hq := by
    obtain ⟨t, ht, hdir⟩ := h.dirs q hq
    obtain ⟨t', ht', hdir', -⟩ := hext.dirs _ t ht hdir
    exact ⟨t', ht', hdir'⟩
  sorted := h.sorted
  near := h.near

theorem extends_prepareDir {path : String} (h : prepareDir path w = .ok () w') :
    ∃ row, w.disk.locate? path = some row ∧ w.disk.Extends (fun y => (w.disk.root.find? row).isSome = true ∨
      ∀ z, row = y ++ z → z.all isVisible = false) w'.disk := by
  have hstep : prepareDir path w = if Path.isTooLong path then .error (.nameTooLong path) w
      else if w.disk.hasAny path then .ok () w else onDisk (·.makeDir path) w := by
    unfold prepareDir
    split
    · rfl
    · show (if !w.disk.hasAny path then onDisk (·.makeDir path) else pure ()) w = _
      cases w.disk.hasAny path <;> rfl
  rw [hstep] at h
  split at h
  · cases h
  · split at h
    next hany =>
      cases h
      obtain ⟨_, ht⟩ := Option.isSome_iff_exists.mp hany
      obtain ⟨row, hrow, _⟩ := Option.bind_eq_some_iff.mp ht
      exact ⟨row, hrow, (Disk.Extends.refl w.disk)⟩
    next hany =>
      obtain ⟨row, hrow, hext⟩ := Disk.extends_makeDir (onDisk_ok h) (by simpa using hany)
      refine ⟨row, hrow, hext.imp fun y hy => hy.resolve_left ?_⟩
      simpa [Disk.hasAny, Disk.lookup?, hrow] using hany

theorem Ready.extends_prepareDir {s : String} (h : Ready src dst x w.disk (q :: rest)) (hs : s ∈ dst)
    (hprepare : prepareDir (place s q) w = .ok () w') : (w.disk.locate? s).isSome = true ∧
      ∃ P, w.disk.Extends P w'.disk ∧ ∀ r ∈ q :: rest, P (x ++ r) := by
  obtain ⟨_, hrow, hext⟩ := Command.extends_prepareDir hprepare
  rw [locate?_place _ _ fun n hn => (h.names q (by simp) n hn).1] at hrow
  obtain ⟨y, hy, rfl⟩ := Option.map_eq_some_iff.mp hrow
  refine ⟨by simp [hy], _, hext, fun r hr => or_iff_not_imp_left.mpr fun hnew z hz => ?_⟩
  by_contra hvisible
  rw [Bool.not_eq_false] at hvisible
  have hnot : y ++ q ≠ x ++ q := by
    intro heq
    obtain ⟨_, ht, -⟩ := h.dirs q (by simp)
    simp [heq, ht] at hnew
  rw [List.append_assoc, List.append_eq_append_iff] at hz
  rcases hz with ⟨p, rfl, hz⟩ | ⟨p, rfl, hz⟩
  · -- the source lies under the output: the new directory is less deep than what is visited
    have hlength : q.length ≤ r.length := by
      rcases List.mem_cons.mp hr with rfl | hr
      · exact Nat.le_refl _
      · exact (List.pairwise_cons.mp h.sorted).1 r hr
    have hp : p = [] := by
      have hlengths := congrArg List.length hz
      simp only [List.length_append] at hlengths
      exact List.eq_nil_of_length_eq_zero (by omega)
    exact hnot (by simp [hp])
  · -- the output lies under the source, where it cannot be seen
    have hp : p ≠ [] := by
      rintro rfl
      simp at hnot
    have hall : (p ++ q).all isVisible = true := by
      rw [← hz, List.all_append, hvisible, Bool.and_true, List.all_eq_true]
      exact fun n hn => (h.names r hr n hn).2
    have hnone := h.outside s hs p hp hy
    rw [List.all_append, hnone] at hall
    cases hall

def queued (src : String) (dst : Option String) (q : List String) : String × Option String :=
  (place src q, dst.map (place · q))

theorem Ready.listed (h : Ready src dst x d (q :: rest)) : ∃ names : List String,
    (sortEntries d (place src q)).2 = names.map (within (place src q)) ∧
    Entries names ∧
    Ready src dst x d (rest ++ names.map (q ++ [·])) ∧
    (rowsUnder d x q).Perm (q :: (names.map (q ++ [·])).flatMap (rowsUnder d x)) := by
  obtain ⟨t, ht, hdir⟩ := h.dirs q (by simp)
  cases t with
  | file => cases hdir
  | dir es =>
    have hes := FileTree.wellFormed_dir_iff.mp (FileTree.wellFormed_of_find? ht h.wellFormed.root)
    have hentry : Entries (listedDirs es) := by
      intro _ hn
      obtain ⟨e, he, rfl⟩ := List.mem_map.mp (mem_listedDirs hn).1
      exact (hes.2 e he).1
    have hchild (n : String) : d.root.find? (x ++ (q ++ [n])) = (FileTree.dir es).child? n := by
      rw [← List.append_assoc, FileTree.find?_append, ht]
      cases hc : (FileTree.dir es).child? n <;> simp [FileTree.find?, hc]
    have hrow : d.locate? (place src q) = some (x ++ q) := by
      rw [locate?_place d src fun n hn => (h.names q (by simp) n hn).1, h.source]
      rfl
    refine ⟨listedDirs es, dirs_sortEntries h.wellFormed hrow ht, hentry, ?_, ?_⟩
    · have hrest := List.pairwise_cons.mp h.sorted
      exact
        { h with
          names := by
            refine List.forall_mem_append.mpr ⟨fun r hr => h.names r (by simp [hr]), ?_⟩
            rw [List.forall_mem_map]
            intro n hn
            refine List.forall_mem_append.mpr ⟨h.names q (by simp), ?_⟩
            simpa using ⟨hentry n hn, (mem_listedDirs hn).2.1⟩
          dirs := by
            refine List.forall_mem_append.mpr ⟨fun r hr => h.dirs r (by simp [hr]), ?_⟩
            rw [List.forall_mem_map]
            intro _ hn
            rw [hchild]
            exact (mem_listedDirs hn).2.2
          sorted := by
            refine List.pairwise_append.mpr ⟨hrest.2, ?_, ?_⟩
            · exact List.pairwise_map.mpr (List.pairwise_of_forall fun _ _ => by simp)
            · intro r hr
              rw [List.forall_mem_map]
              intro _ _
              simpa using h.near q (by simp) r (by simp [hr])
          near := by
            have hlower : ∀ r ∈ rest ++ (listedDirs es).map (q ++ [·]), q.length ≤ r.length := by
              refine List.forall_mem_append.mpr ⟨hrest.1, List.forall_mem_map.mpr fun n _ => by simp⟩
            have hupper : ∀ r ∈ rest ++ (listedDirs es).map (q ++ [·]), r.length ≤ q.length + 1 := by
              refine List.forall_mem_append.mpr ⟨fun r hr => h.near q (by simp) r (by simp [hr]),
                List.forall_mem_map.mpr fun n _ => by simp⟩
            intro r hr s hs
            exact (hupper s hs).trans (Nat.succ_le_succ (hlower r hr)) }
    · have hrows : rowsUnder d x q = q :: (FileTree.dirRowsOf es).map (q ++ ·) := by
        simp [rowsUnder, ht, FileTree.dirRows]
      rw [hrows, List.flatMap_map]
      refine List.Perm.cons q (((dirRowsOf_perm hes.1).map (q ++ ·)).trans (.of_eq ?_))
      rw [List.map_flatMap]
      refine List.flatMap_congr fun n _ => ?_
      cases hc : (FileTree.dir es).child? n <;> simp [rowsUnder, hchild, hc, Function.comp_def]

theorem visitDir_ok (h : visitDir o dir dst w = .ok inner w') : ∃ w₁, (dst = none → w₁ = w) ∧
    (∀ s ∈ dst, prepareDir s w = .ok () w₁) ∧ w₁.disk.Extends (fun _ => True) w'.disk ∧
    inner = (sortEntries w₁.disk dir).2.map fun d => (d, dst.map (within · (Path.basename d))) := by
  obtain ⟨⟨⟩, w₁, hprepare, h⟩ := bind_eq_ok_iff.mp h
  obtain ⟨_, _, hget, h⟩ := bind_eq_ok_iff.mp h
  cases hget
  obtain ⟨⟨⟩, _, hfiles, h⟩ := bind_eq_ok_iff.mp h
  cases h
  refine ⟨w₁, ?_, ?_, LeavesDirs.forM (fun f _ => leavesDirs_compileReported o f dst) w₁ _ _ hfiles, rfl⟩
  · rintro rfl
    cases hprepare
    rfl
  · rintro _ ⟨⟩
    exact concerning_ok hprepare

theorem Ready.turn (h : Ready src dst x w.disk (q :: rest))
    (hturn : visitDir o (place src q) (dst.map (place · q)) w = .ok inner w') :
    ∃ children, inner = children.map (queued src dst) ∧ Ready src dst x w'.disk (rest ++ children) ∧
      ((q :: rest).flatMap (rowsUnder w.disk x)).Perm (q :: (rest ++ children).flatMap (rowsUnder w'.disk x)) := by
  obtain ⟨w₁, hnone, hprepare, hfiles, rfl⟩ := visitDir_ok hturn
  obtain ⟨hdst, P, hext, hP⟩ : (∀ s ∈ dst, (w.disk.locate? s).isSome = true) ∧
      ∃ P, w.disk.Extends P w₁.disk ∧ ∀ r ∈ q :: rest, P (x ++ r) := by
    cases dst with
    | none => exact ⟨by simp, fun _ => True, hnone rfl ▸ .refl _, by simp⟩
    | some s =>
      obtain ⟨hs, hext⟩ := h.extends_prepareDir rfl (hprepare (place s q) rfl)
      exact ⟨by simpa using hs, hext⟩
  have hlocated : ∀ s ∈ dst, (w₁.disk.locate? s).isSome = true := by
    intro s hs
    obtain ⟨_, hy⟩ := Option.isSome_iff_exists.mp (hdst s hs)
    simp [Disk.locate?_of_extends hext hy]
  have hfirst := h.of_extends hext hdst
  obtain ⟨names, hdirs, hentry, hready, hperm⟩ := hfirst.listed
  refine ⟨names.map (q ++ [·]), ?_, hready.of_extends hfiles hlocated, ?_⟩
  · rw [hdirs, List.map_map, List.map_map]
    refine List.map_congr_left fun n hn => ?_
    cases dst <;> simp [queued, place_snoc, Path.basename_within _ (hentry n hn)]
  · have hbefore : (q :: rest).flatMap (rowsUnder w.disk x) = (q :: rest).flatMap (rowsUnder w₁.disk x) :=
      List.flatMap_congr fun r hr => (rowsUnder_of_extends hext (h.dirs r hr) (hP r hr)).symm
    have hafter : (rest ++ names.map (q ++ [·])).flatMap (rowsUnder w'.disk x) =
        (rest ++ names.map (q ++ [·])).flatMap (rowsUnder w₁.disk x) :=
      List.flatMap_congr fun r hr => rowsUnder_of_extends hfiles (hready.dirs r hr) trivial
    rw [hbefore, hafter, List.flatMap_cons, List.flatMap_append]
    exact (hperm.append_right _).trans (List.Perm.cons q List.perm_append_comm)

theorem Ready.exists_visits (h : Ready src dst x w.disk queue) :
    ∃ dirs result, Visits o w (queue.map (queued src dst)) dirs result ∧
      dirs.Subperm ((queue.flatMap (rowsUnder w.disk x)).map (place src)) ∧
      ∀ w', result = .ok () w' → dirs.Perm ((queue.flatMap (rowsUnder w.disk x)).map (place src)) := by
  induction hn : (queue.flatMap (rowsUnder w.disk x)).length using Nat.strong_induction_on generalizing w queue with
  | _ n ih =>
    cases queue with
    | nil => exact ⟨[], _, .done, .refl _, fun _ _ => .refl _⟩
    | cons q rest =>
      cases hturn : visitDir o (place src q) (dst.map (place · q)) w with
      | error =>
        refine ⟨[place src q], _, .failed hturn, ?_, nofun⟩
        obtain ⟨_, -, -, -, hperm⟩ := h.listed
        refine List.singleton_subperm_iff.mpr (List.mem_map_of_mem ?_)
        exact List.mem_append_left _ (hperm.symm.subset (by simp))
      | ok _ w' =>
        obtain ⟨children, rfl, hready, hperm⟩ := h.turn hturn
        have hless : ((rest ++ children).flatMap (rowsUnder w'.disk x)).length < n := by
          rw [← hn, hperm.length_eq, List.length_cons]
          exact Nat.lt_succ_self _
        obtain ⟨dirs, result, hvisits, hsub, hall⟩ := ih _ hless hready rfl
        rw [List.map_append] at hvisits
        have hplaces := (hperm.map (place src)).symm
        rw [List.map_cons] at hplaces
        refine ⟨place src q :: dirs, result, .turn hturn hvisits, ?_, fun w'' hw'' => ?_⟩
        · exact ((List.subperm_cons _).mpr hsub).trans hplaces.subperm
        · exact ((hall w'' hw'').cons _).trans hplaces

/-- If output does not go under the source, or where it cannot be seen from there, compiling a directory ends.
It visits the directories that are visible under the source at the start, each once, or each up to the first
failure. -/
theorem visits_compileDirs {o : Options} {w : World} {t : FileTree} (hdisk : w.disk.WellFormed)
    (hsrc : w.disk.locate? src = some x) (ht : w.disk.root.find? x = some t) (hdir : t.isDir = true)
    (hdst : ∀ s ∈ dst, w.disk.Outside x s) :
    ∃ dirs result, Visits o w [(src, dst)] dirs result ∧ compileDirs o (dirLimit w.disk) [(src, dst)] w = result ∧
      dirs.Nodup ∧ dirs.Subperm (t.dirRows.map (place src)) ∧
      ∀ w', result = .ok () w' → dirs.Perm (t.dirRows.map (place src)) := by
  have hready : Ready src dst x w.disk [[]] :=
    { wellFormed := hdisk
      source := hsrc
      outside := hdst
      names := by simp
      dirs := by simpa using ⟨t, ht, hdir⟩
      sorted := List.pairwise_singleton _ _
      near := by simp }
  have hrows : [[]].flatMap (rowsUnder w.disk x) = t.dirRows := by simp [rowsUnder, ht]
  have hqueue : [[]].map (queued src dst) = [(src, dst)] := by cases dst <;> rfl
  obtain ⟨dirs, result, hvisits, hsub, hall⟩ := hready.exists_visits (o := o)
  rw [hrows] at hsub hall
  rw [hqueue] at hvisits
  have hlength : dirs.length ≤ dirLimit w.disk := by
    have hle := hsub.length_le
    have hrowsLe := t.length_dirRows_le
    have hcount := FileTree.dirCount_le_of_find? ht
    rw [List.length_map] at hle
    rw [dirLimit, Path.maxOctets]
    omega
  have hnodup : (t.dirRows.map (place src)).Nodup := by
    have ht' := FileTree.wellFormed_of_find? ht hdisk.root
    refine List.Nodup.map_on (fun r hr s hs heq => ?_) (t.nodup_dirRows ht')
    have hlocate {r : List String} (hr : r ∈ t.dirRows) : w.disk.locate? (place src r) = some (x ++ r) := by
      rw [locate?_place _ _ (t.isEntry_of_mem_dirRows ht' r hr), hsrc]
      rfl
    have hrs : some (x ++ r) = some (x ++ s) := by rw [← hlocate hr, heq, hlocate hs]
    exact List.append_cancel_left (Option.some.inj hrs)
  obtain ⟨sorted, hperm, hsublist⟩ := hsub
  exact ⟨dirs, result, hvisits, hvisits.compileDirs_eq hlength, hperm.nodup_iff.mp (hnodup.sublist hsublist),
    ⟨sorted, hperm, hsublist⟩, hall⟩

def nestedWorld : World :=
  { (default : World) with
    disk := ⟨"/", .dir [("a", .dir [("b", .dir [("b", .dir [("c", .dir [])])])])]⟩ }

/-- The output of `a/b` goes to `a`, so a directory `a/b/c` is made, after `a/b` was listed. -/
theorem visits_nestedWorld : ∃ dirs result, Visits default nestedWorld [("a/b", some "a")] dirs result ∧
      compileDirs default (dirLimit nestedWorld.disk) [("a/b", some "a")] nestedWorld = result ∧
      dirs.Nodup ∧ dirs.Subperm ["a/b", "a/b/b", "a/b/b/c"] ∧
      ∀ w', result = .ok () w' → dirs.Perm ["a/b", "a/b/b", "a/b/b/c"] := by
  have hdisk : nestedWorld.disk.WellFormed := ⟨by decide, by decide⟩
  have hsrc : nestedWorld.disk.locate? "a/b" = some ["a", "b"] := by decide
  have hdst : ∀ s ∈ some "a", nestedWorld.disk.Outside ["a", "b"] s := by
    rintro s ⟨⟩ p hp hlocate
    have hrow : nestedWorld.disk.locate? "a" = some ["a"] := by decide
    simp [hrow] at hlocate
  exact visits_compileDirs hdisk hsrc rfl rfl hdst

def emptyWorld : World :=
  { (default : World) with disk := ⟨"/", .dir [("a", .dir [])]⟩ }

/-- If the output of `a` goes to `a/o`, this directory is visited too, though it is not there at the start. -/
theorem visits_output : (emptyWorld.disk.root.find? ["a"]).map FileTree.dirRows = some [[]] ∧
    ∀ dirs result, Visits default emptyWorld [("a", some "a/o")] dirs result → "a/o" ∈ dirs := by
  refine ⟨by decide, fun dirs result h => ?_⟩
  obtain ⟨w', hturn⟩ : ∃ w', visitDir default "a" (some "a/o") emptyWorld =
      .ok [("a/o", some "a/o/o")] w' := ⟨_, rfl⟩
  cases h with
  | failed hfailed => cases hturn.symm.trans hfailed
  | turn hok hrest =>
    cases hturn.symm.trans hok
    cases hrest with
    | failed => simp
    | turn => simp

end Transpiler.Command
