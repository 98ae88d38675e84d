import Transpiler.Proofs.Command.Disk

/-!
# Absolute names and names relative to a directory

An absolute name in normal form is the root and a row of entries (`ofRow`). The name by which such a file is reached
from a directory goes up to where the two rows part and down again, so behind the directory it gives the file
(`normalize_join_relative`). All names that a compilation works with are of this form, and those by which its files
refer to each other lead from one to the other (`normalize_join_targets`).
-/

namespace Transpiler.Path

variable {n path cwd : String} {row up down : List String}

def ofRow (row : List String) : String :=
  "/" ++ "/".intercalate row

/-! ### Components -/

theorem components_intercalate {cs : List String} (h : ∀ c ∈ cs, c = ".." ∨ isEntry c = true) :
    components ("/".intercalate cs) = cs := by
  cases cs with
  | nil => rfl
  | cons c rest =>
    have hparts : ∀ p ∈ c :: rest, '/' ∉ p.toList ∧ (p != "" && p != ".") = true := by
      intro p hp
      rcases h p hp with rfl | hentry
      · decide
      · exact ⟨notMem_of_isEntry hentry, by simp_all [isEntry]⟩
    have hsplit : Text.splitOn '/' ("/".intercalate (c :: rest)) = c :: rest :=
      Text.splitOn_intercalate (List.cons_ne_nil _ _) fun p hp => (hparts p hp).1
    rw [components, hsplit, List.filter_eq_self]
    exact fun p hp => (hparts p hp).2

theorem components_ofRow (h : Entries row) : components (ofRow row) = row := by
  have happend := components_append "" ("/".intercalate row)
  rwa [String.empty_append, components_intercalate fun n hn => .inr (h n hn), components_empty] at happend

theorem components_join (dir : String) (h : path.toList.head? ≠ some '/') :
    components (join dir path) = components dir ++ components path := by
  rw [join, if_neg (by simpa using h)]
  by_cases hdir : dir = ""
  · simp [hdir, components_empty]
  by_cases hlast : dir.toList.getLast? = some '/'
  · have hstem : dir = String.ofList dir.toList.dropLast ++ "/" := by
      rw [← String.toList_inj]
      simp [List.dropLast_append_getLast? _ hlast]
    rw [if_pos (by simp [hlast])]
    conv_rhs =>
      rw [hstem, ← String.append_empty (s := _ ++ "/"), components_append, components_empty, List.append_nil]
    rw [← components_append, ← hstem]
  · rw [if_neg (by simp [hdir, hlast]), components_append]

/-! ### Roots -/

theorem rootSlashes_eq_one_iff : rootSlashes path = 1 ↔
    ∃ rest, path.toList = '/' :: rest ∧ (rest.head? = some '/' → ∃ more, rest = '/' :: '/' :: more) := by
  unfold rootSlashes
  split <;> simp_all [List.head?_eq_some_iff]

theorem rootSlashes_append {a b : String} (h : rootSlashes a = 1) (hb : a = "/" → b.toList.head? ≠ some '/') :
    rootSlashes (a ++ b) = 1 := by
  rw [rootSlashes_eq_one_iff] at h ⊢
  obtain ⟨rest, ha, hrest⟩ := h
  refine ⟨rest ++ b.toList, by simp [ha], fun hhead => ?_⟩
  cases rest with
  | nil => exact (hb (by rw [← String.toList_inj, ha]; decide) hhead).elim
  | cons =>
    obtain ⟨more', heq⟩ := hrest (by simpa using hhead)
    exact ⟨more' ++ b.toList, by rw [heq]; rfl⟩

theorem rootSlashes_join {dir : String} (hdir : rootSlashes dir = 1) (h : path.toList.head? ≠ some '/') :
    rootSlashes (join dir path) = 1 := by
  rw [join, if_neg (by simpa using h)]
  split
  · exact rootSlashes_append hdir fun _ => h
  next hlast =>
    rw [String.append_assoc]
    refine rootSlashes_append hdir ?_
    rintro rfl
    exact absurd hlast (by decide)

theorem head?_intercalate {cs : List String} (h : ∀ c ∈ cs, c = ".." ∨ isEntry c = true) :
    ("/".intercalate cs).toList.head? ≠ some '/' := by
  cases cs with
  | nil => decide
  | cons c rest =>
    have hc : c.toList.head? ≠ some '/' ∧ c.toList ≠ [] := by
      rcases h c (by simp) with rfl | hentry
      · decide
      · exact ⟨head?_of_isEntry hentry, by simp_all [isEntry]⟩
    cases rest with
    | nil => simpa using hc.1
    | cons =>
      rw [String.toList_intercalate, List.map_cons, List.map_cons, List.intercalate_cons_cons, List.append_assoc,
        List.head?_append_of_ne_nil _ hc.2]
      exact hc.1

theorem rootSlashes_ofRow (h : Entries row) : rootSlashes (ofRow row) = 1 :=
  rootSlashes_append (by decide) fun _ => head?_intercalate fun n hn => .inr (h n hn)

/-! ### Normal forms -/

theorem ne_up_of_isEntry (h : isEntry n = true) : n ≠ ".." := by
  rintro rfl
  exact absurd h (by decide)

theorem foldl_addComponent {before cs : List String} (h : ∀ c ∈ cs, isEntry c = true) :
    cs.foldl (addComponent true) before = cs.reverse ++ before := by
  induction cs generalizing before with
  | nil => rfl
  | cons c _ ih =>
    rw [List.forall_mem_cons] at h
    have hstep : addComponent true before c = c :: before := by simp [addComponent, ne_up_of_isEntry h.1]
    rw [List.foldl_cons, hstep, ih h.2]
    simp

theorem foldl_addComponent_up {before : List String} (h : ∀ c ∈ up, isEntry c = true) :
    (List.replicate up.length "..").foldl (addComponent true) (up ++ before) = before := by
  induction up with
  | nil => rfl
  | cons c rest ih =>
    rw [List.forall_mem_cons] at h
    have hstep : addComponent true (c :: rest ++ before) ".." = rest ++ before := by
      simp [addComponent, ne_up_of_isEntry h.1]
    rw [List.length_cons, List.replicate_succ, List.foldl_cons, hstep, ih h.2]

theorem isEntry_foldl {before cs : List String} (hbefore : Entries before)
    (h : ∀ c ∈ cs, c ≠ ".." → isEntry c = true) : Entries (cs.foldl (addComponent true) before) := by
  induction cs generalizing before with
  | nil => exact hbefore
  | cons _ _ ih =>
    rw [List.forall_mem_cons] at h
    refine ih ?_ h.2
    unfold addComponent
    split
    next hc => exact List.forall_mem_cons.mpr ⟨h.1 (by simpa using hc), hbefore⟩
    · split
      · exact hbefore
      · exact List.forall_mem_cons.mpr ⟨hbefore _ (by simp), hbefore⟩
      · exact (List.forall_mem_cons.mp hbefore).2

theorem normalize_of_rooted (h : rootSlashes path = 1) :
    normalize path = ofRow ((components path).foldl (addComponent true) []).reverse := by
  simp only [normalize, h, slashes, List.replicate_one]
  rw [if_neg (by simp)]
  rfl

theorem exists_absolute_eq (hcwd : rootSlashes cwd = 1) (hpath : rootSlashes path ≠ 2) :
    ∃ row, Entries row ∧ absolute cwd path = ofRow row := by
  have hroot : rootSlashes (join cwd path) = 1 := by
    by_cases hhead : path.toList.head? = some '/'
    · rw [join, if_pos (by simpa using hhead)]
      have hzero := rootSlashes_eq_zero_iff path
      have hle : rootSlashes path ≤ 2 := by
        unfold rootSlashes
        split <;> decide
      simp only [hhead, ne_eq, not_true_eq_false, iff_false] at hzero
      omega
    · exact rootSlashes_join hcwd hhead
  refine ⟨_, fun n hn => ?_, normalize_of_rooted hroot⟩
  exact isEntry_foldl (List.forall_mem_nil _) (fun c hc => isEntry_of_mem_components hc) n (List.mem_reverse.mp hn)

/-! ### Relative names -/

theorem dropCommon_eq (as bs : List String) : ∃ common, as = common ++ (dropCommon as bs).1 ∧
    bs = common ++ (dropCommon as bs).2 := by
  fun_induction dropCommon as bs with
  | case1 a _ b _ h ih =>
    obtain ⟨common, has, hbs⟩ := ih
    obtain rfl : a = b := by simpa using h
    exact ⟨a :: common, by rw [List.cons_append, ← has], by rw [List.cons_append, ← hbs]⟩
  | case2 => exact ⟨[], rfl, rfl⟩
  | case3 => exact ⟨[], rfl, rfl⟩

theorem normalize_join_relative {start : List String} (hrow : Entries row)
    (hstart : Entries start) :
    normalize (join (ofRow start) (relative (ofRow row) (ofRow start))) = ofRow row := by
  obtain ⟨_, hup, hdown⟩ := dropCommon_eq start row
  generalize hparts : dropCommon start row = parts at hup hdown
  obtain ⟨up, down⟩ := parts
  rw [hup, entries_append] at hstart
  rw [hdown, entries_append] at hrow
  have hsteps : ∀ c ∈ up.map (fun _ => "..") ++ down, c = ".." ∨ isEntry c = true := by
    rw [List.forall_mem_append, List.forall_mem_map]
    exact ⟨fun _ _ => .inl rfl, fun c hc => .inr (hrow.2 c hc)⟩
  have hrelative : components (relative (ofRow row) (ofRow start)) = up.map (fun _ => "..") ++ down ∧
      (relative (ofRow row) (ofRow start)).toList.head? ≠ some '/' := by
    rw [relative, components_ofRow (hup ▸ entries_append.mpr hstart),
      components_ofRow (hdown ▸ entries_append.mpr hrow), hparts]
    dsimp only
    split
    next hnil =>
      rw [List.isEmpty_iff.mp hnil]
      decide
    · exact ⟨components_intercalate hsteps, head?_intercalate hsteps⟩
  rw [normalize_of_rooted (rootSlashes_join (rootSlashes_ofRow (hup ▸ entries_append.mpr hstart)) hrelative.2),
    components_join _ hrelative.2, hrelative.1, components_ofRow (hup ▸ entries_append.mpr hstart)]
  have hfold : (start ++ (up.map (fun _ => "..") ++ down)).foldl (addComponent true) [] = row.reverse := by
    have hback : ∀ c ∈ up.reverse, isEntry c = true := fun c hc => hstart.2 c (List.mem_reverse.mp hc)
    rw [hup, List.foldl_append, List.foldl_append, foldl_addComponent (entries_append.mpr hstart),
      List.reverse_append, List.append_nil, List.map_const', ← List.length_reverse, foldl_addComponent_up hback,
      foldl_addComponent hrow.2, ← List.reverse_append, ← hdown]
  rw [hfold, List.reverse_reverse]

/-! ### The parts of a name -/

theorem ofRow_concat (row : List String) (n : String) :
    ofRow (row ++ [n]) = (if row = [] then "" else ofRow row) ++ "/" ++ n := by
  have hjoin (m : String) (rest : List String) : ['/'].intercalate ((m :: rest ++ [n]).map String.toList) =
      ['/'].intercalate ((m :: rest).map String.toList) ++ '/' :: n.toList := by
    induction rest generalizing m with
    | nil => simp
    | cons _ _ ih =>
      simp only [List.cons_append, List.map_cons, List.intercalate_cons_cons] at ih ⊢
      rw [ih]
      simp
  rw [← String.toList_inj]
  cases row with
  | nil => simp [ofRow]
  | cons m rest =>
    rw [if_neg (List.cons_ne_nil _ _), ofRow, String.toList_append, String.toList_intercalate]
    simpa [ofRow, String.toList_intercalate] using hjoin m rest

theorem getLast?_ofRow (h : Entries row) (hne : row ≠ []) : (ofRow row).toList.getLast? ≠ some '/' := by
  obtain ⟨_, n, rfl⟩ := row.eq_nil_or_concat'.resolve_left hne
  have hn := h n (by simp)
  have hempty : n.toList ≠ [] := by simp_all [isEntry]
  rw [ofRow_concat, String.toList_append, List.getLast?_append_of_ne_nil _ hempty]
  exact fun hlast => notMem_of_isEntry hn (List.mem_of_getLast? hlast)

theorem dirname_append {s : String} (hn : '/' ∉ n.toList) (hs : s.toList.getLast? ≠ some '/') :
    dirname (s ++ "/" ++ n) = if s = "" then "/" else s := by
  have hchars : (s ++ "/" ++ n).toList.reverse = n.toList.reverse ++ '/' :: s.toList.reverse := by simp
  have hall : ∀ c ∈ n.toList.reverse, (c != '/') = true := fun c hc => by
    simpa using fun heq : c = '/' => hn (heq ▸ List.mem_reverse.mp hc)
  have hhead : (splitLast (s ++ "/" ++ n)).1 = s.toList ++ ['/'] := by
    rw [splitLast, hchars, List.dropWhile_append_of_pos hall]
    simp
  have hbare : ((s.toList ++ ['/']).reverse.dropWhile (· == '/')).reverse = s.toList := by
    rcases s.toList.eq_nil_or_concat' with hnil | ⟨_, c, hcs⟩
    · simp [hnil]
    · have hc : c ≠ '/' := by simpa [hcs] using hs
      simp [hcs, hc]
  rw [dirname, hhead, hbare]
  by_cases hempty : s = "" <;> simp [hempty]

theorem dirname_ofRow (h : Entries row) : dirname (ofRow row) = ofRow row.dropLast := by
  rcases row.eq_nil_or_concat' with rfl | ⟨init, n, rfl⟩
  · decide
  have hinit : Entries init := fun m hm => h m (by simp [hm])
  rw [ofRow_concat, List.dropLast_concat]
  have hslash := notMem_of_isEntry (h n (by simp))
  split
  next hnil =>
    rw [dirname_append hslash (by decide), hnil]
    rfl
  next hne =>
    rw [dirname_append hslash (getLast?_ofRow hinit hne), if_neg (by simp [ofRow])]

theorem join_ofRow (h : Entries row) (hn : isEntry n = true) :
    join (ofRow row) n = ofRow (row ++ [n]) := by
  rw [join, if_neg (by simpa using head?_of_isEntry hn), ofRow_concat]
  by_cases hnil : row = []
  · subst hnil
    rw [if_pos (by decide), if_pos rfl]
    rfl
  · rw [if_neg hnil, if_neg]
    simpa [getLast?_ofRow h hnil] using (by simp [ofRow] : ofRow row ≠ "")

theorem isEntry_append {ext : String} (hn : '/' ∉ n.toList) (hext : '/' ∉ ext.toList) {c : Char}
    (hlast : ext.toList.getLast? = some c) (hc : c ≠ '.') : isEntry (n ++ ext) = true := by
  have hend : (n ++ ext).toList.getLast? = some c := by simp [hlast]
  simp only [isEntry, Bool.and_eq_true, bne_iff_ne, Bool.not_eq_true', List.contains_eq_mem, decide_eq_false_iff_not]
  refine ⟨⟨⟨?_, ?_⟩, ?_⟩, by simp [hn, hext]⟩ <;> intro heq <;> rw [heq] at hend
  · cases hend
  · exact hc (Option.some.inj (hend.symm.trans (by decide)))
  · exact hc (Option.some.inj (hend.symm.trans (by decide)))

theorem isEntry_map (h : '/' ∉ n.toList) : isEntry (n ++ ".map") = true :=
  isEntry_append (c := 'p') h (by decide) (by decide) (by decide)

theorem isEntry_script (path : String) : isEntry (basename path ++ ".js") = true := by
  refine isEntry_append (c := 's') ?_ (by decide) (by decide) (by decide)
  rw [basename, splitLast, String.toList_ofList, List.mem_reverse]
  exact fun hmem => absurd (List.mem_takeWhile_imp hmem) (by decide)

theorem exists_ofRow_append_map (h : Entries row) :
    ∃ row', Entries row' ∧ ofRow row ++ ".map" = ofRow row' := by
  rcases row.eq_nil_or_concat' with rfl | ⟨init, n, rfl⟩
  · exact ⟨[".map"], by decide, by decide⟩
  · rw [entries_concat] at h
    refine ⟨init ++ [n ++ ".map"], ?_, by rw [ofRow_concat, ofRow_concat, String.append_assoc]⟩
    exact entries_concat.mpr ⟨h.1, isEntry_map (notMem_of_isEntry h.2)⟩

/-! ### Targets -/

/-- The script of a source that is given absolutely, and the directory from which it looks for its map. -/
def scriptOf (cwd : String) (isDir : String → Bool) (src : String) (dst : Option String) : String × String :=
  let name := basename (splitExtension src).1 ++ ".js"
  match dst with
  | some "" | none => (join (dirname src) name, dirname src)
  | some d =>
    if isDir d then (join (absolute cwd d) name, absolute cwd d) else (absolute cwd d, dirname (absolute cwd d))

def mapOf (cwd script : String) (map : Option String) : String :=
  match map with
  | some "" | none => script ++ ".map"
  | some m => absolute cwd m

section

variable {src : String} {dst map : Option String} {isDir : String → Bool} {source : List String}

theorem targets_eq : targets cwd isDir src dst map =
    let script := scriptOf cwd isDir (absolute cwd src) dst
    let map := mapOf cwd script.1 map
    ⟨script.1, map, relative (absolute cwd src) (dirname map), relative map script.2⟩ :=
  rfl

theorem forall_mem_dropLast (h : Entries row) : Entries row.dropLast :=
  fun n hn => h n (List.mem_of_mem_dropLast hn)

theorem exists_scriptOf_eq (isDir : String → Bool) (hcwd : rootSlashes cwd = 1) (hsource : Entries source)
    (hdst : ∀ d ∈ dst, rootSlashes d ≠ 2) : ∃ script, Entries script ∧
      scriptOf cwd isDir (ofRow source) dst = (ofRow script, ofRow script.dropLast) := by
  have hname := isEntry_script (splitExtension (ofRow source)).1
  have hbeside {dir : List String} (hdir : Entries dir) : ∃ script, Entries script ∧
      (join (ofRow dir) (basename (splitExtension (ofRow source)).1 ++ ".js"), ofRow dir) =
        (ofRow script, ofRow script.dropLast) := by
    refine ⟨dir ++ [_], entries_concat.mpr ⟨hdir, hname⟩, ?_⟩
    rw [join_ofRow hdir hname, List.dropLast_concat]
  unfold scriptOf
  dsimp only
  split
  · rw [dirname_ofRow hsource]
    exact hbeside (forall_mem_dropLast hsource)
  · rw [dirname_ofRow hsource]
    exact hbeside (forall_mem_dropLast hsource)
  next d _ =>
    obtain ⟨row, hrow, habsolute⟩ := exists_absolute_eq hcwd (hdst d rfl)
    rw [habsolute]
    split
    · exact hbeside hrow
    · exact ⟨row, hrow, by rw [dirname_ofRow hrow]⟩

theorem exists_mapOf_eq {script : List String} (hcwd : rootSlashes cwd = 1) (hscript : Entries script)
    (hmap : ∀ m ∈ map, rootSlashes m ≠ 2) :
    ∃ row, Entries row ∧ mapOf cwd (ofRow script) map = ofRow row := by
  unfold mapOf
  split
  · exact exists_ofRow_append_map hscript
  · exact exists_ofRow_append_map hscript
  next m _ => exact exists_absolute_eq hcwd (hmap m rfl)

/-- The names by which the files of a compilation refer to others lead to them. -/
theorem normalize_join_targets (isDir : String → Bool) (hcwd : rootSlashes cwd = 1) (hsrc : rootSlashes src ≠ 2)
    (hdst : ∀ d ∈ dst, rootSlashes d ≠ 2) (hmap : ∀ m ∈ map, rootSlashes m ≠ 2) :
    let t := targets cwd isDir src dst map
    normalize (join (dirname t.script) t.mapFromScript) = t.map ∧
      normalize (join (dirname t.map) t.source) = absolute cwd src := by
  obtain ⟨source, hsource, habsolute⟩ := exists_absolute_eq hcwd hsrc
  obtain ⟨script, hscript, hscriptOf⟩ := exists_scriptOf_eq isDir hcwd hsource hdst
  obtain ⟨row, hrow, hmapOf⟩ := exists_mapOf_eq hcwd hscript hmap
  simp only [targets_eq, habsolute, hscriptOf, hmapOf, dirname_ofRow hscript, dirname_ofRow hrow]
  exact ⟨normalize_join_relative hrow (forall_mem_dropLast hscript),
    normalize_join_relative hsource (forall_mem_dropLast hrow)⟩

end

/-- A source above the working directory, a directory for the script and a map elsewhere. -/
theorem normalize_join_targets_apart : rootSlashes "/w/d" = 1 ∧ rootSlashes "../a.py" ≠ 2 ∧
    let t := targets "/w/d" (fun d => d == "out") "../a.py" (some "out") (some "/m/./a.map")
    normalize (join (dirname t.script) t.mapFromScript) = t.map ∧
      normalize (join (dirname t.map) t.source) = absolute "/w/d" "../a.py" :=
  ⟨by decide, by decide, normalize_join_targets _ (by decide) (by decide) (by simpa using by decide)
    (by simpa using by decide)⟩

/-! ### Directories of names -/

theorem components_slashes (a b : String) {cs : List Char} (h : ∀ c ∈ cs, c = '/') (hne : cs ≠ []) :
    components (a ++ String.ofList cs ++ b) = components a ++ components b := by
  induction cs generalizing a with
  | nil => exact absurd rfl hne
  | cons c rest ih =>
    rw [List.forall_mem_cons] at h
    obtain rfl := h.1
    cases rest with
    | nil => exact components_append a b
    | cons c rest =>
      have hstep : a ++ String.ofList ('/' :: c :: rest) ++ b = a ++ "/" ++ ("" ++ String.ofList (c :: rest) ++ b) := by
        rw [← String.toList_inj]
        simp
      rw [hstep, components_append, ih "" h.2 (List.cons_ne_nil _ _), components_empty, List.nil_append]

theorem exists_dirname_eq (path : String) : ∃ bare slashes tail, path.toList = bare ++ slashes ++ tail ∧
    (∀ c ∈ slashes, c = '/') ∧ dirname path = String.ofList (if bare.isEmpty then slashes else bare) ∧
      (slashes = [] → bare = []) := by
  have hdirname : dirname path =
      let head := path.toList.reverse.dropWhile (· != '/')
      let bare := (head.dropWhile (· == '/')).reverse
      String.ofList (if bare.isEmpty then head.reverse else bare) := by
    simp only [dirname, splitLast, List.reverse_reverse]
  have hpath := path.toList.reverse.takeWhile_append_dropWhile (p := (· != '/'))
  have hfirst := List.head?_dropWhile_not (· != '/') path.toList.reverse
  generalize path.toList.reverse.dropWhile (· != '/') = head at hdirname hpath hfirst
  have hhead := head.takeWhile_append_dropWhile (p := (· == '/'))
  refine ⟨(head.dropWhile (· == '/')).reverse, (head.takeWhile (· == '/')).reverse,
    (path.toList.reverse.takeWhile (· != '/')).reverse, ?_, ?_, ?_, ?_⟩
  · rw [← List.reverse_append, hhead, ← List.reverse_append, hpath, List.reverse_reverse]
  · intro _ hc
    simpa using List.mem_takeWhile_imp (List.mem_reverse.mp hc)
  · rw [hdirname]
    dsimp only
    split
    next hbare =>
      rw [List.isEmpty_iff, List.reverse_eq_nil_iff] at hbare
      rw [hbare, List.append_nil] at hhead
      rw [hhead]
    · rfl
  · intro hnil
    cases head with
    | nil => rfl
    | cons c =>
      have hc : c = '/' := by simpa using hfirst
      simp [hc] at hnil

theorem components_dirname (path : String) :
    ∃ more, components path = components (dirname path) ++ more := by
  obtain ⟨bare, slashes, tail, hpath, hslashes, hhead, hnone⟩ := exists_dirname_eq path
  have hparts : path = String.ofList bare ++ String.ofList slashes ++ String.ofList tail := by
    rw [← String.toList_inj, hpath]
    simp
  by_cases hne : slashes = []
  · rw [hhead, hnone hne, hne]
    exact ⟨_, rfl⟩
  · refine ⟨components (String.ofList tail), ?_⟩
    rw [hparts, components_slashes _ _ hslashes hne, ← hparts, hhead]
    split
    next hbare =>
      have hdir := components_slashes "" "" hslashes hne
      rw [String.empty_append, String.append_empty] at hdir
      rw [hdir, List.isEmpty_iff.mp hbare]
      rfl
    · rfl

theorem isEntry_absolute {cwd n : String} (hcwd : 0 < rootSlashes cwd) (src : String)
    (hn : n ∈ components (absolute cwd src)) : isEntry n = true := by
  have hroot : 0 < rootSlashes (join cwd src) := by
    have hzero {path : String} : 0 < rootSlashes path ↔ path.toList.head? = some '/' := by
      have := rootSlashes_eq_zero_iff path
      rw [Nat.pos_iff_ne_zero, Ne, this, not_not]
    rw [hzero] at hcwd ⊢
    unfold join
    split
    next hhead => simpa using hhead
    · split <;> simp [hcwd]
  have hrow : Entries ((components (join cwd src)).foldl (addComponent true) []).reverse :=
    fun c hc => isEntry_foldl (List.forall_mem_nil _) (fun c hc => isEntry_of_mem_components hc) c (List.mem_reverse.mp hc)
  have hnormal : absolute cwd src = "" ++ slashes (rootSlashes (join cwd src)) ++
      "/".intercalate ((components (join cwd src)).foldl (addComponent true) []).reverse := by
    obtain ⟨_, hk⟩ := Nat.exists_eq_add_of_lt hroot
    simp only [absolute, normalize, hk, Nat.zero_add, String.empty_append]
    simp [slashes, List.replicate_succ]
  rw [hnormal, slashes, components_slashes _ _ (fun c hc => (List.mem_replicate.mp hc).2) (by simpa using hroot.ne'),
    components_intercalate fun c hc => .inr (hrow c hc)] at hn
  rw [components_empty] at hn
  exact hrow n hn

theorem join_append (dir : String) {n ext : String} (h : isEntry n = true) :
    join dir n ++ ext = join dir (n ++ ext) := by
  have hne : n.toList ≠ [] := by simp_all [isEntry]
  have hhead : (n.toList.head? == some '/') = false :=
    beq_eq_false_iff_ne.mpr (head?_of_isEntry h)
  simp only [join, String.toList_append, List.head?_append_of_ne_nil _ hne, hhead, Bool.false_eq_true, if_false]
  split <;> simp only [String.append_assoc]

theorem targets_none (cwd : String) (isDir : String → Bool) (src : String) :
    targets cwd isDir src none none =
      let source := absolute cwd src
      let script := join (dirname source) (basename (splitExtension source).1 ++ ".js")
      ⟨script, script ++ ".map", relative source (dirname (script ++ ".map")), relative (script ++ ".map") (dirname source)⟩ := by
  have hscript (source : String) : scriptOf cwd isDir source none =
      (join (dirname source) (basename (splitExtension source).1 ++ ".js"), dirname source) := rfl
  have hmap (script : String) : mapOf cwd script none = script ++ ".map" := rfl
  simp only [targets_eq, hscript, hmap]

end Transpiler.Path
