import Transpiler.Command.Run
import Transpiler.Proofs.Command.Names
import Transpiler.Proofs.Compile.Places

/-!
# Files that cannot be compiled

What a file is compiled to is known before anything is written (`outputsOf`). So a file that cannot be compiled leaves
the disk as it is, and the command ends there: the outputs of the files before it are written, and nothing else is
changed (`run_of_failing`).
-/

namespace Transpiler

variable {rows : List (List String)} {cwd file : String} {files done rest : List String}

namespace Command

open Act
open Compile (Output Request SourceText compileText)

variable {d d' d'' : Disk} {path text src : String} {row : List String}

/-! ### Writing -/

theorem FileTree.document?_find?_put? {doc : Document} {t t' : FileTree} (h : put? (.file doc) row t = some t')
    (hnone : ∀ v, t.find? row = some v → v.isDir = false) (x : List String) :
    (t'.find? x).bind document? = if x = row then some doc else (t.find? x).bind document? := by
  have hbelow {v : FileTree} (hv : v.isDir = false) (n : String) (y : List String) : v.find? (n :: y) = none := by
    cases v with
    | file => rfl
    | dir => cases hv
  induction row generalizing t t' x with
  | nil => cases t <;> cases h
  | cons name rest ih =>
    cases t with
    | file => cases h
    | dir es =>
      obtain ⟨inner', hinner', rfl⟩ : ∃ inner', (∀ y, (inner'.find? y).bind document? =
          if y = rest then some doc else ((dir es).find? (name :: y)).bind document?) ∧
            t' = dir (setEntry name inner' es) := by
        cases rest with
        | nil =>
          cases h
          refine ⟨_, fun y => ?_, rfl⟩
          cases y with
          | nil => rfl
          | cons =>
            rw [hbelow rfl, if_neg (List.cons_ne_nil _ _), find?]
            cases hchild : (dir es).child? name with
            | none => rfl
            | some v => simp [hbelow (hnone v (by simp [find?, hchild]))]
        | cons =>
          obtain ⟨_, hinner, h⟩ := Option.bind_eq_some_iff.mp h
          obtain ⟨inner', hput, h⟩ := Option.bind_eq_some_iff.mp h
          cases h
          refine ⟨inner', fun y => ?_, rfl⟩
          simp only [find?, hinner, Option.bind_some]
          exact ih hput (fun v hv => hnone v (by simpa [find?, hinner] using hv)) y
      cases x with
      | nil => rfl
      | cons n =>
        rw [find?, child?_setEntry]
        by_cases hn : name = n
        · subst hn
          simp [hinner']
        · simp [hn, Ne.symm hn, find?]

namespace Disk

def fileAt (d : Disk) (row : List String) : Option Document :=
  (d.root.find? row).bind FileTree.document?

def rowOf (cwd path : String) : List String :=
  (if Path.rootSlashes path > 0 then [] else Path.components cwd) ++ Path.components path

theorem locate?_of_notMem (d : Disk) (h : ".." ∉ Path.components path) : d.locate? path = some (rowOf d.cwd path) := by
  have hfollow (back cs : List String) (hcs : ".." ∉ cs) : follow d.root back cs = some (back.reverse ++ cs) := by
    induction cs generalizing back with
    | nil => simp [follow]
    | cons _ _ ih =>
      rw [List.mem_cons, not_or] at hcs
      rw [follow, if_neg (Ne.symm hcs.1), ih _ hcs.2]
      simp
  rw [locate?, hfollow _ _ h, List.reverse_reverse, rowOf]

theorem document?_of_locate? (h : d.locate? path = some row) : d.document? path = d.fileAt row := by
  rw [document?, lookup?, h]
  rfl

structure Leaves (d : Disk) (rows : List (List String)) (d' : Disk) : Prop where
  cwd : d'.cwd = d.cwd
  locate : ∀ path row, d.locate? path = some row → d'.locate? path = some row
  other : ∀ row, row ∉ rows → d'.fileAt row = d.fileAt row
  file : ∀ row, (d.fileAt row).isSome = true → (d'.fileAt row).isSome = true

theorem Leaves.refl (d : Disk) : Leaves d [] d :=
  ⟨rfl, fun _ _ => id, fun _ _ => rfl, fun _ => id⟩

theorem Leaves.trans {rows' : List (List String)} (h : d.Leaves rows d') (h' : d'.Leaves rows' d'') :
    d.Leaves (rows ++ rows') d'' where
  cwd := h'.cwd.trans h.cwd
  locate path row hrow := h'.locate path row (h.locate path row hrow)
  other row hrow := by
    rw [List.mem_append, not_or] at hrow
    exact (h'.other row hrow.2).trans (h.other row hrow.1)
  file row hrow := h'.file row (h.file row hrow)

theorem leaves_write (h : d.write path text = .ok d') (hrow : d.locate? path = some row) :
    d.Leaves [row] d' ∧ d'.fileAt row = some ⟨text, none⟩ := by
  have hext := extends_write h
  have hfile (x : List String) : d'.fileAt x = if x = row then some ⟨text, none⟩ else d.fileAt x := by
    unfold write at h
    split at h
    · cases h
    next hdir =>
      rw [put, hrow] at h
      dsimp only at h
      split at h
      next hput =>
        cases h
        refine FileTree.document?_find?_put? hput (fun v hv => ?_) x
        simpa [isDir, lookup?, hrow, hv] using hdir
      · split at h <;> cases h
  refine ⟨⟨hext.cwd, fun _ _ => locate?_of_extends hext, fun x hx => ?_, fun x hx => ?_⟩, by rw [hfile, if_pos rfl]⟩
  · rw [hfile, if_neg (by simpa using hx)]
  · rw [hfile]
    split
    · rfl
    · exact hx

def writeAll (d : Disk) (outs : List (String × String)) : Except Fault Disk :=
  outs.foldlM (fun d out => d.write out.1 out.2) d

theorem leaves_writeAll {outs : List (String × String)} (h : d.writeAll outs = .ok d')
    (hplain : ∀ out ∈ outs, ".." ∉ Path.components out.1)
    (hrows : (outs.map fun out => rowOf d.cwd out.1).Nodup) :
    d.Leaves (outs.map fun out => rowOf d.cwd out.1) d' ∧
      ∀ out ∈ outs, d'.fileAt (rowOf d.cwd out.1) = some ⟨out.2, none⟩ := by
  induction outs generalizing d with
  | nil =>
    cases h
    exact ⟨.refl _, by simp⟩
  | cons _ _ ih =>
    rw [List.forall_mem_cons] at hplain
    rw [List.map_cons, List.nodup_cons] at hrows
    obtain ⟨_, hwrite, hrest⟩ := bind_eq_ok.mp h
    obtain ⟨hleaves, hfile⟩ := leaves_write hwrite (d.locate?_of_notMem hplain.1)
    have hlater := ih hrest hplain.2
    rw [hleaves.cwd] at hlater
    obtain ⟨hleaves', hfiles⟩ := hlater hrows.2
    refine ⟨hleaves.trans hleaves', List.forall_mem_cons.mpr ⟨?_, hfiles⟩⟩
    rw [hleaves'.other _ hrows.1, hfile]

end Disk

/-! ### Names of outputs -/

def outputNames (o : Options) (cwd src : String) : List String :=
  let t := Path.targets cwd (fun _ => false) src none none
  if o.inlineMap then [t.script] else [t.script, t.map]

def outputRows (o : Options) (cwd src : String) : List (List String) :=
  (outputNames o cwd src).map (Disk.rowOf cwd)

theorem exists_targets_eq (hcwd : 0 < Path.rootSlashes cwd) (isDir : String → Bool) (src : String) :
    ∃ dir name, ".." ∉ Path.components dir ∧ Path.isEntry name = true ∧
      (Path.targets cwd isDir src none none).script = Path.join dir name ∧
      (Path.targets cwd isDir src none none).map = Path.join dir (name ++ ".map") := by
  have hname := Path.isEntry_script (Path.splitExtension (Path.absolute cwd src)).1
  obtain ⟨_, hmore⟩ := Path.components_dirname (Path.absolute cwd src)
  refine ⟨Path.dirname (Path.absolute cwd src), _, fun hmem => ?_, hname, ?_, ?_⟩
  · exact Path.ne_up_of_isEntry (Path.isEntry_absolute hcwd src (hmore ▸ List.mem_append_left _ hmem)) rfl
  · rw [Path.targets_none]
  · rw [Path.targets_none, ← Path.join_append _ hname]

theorem plain_outputNames (o : Options) (hcwd : 0 < Path.rootSlashes cwd) (src : String) :
    (∀ n ∈ outputNames o cwd src, ".." ∉ Path.components n) ∧ (outputRows o cwd src).Nodup := by
  obtain ⟨dir, name, hdir, hname, hscript, hmap⟩ := exists_targets_eq hcwd (fun _ => false) src
  have hnamed : Path.isEntry (name ++ ".map") = true :=
    Path.isEntry_map (Path.notMem_of_isEntry hname)
  have hcomponents {n : String} (hn : Path.isEntry n = true) :
      Path.components (Path.join dir n) = Path.components dir ++ [n] := by
    rw [Path.components_join _ (Path.head?_of_isEntry hn), Path.components_of_isEntry hn]
  have hplain {n : String} (hn : Path.isEntry n = true) : ".." ∉ Path.components (Path.join dir n) := by
    rw [hcomponents hn, List.mem_append, List.mem_singleton]
    exact fun hmem => hmem.elim hdir (Path.ne_up_of_isEntry hn).symm
  have hlast {n : String} (hn : Path.isEntry n = true) : (Disk.rowOf cwd (Path.join dir n)).getLast? = some n := by
    simp [Disk.rowOf, hcomponents hn]
  have hne : Disk.rowOf cwd (Path.join dir name) ≠ Disk.rowOf cwd (Path.join dir (name ++ ".map")) := by
    intro heq
    have hsame := (hlast hname).symm.trans ((congrArg List.getLast? heq).trans (hlast hnamed))
    have hlength := congrArg String.length (Option.some.inj hsame)
    simp at hlength
  unfold outputRows outputNames
  dsimp only
  rw [hscript, hmap]
  split
  · exact ⟨by simpa using hplain hname, by simp⟩
  · exact ⟨by simpa using ⟨hplain hname, hplain hnamed⟩, by simpa using hne⟩

/-! ### Compiling a file -/

variable {o : Options} {w w' : World} {outs : List (String × String)} {out : Output} {fault : Fault}

def translation (o : Options) (d : Disk) (src : String) : Except Fault Output :=
  match d.document? src with
  | none => .error (.missingFile src)
  | some doc => compileText
    { Request.standard o.es6 o.stage3 with filename := some (Path.targets d.cwd d.isDir src none none).source }
    (.ofLines ((Text.keepLines (Text.unifyEnds doc.text.toList)).map String.ofList) doc.tree)

def outputsOf (o : Options) (d : Disk) (src : String) (out : Output) : Except Fault (List (String × String)) := do
  let t := Path.targets d.cwd d.isDir src none none
  if o.inlineMap then
    let comment ← out.map.stringifyInline
    return [(t.script, out.text ++ comment)]
  let map ← out.map.stringify
  return [(t.script, out.text ++ mapComment t.mapFromScript), (t.map, map)]

section

variable {α : Type} {a : α} {e : Except Fault α}

end

theorem map_fst_outputsOf (h : outputsOf o d src out = .ok outs) : outs.map (·.1) = outputNames o d.cwd src := by
  unfold outputsOf at h
  rw [Path.targets_none, ← Path.targets_none d.cwd fun _ => false] at h
  unfold outputNames
  generalize Path.targets d.cwd (fun _ => false) src none none = t at h
  split at h
  next hinline =>
    obtain ⟨_, -, h⟩ := bind_eq_ok.mp h
    cases h
    rw [if_pos hinline]
    rfl
  next hinline =>
    obtain ⟨_, -, h⟩ := bind_eq_ok.mp h
    cases h
    rw [if_neg hinline]
    rfl

/-! ### Compiling files -/

def compileEach (o : Options) (d : Disk) (files : List String) : Except Fault Disk :=
  files.foldlM (fun d src => do d.writeAll (← outputsOf o d src (← translation o d src))) d

theorem compileEach_cons_eq_ok (h : compileEach o d (src :: files) = .ok d') :
    ∃ out outs d₁, translation o d src = .ok out ∧ outputsOf o d src out = .ok outs ∧ d.writeAll outs = .ok d₁ ∧
      compileEach o d₁ files = .ok d' := by
  obtain ⟨d₁, hstep, h⟩ := bind_eq_ok.mp (show (do d.writeAll (← outputsOf o d src (← translation o d src))) >>=
    (compileEach o · files) = .ok d' from h)
  obtain ⟨out, hout, hstep⟩ := bind_eq_ok.mp hstep
  obtain ⟨outs, houts, hstep⟩ := bind_eq_ok.mp hstep
  exact ⟨out, outs, d₁, hout, houts, hstep, h⟩

theorem leaves_outputsOf (hcwd : 0 < Path.rootSlashes d.cwd) (houts : outputsOf o d src out = .ok outs)
    (h : d.writeAll outs = .ok d') : d.Leaves (outputRows o d.cwd src) d' ∧
      ∀ out ∈ outs, d'.fileAt (Disk.rowOf d.cwd out.1) = some ⟨out.2, none⟩ := by
  have hnames := map_fst_outputsOf houts
  obtain ⟨hplain, hrows⟩ := plain_outputNames o hcwd src
  rw [outputRows, ← hnames, List.map_map] at hrows ⊢
  rw [← hnames, List.forall_mem_map] at hplain
  exact Disk.leaves_writeAll h hplain hrows

theorem leaves_compileEach (hcwd : 0 < Path.rootSlashes d.cwd)
    (h : compileEach o d files = .ok d') : d.Leaves (files.flatMap (outputRows o d.cwd)) d' := by
  induction files generalizing d with
  | nil =>
    cases h
    exact .refl _
  | cons _ _ ih =>
    obtain ⟨_, _, _, -, houts, hwrite, h⟩ := compileEach_cons_eq_ok h
    have hleaves := (leaves_outputsOf hcwd houts hwrite).1
    have hlater := ih (hleaves.cwd ▸ hcwd) h
    rw [hleaves.cwd] at hlater
    exact hleaves.trans hlater

section

variable (hes5 : o.es5 = false) (houtput : o.output = none)

include hes5 houtput

end

theorem exists_turn {before after : List String} (hcwd : 0 < Path.rootSlashes d.cwd)
    (h : compileEach o d (before ++ src :: after) = .ok d')
    (hapart : ∀ row ∈ outputRows o d.cwd src, row ∉ after.flatMap (outputRows o d.cwd)) :
    ∃ d₀ out outs, compileEach o d before = .ok d₀ ∧ translation o d₀ src = .ok out ∧
      outputsOf o d₀ src out = .ok outs ∧ outs.map (·.1) = outputNames o d.cwd src ∧
      ∀ out ∈ outs, d'.document? out.1 = some ⟨out.2, none⟩ := by
  rw [compileEach, List.foldlM_append] at h
  obtain ⟨d₀, hbefore, h⟩ := bind_eq_ok.mp h
  obtain ⟨out, outs, _, hout, houts, hwrite, hafter⟩ := compileEach_cons_eq_ok h
  have hcwd₀ := (leaves_compileEach hcwd hbefore).cwd
  obtain ⟨hleaves, hfiles⟩ := leaves_outputsOf (hcwd₀ ▸ hcwd) houts hwrite
  have hcwd₁ := hleaves.cwd.trans hcwd₀
  have hlater := leaves_compileEach (hcwd₁ ▸ hcwd) hafter
  have hnames := map_fst_outputsOf houts
  rw [hcwd₀] at hnames hfiles
  refine ⟨d₀, out, outs, hbefore, hout, houts, hnames, fun out hmem => ?_⟩
  have hname : out.1 ∈ outputNames o d.cwd src := hnames ▸ List.mem_map_of_mem hmem
  have hrow := d'.locate?_of_notMem ((plain_outputNames o hcwd src).1 _ hname)
  rw [hlater.cwd, hcwd₁] at hrow
  rw [hcwd₁] at hlater
  rw [Disk.document?_of_locate? hrow, hlater.other _ (hapart _ (List.mem_map_of_mem hname)), hfiles out hmem]

end Command

end Transpiler
