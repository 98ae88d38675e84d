import Transpiler.Proofs.Compile.Trees

/-!
# Where compiled output comes from

If the source satisfies a condition, the origins of the output that is made for it do (`Task.traced_run`), and no
statement is a bare value. The main statement is `traced_compileScript`: all of a
script is traced, the run-time functions in front of it included.
-/

namespace Transpiler.Compile

open Script (AllTraced Js NoBare Origin)
open Source (Expr Info Ref Stmt Tree areProper_iff)
open Source.Tree (allOf)

variable {templates : Templates} {cfg : Config} {site : Site} {s s' : Session} {φ : Info → Bool}
  {E : Expr → Prop} {S : Stmt → Prop} {Q : Origin → Prop} {body : List Stmt} {j : Js}

/-! ### Tasks and bodies -/

section

variable (htemplates : TemplatesFit templates) (hg : Grounds cfg E S Q)
  (ht : ∀ s, S s → definesException s = true → TemplatesTraced templates cfg Q)

include htemplates hg ht

theorem Task.traced_run {u : Task} {v : Value} (hu : u.All E S fun _ => True)
    (h : u.run templates cfg s = .ok v s') : MaterialTraced Q (u.material cfg v) := by
  let D : Demands templates cfg :=
    { Demands.none templates cfg with
      placed := True, exprs := E, stmts := S, origin := Q, grounds := fun _ => hg, template := fun _ => ht }
  induction u using Task.induction cfg generalizing s v s' with
  | act a =>
    cases a with
    | draw =>
      obtain ⟨name, hname, rfl⟩ := map_eq_ok_iff.mp h
      obtain ⟨hgenerated, -⟩ := ends_newName s name s' hname
      obtain ⟨_, -, rfl⟩ := Option.map_eq_some_iff.mp hgenerated
      simp [material]
    | _ =>
      unfold material
      split <;> simp_all
  | node u hact ih =>
    cases hformatted : u.isFormatted with
    | true =>
      unfold isFormatted at hformatted
      split at hformatted
      · obtain ⟨_, hj, rfl⟩ := map_eq_ok_iff.mp h
        simp only [compileExpr, bind_eq_ok_iff, pure_eq_ok_iff] at hj
        obtain ⟨_, _, -, _, _, -, rfl, -⟩ := hj
        simpa [material] using hg.expr _ hu.2
      · cases hformatted
    | false =>
      obtain ⟨_, _, hvs, -, hwraps⟩ := exists_wraps (D := D) rfl False.elim (fun _ => hu) htemplates hact hformatted h
      have hextra : MaterialTraced Q (u.extra cfg) := by cases u <;> simp [extra]
      refine hwraps.traced trivial (allMaterial_append.mpr ⟨hextra, ?_⟩)
      exact hvs.allMaterial fun w hw _ _ _ hrun => ih w hw (hu.parts hg.hereditary hw) hrun

theorem traced_compileBody (hsite : site.All fun _ => E) (hbody : ∀ s ∈ body, S s)
    (h : compileBody templates cfg (site.place cfg) body s = .ok j s') : j.isBare = false ∧ j.Traced Q := by
  have hn := hg.none
  obtain ⟨js, hruns, rfl, -⟩ := exists_runsTo_compileBody h
  have htraced := hruns.allMaterial (P := Material.Traced Q) fun u hu _ _ _ hrun => by
    obtain ⟨stmt, hstmt, rfl⟩ := mem_stmtTasks.mp hu
    exact Task.traced_run htemplates hg ht ⟨hsite, hbody stmt hstmt⟩ hrun
  rw [hruns.materials_stmts] at htraced
  have hjs : NoBare js ∧ AllTraced Q js := materialTraced_stmts |>.mp htraced
  unfold declaration
  split <;> simp [hn, hjs]

end

/-! ### Scripts -/

def isUnplaced (i : Info) : Bool :=
  i.pos.isNone

open Source.Build (give item set text var) in
theorem forall_mem_libraryBody {P : Stmt → Prop} (fs : List Snippet) (hsource : ∀ f : Snippet, P f.source)
    (hset : ∀ name, P (set (item (var "container") (text name)) (var name)))
    (hgive : P (give (var "container"))) : ∀ s ∈ libraryBody fs, P s := by
  simp only [libraryBody, List.mem_append, List.mem_map, List.mem_singleton]
  rintro _ ((⟨f, -, rfl⟩ | ⟨f, -, rfl⟩) | rfl)
  · exact hsource f
  · exact hset f.name
  · exact hgive

theorem librarySource_unplaced (fs : List Snippet) : allOf isUnplaced (Source.stmtTrees (librarySource fs)) = true := by
  have hbody := Source.allOf_stmtTrees.mpr (forall_mem_libraryBody (Snippet.all.filter fs.contains)
    (P := fun s => allOf isUnplaced s.trees = true) (fun f => by cases f <;> rfl) (fun f => rfl) rfl)
  rw [Source.allOf_stmtTrees]
  simp only [librarySource, List.forall_mem_cons]
  refine ⟨?_, rfl, rfl, by simp⟩
  simp only [Source.Build.define, Stmt.trees, Tree.allOf_cons, Tree.all_plain, Tree.allOf_append, hbody]
  rfl

theorem librarySource_proper (fs : List Snippet) : Source.areProper (librarySource fs) = true := by
  have hbody := areProper_iff.mpr (forall_mem_libraryBody (Snippet.all.filter fs.contains)
    (P := fun s => s.isProper = true) (fun f => by cases f <;> rfl) (fun f => rfl) rfl)
  rw [areProper_iff]
  simp only [librarySource, List.forall_mem_cons]
  exact ⟨hbody, rfl, rfl, by simp⟩

/-- A condition on origins that only asks for their place in the source, if they have one. -/
structure AsksPlace (Q : Origin → Prop) : Prop where
  congr (o o' : Origin) : o.source = o'.source → Q o → Q o'
  unplaced (o : Origin) : o.line? = none → Q o

variable (hQ : AsksPlace Q)

include hQ

theorem templatesTraced_compileTemplate (hremap : cfg.remap = none) : TemplatesTraced compileTemplate cfg Q := by
  intro r name j hr h
  have hall (x : Option Ref) : Q (Config.origin { cfg with remap := some r, snippets := false, mapped := true } x) :=
    hQ.congr (cfg.origin (some r)) _ (by simp [Config.origin, hremap]) hr
  have hc : Covers { cfg with remap := some r, snippets := false, mapped := true } (fun _ => true) Q :=
    ⟨hall _, hall _, fun _ _ _ => hall _, fun _ _ _ _ => hall _⟩
  have hproper : Source.areProper (exceptionSource name) = true := rfl
  obtain ⟨_, hbody⟩ := result_eq_ok.mp h
  rw [← Site.place_top] at hbody
  have hnone : TemplatesTraced (fun _ _ => .error .notSource)
      { cfg with remap := some r, snippets := false, mapped := true } Q := by
    intro _ _ _ _ herror
    cases herror
  exact traced_compileBody (templatesFit_error _) hc.grounds (fun _ _ _ => hnone) .top
    (fun s hs => ⟨Tree.allOf_true _, areProper_iff.mp hproper s hs⟩) hbody

theorem traced_compileModule (hg : Grounds cfg E S Q) (hremap : cfg.remap = none) (hsite : site.All fun _ => E)
    (hbody : ∀ s ∈ body, S s) {c : Compiled} (h : compileModule cfg (site.place cfg) body = .ok c) :
    c.script.isBare = false ∧ c.script.Traced Q :=
  traced_compileBody templatesFit_compileTemplate hg (fun _ _ _ => templatesTraced_compileTemplate hQ hremap) hsite
    hbody (compileBody_of_compileModule h)

theorem traced_compileLibrary {fs : List Snippet} (h : compileLibrary cfg fs = .ok j) :
    j.isBare = false ∧ j.Traced Q := by
  have hc : Covers { cfg with remap := none, snippets := false, mapped := false } isUnplaced Q := by
    refine ⟨hQ.unplaced _ rfl, hQ.unplaced _ rfl, fun i _ hi => hQ.unplaced _ ?_, fun i d hi hd => hQ.unplaced _ ?_⟩
    · have hpos : i.pos = none := by simpa [isUnplaced] using hi
      simp [Origin.line?, Config.origin, hpos]
    · have hpos : d.pos = none := by
        by_cases habsent : d = .absent
        · rw [habsent]; rfl
        · simpa [isUnplaced] using d.info_of_allOf hd habsent
      simp [Origin.line?, Config.origin, hpos]
  obtain ⟨_, hbody⟩ := result_eq_ok.mp h
  rw [← Site.place_top] at hbody
  exact traced_compileBody templatesFit_compileTemplate hc.grounds
    (fun _ _ _ => templatesTraced_compileTemplate hQ rfl) .top
    (fun s hs => ⟨Source.allOf_stmtTrees.mp (librarySource_unplaced fs) s hs,
      areProper_iff.mp (librarySource_proper fs) s hs⟩) hbody

theorem traced_withLibrary {c : Compiled} (hscript : c.script.isBare = false ∧ c.script.Traced Q)
    {script : Js} (h : c.withLibrary cfg = .ok script) : script.isBare = false ∧ script.Traced Q := by
  unfold Compiled.withLibrary at h
  split at h
  · cases h
    exact hscript
  · obtain ⟨_, hlibrary, h⟩ := bind_eq_ok.mp h
    cases h
    have hfirst := traced_compileLibrary hQ hlibrary
    unfold before
    split
    next heq =>
      rw [heq] at hscript
      simp only [Js.Traced] at hscript hfirst
      refine ⟨rfl, ?_⟩
      simp [Js.Traced, hfirst.2, hscript.2]
    · exact hscript

theorem traced_compileScript {r : Request} (hg : Grounds (.standard r.es6 r.stage3) E S Q)
    (hbody : ∀ s ∈ body, S s) {script : Js} (h : compileScript r body = .ok script) :
    script.isBare = false ∧ script.Traced Q := by
  simp only [compileScript, bind_eq_ok] at h
  obtain ⟨⟨_, _⟩, hselect, _, hcompiled, h⟩ := h
  obtain ⟨_, rfl, -, hsite, hinner⟩ := hg.hereditary.exists_site hselect hbody
  exact traced_withLibrary hQ (traced_compileModule hQ hg rfl hsite hinner hcompiled) h

end Transpiler.Compile
