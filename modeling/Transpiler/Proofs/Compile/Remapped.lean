import Transpiler.Proofs.Compile.Map

/-!
# Compilations on their own

Statements that are compiled on their own start from a session of their own, and all of their output maps to one node
(`traced_of_remap`). This holds as long as they define no classes, since the definition of an exception maps to its
class. So all of the definition of an exception has the place of its class (`compileIsolated_eq_ok`).
-/

namespace Transpiler.Compile

open Script (Js Mapping Offset Origin mappings?)
open Source (Info Ref Stmt)
open Source.Tree (allOf)

def isNoClass (i : Info) : Bool :=
  i.kind != "ClassDef"

theorem covers_of_remap {cfg : Config} {r : Ref} (hremap : cfg.remap = some r) (φ : Info → Bool) :
    Covers cfg φ (·.source = some r) := by
  have hall (x : Option Ref) : (cfg.origin x).source = some r := by
    rw [Config.origin, hremap]
    rfl
  exact ⟨hall _, hall _, fun _ _ _ => hall _, fun _ _ _ _ => hall _⟩

theorem definesException_eq_false {s : Stmt} (h : allOf isNoClass s.trees = true) : definesException s = false := by
  cases s with
  | classDef =>
    -- the kind of the node is that of a class
    obtain ⟨_, hkind⟩ := Stmt.info_of_allOf h (by simp)
    cases hkind
  | _ => rfl

section

variable {templates : Templates} {cfg : Config} {r : Ref} {body : List Stmt} {s s' : Session} {j : Js}

theorem traced_of_remap (hremap : cfg.remap = some r) (htemplates : TemplatesFit templates)
    (hproper : Source.areProper body = true) (hclass : allOf isNoClass (Source.stmtTrees body) = true)
    (h : compileBody templates cfg .top body s = .ok j s') : j.isBare = false ∧ j.Traced (·.source = some r) := by
  rw [← Site.place_top cfg] at h
  refine traced_compileBody htemplates (covers_of_remap hremap isNoClass).grounds ?_ .top ?_ h
  · rintro _ ⟨hs, -⟩ hexception
    rw [definesException_eq_false hs] at hexception
    cases hexception
  · intro s hs
    exact ⟨Source.allOf_stmtTrees.mp hclass s hs, Source.areProper_iff.mp hproper s hs⟩

def MapsTo (r : Ref) (j : Js) : Prop :=
  ∀ src dst : Offset, ∃ ms, mappings? src dst j.items = .ok ms ∧
    ∀ m ∈ ms, r.line = some (m.srcLine - src.line) ∧ m.srcCol = r.col + src.col

theorem mapsTo_of_traced (hstatements : IsStatements j) (h : j.Traced (·.source = some r)) : MapsTo r j := by
  intro src dst
  have hbare : j.isBare = false := by
    obtain ⟨_, _, rfl⟩ := hstatements
    rfl
  have hitems : Script.ItemsTraced (·.source = some r) False j.items := by
    simpa [hbare] using j.traced_items h
  obtain ⟨ms, hms, hfragments⟩ : ∃ ms, Script.Mapped src dst 1 j.items ms ∧ _ :=
    exists_mapped (isLine_of_mem_items hstatements) hitems
  refine ⟨ms, Script.mappings?_eq_ok.mpr hms, ?_⟩
  intro m hm
  obtain ⟨f, _, ⟨-, _, ho, hline, hcol⟩, -, rfl⟩ := hfragments m hm
  have hsource : r.line = some f.srcLine := by
    simp only [Origin.line?, ho] at hline
    split at hline
    · cases hline
    · exact hline
  constructor
  · rw [hsource, Script.Fragment.toMapping, Int.add_sub_cancel]
  · rw [Script.Fragment.toMapping, hcol, ho]
    rfl

/-! ### Exceptions -/

theorem compileStmt_of_definesException {site : Site} {cls : Stmt} (hcls : definesException cls = true)
    (h : compileStmt templates cfg (site.place cfg) cls s = .ok j s') :
    s' = s ∧ ∀ t, compileStmt templates cfg (site.place cfg) cls t = .ok j t := by
  cases cls with
  | classDef p name bases keywords body ds =>
    obtain ⟨x, hx, _, hg⟩ : ∃ x, compileStmt templates cfg (site.place cfg) (.classDef p name bases keywords body ds) =
      inFrame x ∧ Does templates cfg x _ := exists_does_compileStmt _ rfl
    have hparts : stmtParts site (.classDef p name bases keywords body ds) = [] := by
      rw [stmtParts]
      exact if_pos hcls
    rw [hparts] at hg
    rw [hx] at h
    obtain ⟨t, hstep, rfl⟩ := inFrame_eq_ok_iff.mp h
    obtain ⟨_, hvs, hj⟩ := (hg _ _ _).mp hstep
    obtain ⟨rfl, rfl⟩ := pure_eq_ok_iff.mp hvs
    refine ⟨s.left_entered, fun t => ?_⟩
    rw [hx]
    exact inFrame_eq_ok_iff.mpr ⟨t.entered, (hg _ _ _).mpr ⟨[], rfl, hj⟩, t.left_entered.symm⟩
  | _ => cases hcls

section

variable {here : Place} {cls : Stmt} (hcls : definesException cls = true)
  (h : compileStmt compileTemplate cfg here cls s = .ok j s')

include hcls h

theorem exists_template_of_definesException : ∃ name o items,
    compileTemplate { cfg with remap := some cls.ref, snippets := false, mapped := true } (exceptionSource name) =
        .ok (.statements o items) ∧ j = .statements (cfg.origin (some cls.ref)) items := by
  cases cls with
  | classDef p name bases keywords body ds =>
    rw [compileStmt] at h
    obtain ⟨t, hclass, -⟩ := inFrame_eq_ok_iff.mp h
    obtain ⟨-, t', -, hclass⟩ := bind_eq_ok_iff.mp hclass
    replace hclass : compileExceptionClass compileTemplate cfg ⟨p, name, bases, keywords, ds⟩ t' = .ok j t := by
      have hexception : isExceptionClass ⟨p, name, bases, keywords, ds⟩ body = true := hcls
      rwa [if_pos hexception] at hclass
    obtain ⟨_, _, hk, hclass⟩ := bind_eq_ok_iff.mp hclass
    obtain ⟨hk, -⟩ := ofExcept_eq_ok_iff.mp hk
    obtain ⟨o, items, rfl⟩ := templatesFit_compileTemplate.isStatements _ _ _ hk
    obtain ⟨rfl, -⟩ := pure_eq_ok_iff.mp hclass
    exact ⟨name, o, items, hk, rfl⟩
  | _ => cases hcls

theorem traced_of_definesException (hremap : cfg.remap = none) :
    IsStatements j ∧ j.Traced (·.source = some cls.ref) := by
  obtain ⟨_, _, items, htemplate, rfl⟩ := exists_template_of_definesException hcls h
  obtain ⟨_, hbody⟩ := result_eq_ok.mp htemplate
  obtain ⟨-, htraced⟩ := traced_of_remap rfl (templatesFit_error _) rfl rfl hbody
  refine ⟨⟨_, items, rfl⟩, ?_⟩
  have hsource : (cfg.origin (some cls.ref)).source = some cls.ref := by
    rw [Config.origin, hremap]
    rfl
  simp only [Js.Traced] at htraced ⊢
  exact ⟨hsource, htraced.2⟩

end

end

/-- Statements without classes that are compiled on their own leave the session around them as it is, and every node
of their output, at any depth, has the node as its origin that they are mapped to; so all of their mappings have its
place. In the same way, the definition of an exception leaves the session as it is and does not depend on it, and all
of its mappings have the place of its class. -/
theorem compileIsolated_eq_ok (cfg : Config) (s s' : Session) (j : Js) :
    (∀ r body, Source.areProper body = true → allOf isNoClass (Source.stmtTrees body) = true →
      (ofExcept (compileIsolated cfg (some r) body) : Run Js) s = .ok j s' →
      s' = s ∧ j.Traced (·.source = some r) ∧ MapsTo r j) ∧
    ∀ site cls, cfg.remap = none → definesException cls = true →
      compileStmt compileTemplate cfg (Site.place cfg site) cls s = .ok j s' →
      s' = s ∧ (∀ t, compileStmt compileTemplate cfg (Site.place cfg site) cls t = .ok j t) ∧
        j.Traced (·.source = some cls.ref) ∧ MapsTo cls.ref j := by
  constructor
  · intro r body hproper hclass h
    obtain ⟨hj, rfl⟩ := ofExcept_eq_ok_iff.mp h
    obtain ⟨t, hbody⟩ := result_eq_ok.mp hj
    obtain ⟨-, htraced⟩ := traced_of_remap rfl templatesFit_compileTemplate hproper hclass hbody
    exact ⟨rfl, htraced, mapsTo_of_traced (yields_compileBody _ _ _ _ _ _ _ hbody) htraced⟩
  · intro site cls hremap hcls h
    obtain ⟨rfl, hany⟩ := compileStmt_of_definesException hcls h
    obtain ⟨hstatements, htraced⟩ := traced_of_definesException hcls h hremap
    exact ⟨rfl, hany, htraced, mapsTo_of_traced hstatements htraced⟩

/-- A loop of another text that is mapped to the second line, and an exception on the third. -/
theorem compileIsolated_loopAndException :
    let loop : List Stmt := [.forLoop (some ⟨7, 0⟩) false (.name (some ⟨7, 4⟩) "x") (.name (some ⟨7, 9⟩) "xs")
      [.expr (some ⟨8, 4⟩) (.name (some ⟨8, 4⟩) "x")] []]
    let node : Ref := .uncited "Name" (some ⟨2, 5⟩)
    let cls : Stmt := .classDef (some ⟨3, 0⟩) "Mistake" [.name (some ⟨3, 14⟩) "Exception"] [] [.pass (some ⟨4, 4⟩)] []
    (∃ j, (ofExcept (compileIsolated (.standard true false) (some node) loop) : Run Js) .start = .ok j .start ∧
      MapsTo node j ∧ (mappings? .zero .zero j.items).toOption.any (!·.isEmpty) = true) ∧
    ∃ j, compileStmt compileTemplate (.standard true false) .top cls .start = .ok j .start ∧ MapsTo cls.ref j ∧
      cls.ref.line = some 3 := by
  intro loop node cls
  constructor
  · obtain ⟨-, -, hmaps⟩ := (compileIsolated_eq_ok (.standard true false) .start .start _).1 node loop rfl rfl rfl
    exact ⟨_, rfl, hmaps, by decide +kernel⟩
  · obtain ⟨-, -, -, hmaps⟩ := (compileIsolated_eq_ok (.standard true false) .start .start _).2 .top cls rfl rfl rfl
    exact ⟨_, rfl, hmaps, rfl⟩

end Transpiler.Compile
