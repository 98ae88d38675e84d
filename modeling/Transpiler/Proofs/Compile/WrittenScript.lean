import Transpiler.Proofs.Compile.Monotone

/-!
# What is written for a script

A script matches the marks of the statements that a request selects and, if there are run-time
functions in front of it, those of the library (`exists_matches_compileScript`). The library uses no
feature of the newer dialect.
-/

namespace Transpiler.Compile

open Script (Js Origin)
open Source (Stmt)

variable {cfg : Config} {here : Place} {spot : Spot} {body : List Stmt} {compiled : Compiled} {library script : Js}

theorem templatesMatch_compileTemplate : TemplatesMatch compileTemplate templateMarks := by
  have hnone : TemplatesMatch (fun _ _ => .error .notSource) fun _ _ => [] := by
    rintro _ _ _ ⟨⟩
  intro _ body _ hj
  exact (emits_compileBody hnone .top body).result rfl hj

theorem matches_compileModule (hh : here.Fits cfg.es6 spot) (hcaught : spot.caught = none)
    (h : compileModule cfg here body = .ok compiled) :
    Matches cfg.es6 (bodyMarks templateMarks cfg spot body) compiled.script.traits := by
  have hbody := emits_compileBody templatesMatch_compileTemplate hh body
  rw [hcaught] at hbody
  unfold compileModule at h
  split at h
  next hrun =>
    cases h
    exact (hbody _ rfl _ _ hrun).2
  · cases h

theorem matches_compileLibrary {fs : List Snippet} (h : compileLibrary cfg fs = .ok library) :
    Matches cfg.es6 (libraryMarks cfg fs) library.traits :=
  (emits_compileBody templatesMatch_compileTemplate .top _).result rfl h

/-! ### Libraries -/

theorem traits_before (hlibrary : IsStatements library) (hscript : IsStatements script) :
    (before library script).traits = library.traits ++ script.traits := by
  obtain ⟨_, _, rfl⟩ := hlibrary
  obtain ⟨_, _, rfl⟩ := hscript
  simp [before, Js.traits]

def IsLibrary (cfg : Config) (ms : List Mark) : Prop :=
  ms = [] ∨ ∃ fs, ms = libraryMarks cfg fs

theorem exists_matches_withLibrary {ms : List Mark}
    (hcompiled : Matches cfg.es6 ms compiled.script.traits) (hstatements : IsStatements compiled.script)
    (h : compiled.withLibrary cfg = .ok script) :
    ∃ lm, IsLibrary cfg lm ∧ Matches cfg.es6 (lm ++ ms) script.traits := by
  rcases withLibrary_eq_ok_iff.mp h with ⟨-, rfl⟩ | ⟨-, _, hlibrary, rfl⟩
  · exact ⟨[], .inl rfl, hcompiled⟩
  · refine ⟨libraryMarks cfg (compiled.session.snippets.getD []), .inr ⟨_, rfl⟩, ?_⟩
    rw [traits_before ((yields_compileBody _ _ _ _).result hlibrary) hstatements]
    exact (matches_compileLibrary hlibrary).append hcompiled

/-! ### Scripts -/

theorem bodyPlace_fits (cfg : Config) (s : Stmt) : (bodyPlace cfg s).Fits cfg.es6 (bodySpot cfg s) := by
  cases s with
  | classDef _ _ bases =>
    refine Place.Fits.member .top ?_
    cases bases.head? with
    | none => exact .none
    | some base =>
      exact .some ⟨fun _ => emits_compileExpr .top base, (yields_shape_compileExpr cfg .top base).imp fun _ hj => hj.1⟩
  | _ => exact .top

theorem caught_bodySpot (cfg : Config) (s : Stmt) : (bodySpot cfg s).caught = none := by
  unfold bodySpot
  split <;> rfl

theorem exists_selectedMarks_eq {bodyOnly : Bool} {inner : List Stmt} {place : Place}
    (h : selectBody cfg bodyOnly body = .ok (place, inner)) :
    ∃ spot, place.Fits cfg.es6 spot ∧ spot.caught = none ∧
      selectedMarks cfg bodyOnly body = bodyMarks templateMarks cfg spot inner := by
  revert h
  fun_cases selectBody cfg bodyOnly body
  case case1 s hbody =>
    rintro ⟨⟩
    exact ⟨_, .top, rfl, by simp [selectedMarks, hbody]⟩
  case case2 => rintro ⟨⟩
  case case3 s all hbody p value hlast =>
    rintro ⟨⟩
    exact ⟨_, bodyPlace_fits cfg s, caught_bodySpot cfg s, by simp [selectedMarks, hbody, hlast]⟩
  case case4 s all hbody last hnot hlast =>
    rintro ⟨⟩
    refine ⟨_, bodyPlace_fits cfg s, caught_bodySpot cfg s, ?_⟩
    simp only [selectedMarks, hbody, hlast]
    split
    next heq =>
      cases heq
      exact (hnot _ _ rfl).elim
    · rfl
  case case5 hnot =>
    rintro ⟨⟩
    exact ⟨_, .top, rfl, by simp [selectedMarks]⟩

theorem exists_matches_compileScript {r : Request} (h : compileScript r body = .ok script) :
    ∃ lm, IsLibrary (.standard r.es6 r.stage3) lm ∧ Matches r.es6 (lm ++ sourceMarks r body) script.traits := by
  simp only [compileScript, bind_eq_ok] at h
  obtain ⟨⟨_, _⟩, hselect, _, hcompiled, hlibrary⟩ := h
  obtain ⟨_, hfits, hcaught, hmarks⟩ := exists_selectedMarks_eq hselect
  rw [sourceMarks, hmarks]
  exact exists_matches_withLibrary (matches_compileModule hfits hcaught hcompiled)
    (isStatements_compileModule hcompiled) hlibrary

end Transpiler.Compile
