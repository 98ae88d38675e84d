import Mathlib.Data.List.Sublists
import Transpiler.Proofs.Compile.Trees
import Transpiler.Proofs.Script.Indented

/-!
# The brackets and the indentation of a script

The text of a script is balanced and its lines are indented by the braces that are open before them, if the
brackets in verbatim text are left aside (`wellBracketed_of_compileText`).
-/

namespace Transpiler.Compile

open Script (bracketFree Item Js Line Neutral scan)
open Source (Stmt unbracketedBlock)

variable {cfg : Config} {body : List Stmt} {script : Js}

/-! ### Scripts are clean -/

theorem unbracketed_libraryBody : ∀ fs ∈ Snippet.all.sublists, unbracketedBlock (libraryBody fs) = true := by
  decide +kernel

open Source.Build in
theorem unbracketed_librarySource (fs : List Snippet) : unbracketedBlock (librarySource fs) = true := by
  have hbody := unbracketed_libraryBody _ (List.mem_sublists.mpr (List.filter_sublist (p := fs.contains)))
  simp +decide [librarySource, Source.unbracketedBlock_iff, define, Source.Build.set, var, call, run,
    Stmt.unbracketed, Source.Params.unbracketed, hbody]

theorem clean_compileLibrary {fs : List Snippet} {library : Js} (h : compileLibrary cfg fs = .ok library) :
    library.masked.Clean := by
  obtain ⟨_, hbody⟩ := result_eq_ok.mp h
  rw [← Site.place_top] at hbody
  exact clean_compileBody templatesFit_compileTemplate .top (unbracketed_librarySource fs)
    (Session.caughtClean_of_empty rfl) hbody

theorem clean_compileModule {site : Site} {compiled : Compiled} (hsite : site.Unbracketed)
    (hbody : unbracketedBlock body = true)
    (h : compileModule cfg (site.place cfg) body = .ok compiled) : compiled.script.masked.Clean :=
  clean_compileBody templatesFit_compileTemplate hsite hbody (Session.caughtClean_of_empty rfl)
    (compileBody_of_compileModule h)

theorem clean_compileScript {r : Request} (hbody : unbracketedBlock body = true)
    (h : compileScript r body = .ok script) : script.masked.Clean := by
  obtain ⟨⟨_, _⟩, hselect, _, hcompiled, hscript⟩ := by
    simpa only [compileScript, bind_eq_ok] using h
  obtain ⟨_, rfl, -, hsite, hinner⟩ :=
    hereditary_unbracketed.exists_site hselect (Source.unbracketedBlock_iff.mp hbody)
  have hclean := clean_compileModule hsite (Source.unbracketedBlock_iff.mpr hinner) hcompiled
  rcases withLibrary_eq_ok_iff.mp hscript with ⟨-, rfl⟩ | ⟨-, _, hlibrary, rfl⟩
  · exact hclean
  · have hlibraryClean := clean_compileLibrary hlibrary
    obtain ⟨_, _, rfl⟩ := (yields_compileBody _ _ _ _).result hlibrary
    obtain ⟨_, _, hmore⟩ := isStatements_compileModule hcompiled
    rw [hmore] at hclean ⊢
    simp only [before, Js.masked, Js.Clean, Script.maskedAll_eq_map, Script.blockClean_iff,
      List.map_append, List.forall_mem_append] at hclean hlibraryClean ⊢
    exact ⟨hlibraryClean, hclean⟩

/-! ### The layout of scripts -/

/-- The lines of a text and the same lines with the brackets in verbatim text blotted out: in these the
brackets are nested and balanced, and each line is indented by the braces that are open where it starts, one
less if it starts with a closing brace. -/
structure WellBracketed (items blotted : List Item) : Prop where
  /-- The lines are the same, and differ in brackets only. -/
  same : blotted.map Item.hidden = items.map Item.hidden
  lines : ∀ i ∈ items, i.IsLine
  balanced : Neutral (Item.joinAll blotted)
  indented : ∀ n l, items[n]? = some (.line l) → ∃ shown opened, blotted[n]? = some (.line shown) ∧
    shown.indent = l.indent ∧ scan [] (Item.joinAll (blotted.take n)).toList = some opened ∧
    l.indent + (if shown.closes then 1 else 0) = opened.count '\x7b'

theorem wellBracketed_of_clean {j : Js} (hlines : ∀ i ∈ j.items, i.IsLine) (h : j.masked.Clean)
    (halone : j.standsAlone = true) : WellBracketed j.items j.masked.items := by
  have hsame : j.masked.items.map Item.hidden = j.items.map Item.hidden := j.hidden_items
  have hblock := (j.masked.lays_items h).block (by simpa using halone)
  refine ⟨hsame, hlines, Script.flat_iff.mp hblock.flat, fun n l hn => ?_⟩
  have hshown : (j.masked.items[n]?).map Item.hidden = some (Item.line l).hidden := by
    rw [← List.getElem?_map, hsame, List.getElem?_map, hn]
    rfl
  obtain ⟨i, hi, heq⟩ := Option.map_eq_some_iff.mp hshown
  cases i with
  | line shown =>
    have hindent : shown.indent = l.indent := by
      simp only [Item.hidden, Item.line.injEq] at heq
      have hfields := congrArg Line.indent heq
      exact hfields
    obtain ⟨opened, hopened, hdepth⟩ := (hblock []).exists_of_getElem? hi
    refine ⟨shown, opened, hi, hindent, hopened, ?_⟩
    simpa [hindent] using hdepth
  | piece => cases heq
  | bare => cases heq

/-- The output of a program whose names and numbers hold no brackets is well bracketed, and correctly
indented. -/
theorem wellBracketed_of_compileText {r : Request} {source : SourceText} {out : Output}
    (hsource : ∀ program, source.tree = some program → unbracketedBlock program = true)
    (h : compileText r source = .ok out) :
    ∃ program script, source.tree = some program ∧ compileScript r program = .ok script ∧
      out.text = Item.joinAll script.items ∧ WellBracketed script.items script.masked.items := by
  obtain ⟨offset, program, script, items, map, -, htree, hscript, hitems, -, rfl⟩ :=
    compileText_eq_ok_iff.mp h
  have hstatements := isStatements_compileScript hscript
  have halone : script.standsAlone = true := by
    obtain ⟨o, items, rfl⟩ := hstatements
    rfl
  refine ⟨program, script, htree, hscript, by rw [items?_eq_ok hitems], ?_⟩
  exact wellBracketed_of_clean (isLine_of_mem_items hstatements)
    (clean_compileScript (hsource program htree) hscript) halone

def bracketsInText : List Stmt :=
  [.classDef none "C" [] [] [.functionDef none false "m" ⟨[], [⟨none, "self", .absent⟩], none, [], [], none, []⟩
    [.ifElse none (.name none "a") [.assign none [.name none "x"] (.constant none (.str ")"))]
      [.expr none (.call none (.name none "JS") [.constant none (.str "f(\x7b")] [])]] [] .absent] []]

theorem wellBracketed_bracketsInText : ∃ out,
    compileText (.standard true false) (.ofText "" (some bracketsInText)) = .ok out ∧
      ∃ program script, some bracketsInText = some program ∧ compileScript (.standard true false) program = .ok script ∧
        out.text = Item.joinAll script.items ∧ WellBracketed script.items script.masked.items := by
  obtain ⟨out, h⟩ := exists_of_isOk
    (x := compileText (.standard true false) (.ofText "" (some bracketsInText))) (by decide +kernel)
  refine ⟨out, h, wellBracketed_of_compileText ?_ h⟩
  rintro program ⟨⟩
  decide +kernel

end Transpiler.Compile
