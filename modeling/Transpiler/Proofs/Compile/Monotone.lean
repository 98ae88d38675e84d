import Mathlib.Data.List.Sublists
import Transpiler.Proofs.Compile.Map

/-!
# Allowing more

A text that can be compiled can be compiled if more is allowed (`compileText_allowing_more`). With
ES6 its script is the same up to lowering, but for the run-time functions in front of it, which are
others; these can be written in any case. Where no function has another name the text is the same.
-/

namespace Transpiler.Script

variable {c : Lowering} {j : Js} {js : List Js}

def Js.isWritable (j : Js) : Bool :=
  j.check.isOk && j.items.all fun i => i.fragments?.isOk

theorem check_isOk_iff : j.check.isOk = true ↔ j.check = passed := by
  rcases j.check with e | u <;> simp [Except.isOk, Except.toBool, passed]

theorem Js.isWritable_iff : j.isWritable = true ↔
    j.check = passed ∧ ∀ i ∈ j.items, (i.view false).isMappable = true := by
  simp only [isWritable, Bool.and_eq_true, check_isOk_iff, List.all_eq_true, isOk_fragments? false]

theorem Js.isWritable_of_lower (h : (j.lower c).isWritable = true) : j.isWritable = true := by
  rw [isWritable_iff] at h ⊢
  refine ⟨Js.check_of_lower j h.1, fun i hi => ?_⟩
  -- the items of the two trees have the same views
  have hview : i.view false ∈ (j.lower c).items.map (Item.view false) := by
    rw [Js.view_items (by simp) j]
    exact List.mem_map_of_mem hi
  obtain ⟨k, hk, hik⟩ := List.mem_map.mp hview
  rw [← hik]
  exact h.2 k hk

/-- Whether a tree can be written as a statement of a block, where `mapped` says whether the block
takes part in the map. -/
def Js.Stands (mapped : Bool) (j : Js) : Prop :=
  j.isNode = true ∧ j.check = passed ∧ ∀ i ∈ j.items, ((i.view false).toLine mapped 0 true).isMappable = true

theorem isWritable_statements_iff {o : Origin} :
    (Js.statements o js).isWritable = true ↔ ∀ j ∈ flattenOnce js, j.Stands o.isMapped := by
  rw [Js.isWritable_iff, check_statements_iff, Js.items, slottedItems_eq_map]
  constructor
  · rintro ⟨hcheck, hitems⟩ j hj
    refine ⟨(hcheck j hj).1, (hcheck j hj).2, fun i hi => ?_⟩
    rw [← view_toLine]
    refine hitems _ (List.mem_flatMap.mpr ⟨j.items, ?_, List.mem_map_of_mem hi⟩)
    exact mem_arrange_of_mem (List.mem_map_of_mem (f := fun j => (j.slot, j.items)) hj)
  · intro h
    refine ⟨fun j hj => ⟨(h j hj).1, (h j hj).2.1⟩, fun i hi => ?_⟩
    obtain ⟨_, heach, hi⟩ := List.mem_flatMap.mp hi
    obtain ⟨k, hk, rfl⟩ := List.mem_map.mp hi
    obtain ⟨_, hmem⟩ := mem_of_mem_arrange heach
    obtain ⟨j, hj, hpair⟩ := List.mem_map.mp hmem
    cases hpair
    rw [view_toLine]
    exact (h j hj).2.2 k hk

theorem flattenOnce_append (js ks : List Js) : flattenOnce (js ++ ks) = flattenOnce js ++ flattenOnce ks :=
  List.flatMap_append

theorem Js.Stands.of_lower {mapped : Bool} (hview : j.KeepsView c false)
    (hcheck : j.ChecksAfter c) (h : (j.lower c).Stands mapped) : j.Stands mapped := by
  refine ⟨by simpa using h.1, hcheck h.2.1, fun i hi => ?_⟩
  have hmem : i.view false ∈ (j.lower c).items.map (Item.view false) := by
    rw [hview]
    exact List.mem_map_of_mem hi
  obtain ⟨k, hk, hik⟩ := List.mem_map.mp hmem
  rw [← hik]
  exact h.2.2 k hk

theorem Mapped.isOk_fragments? {src dst : Offset} {line : Int} {items : List Item}
    {ms : List Mapping} (h : Mapped src dst line items ms) : ∀ i ∈ items, i.fragments?.isOk = true := by
  induction h with
  | nil => simp
  | cons hthis _ ih => exact List.forall_mem_cons.mpr ⟨by simp [hthis, Except.isOk, Except.toBool], ih⟩

theorem items?_statements {o : Origin} : (Js.statements o js).items? = .ok (Js.statements o js).items ↔
    (Js.statements o js).check = passed := by
  have hfirst : firstFault [checkNode (.statements o js), (Js.statements o js).check] = passed ↔
      (Js.statements o js).check = passed := by
    simp [firstFault_cons, firstFault_nil, checkNode, Js.isNode]
  rw [← hfirst, Js.items?, bind_eq_ok]
  constructor
  · rintro ⟨_, hu, -⟩
    exact hu
  · intro h
    exact ⟨(), h, rfl⟩

end Transpiler.Script

namespace Transpiler.Compile

open Script (Item Js Lowering Mapped Offset flattenOnce)
open Source (Expr Stmt)
open SourceMap (Token)

variable {c : Lowering} {templates : Templates} {cfg cfg' : Config} {site : Site} {body : List Stmt} {r : Request}
  {compiled : Compiled} {library script : Js} {o' : Script.Origin}

/-! ### Writing a script -/

theorem exists_ofItems_iff {items : List Item} (hlines : ∀ i ∈ items, i.IsLine) (content : Json)
    (file : String) (src dst : Offset) :
    (∃ map, SourceMap.ofItems content file src dst items = .ok map) ↔ ∀ i ∈ items, i.fragments?.isOk = true := by
  simp only [ofItems_eq_ok_iff hlines]
  constructor
  · rintro ⟨_, _, hms, -⟩
    exact hms.isOk_fragments?
  · intro h
    obtain ⟨ms, hms⟩ := Mapped.exists_of_forall fun i hi => exists_of_isOk (h i hi)
    exact ⟨_, ms, hms, rfl⟩

theorem exists_compileText_iff {s : SourceText} {text : String} :
    (∃ map, compileText r s = .ok ⟨text, map⟩) ↔
      ∃ offset body script, sourceOffset r s = .ok offset ∧ s.tree = some body ∧
        compileScript r body = .ok script ∧ script.isWritable = true ∧
        text = Item.joinAll script.items := by
  simp only [compileText_eq_ok_iff]
  constructor
  · rintro ⟨_, offset, body, _, items, _, hoffset, htree, hscript, hitems, hmap, hout⟩
    cases hout
    obtain rfl := items?_eq_ok hitems
    have hstatements := isStatements_compileScript hscript
    have hmappable := (exists_ofItems_iff (isLine_of_mem_items hstatements) _ _ _ _).mp ⟨_, hmap⟩
    obtain ⟨_, _, rfl⟩ := hstatements
    refine ⟨offset, body, _, hoffset, htree, hscript, ?_, rfl⟩
    rw [Js.isWritable, Bool.and_eq_true, List.all_eq_true, Script.check_isOk_iff]
    exact ⟨Script.items?_statements.mp hitems, hmappable⟩
  · rintro ⟨offset, body, _, hoffset, htree, hscript, hwritable, rfl⟩
    rw [Js.isWritable, Bool.and_eq_true, List.all_eq_true, Script.check_isOk_iff] at hwritable
    have hstatements := isStatements_compileScript hscript
    obtain ⟨map, hmap⟩ := (exists_ofItems_iff (isLine_of_mem_items hstatements)
      (.str (given r.whole s.text)) (given r.filename "<source>") offset .zero).mpr hwritable.2
    obtain ⟨_, _, rfl⟩ := hstatements
    exact ⟨map, offset, body, _, _, map, hoffset, htree, hscript, Script.items?_statements.mpr hwritable.1, hmap, rfl⟩

/-! ### Templates, modules and the library -/

theorem Session.Lowers.start : Session.start.Lowers c .start := by
  refine ⟨some [], rfl, ?_⟩
  cases c <;> simp [SnippetsLower, Session.start]

theorem Session.Lowers.isolated : Session.isolated.Lowers c .isolated :=
  ⟨none, rfl, trivial⟩

/-- Where only the dialect may change, no function in an expression has another name. -/
abbrev AllowedIn (c : Lowering) (e : Expr) : Prop :=
  c = .dialect → e.every Expr.isNeutral = true

/-- Where only the dialect may change, no function in a statement has another name. -/
abbrev StmtAllowedIn (c : Lowering) (s : Stmt) : Prop :=
  c = .dialect → s.every Expr.isNeutral = true

theorem hereditary_allowedIn (c : Lowering) : Hereditary (AllowedIn c) (StmtAllowedIn c) fun _ => True where
  part _ _ hx he hc := (Expr.every_iff.mp (he hc)).2 _ hx
  absent _ := rfl
  operand _ _ he hs hc := Stmt.every_operand he (hs hc)
  body _ _ hbody hs t ht hc := Source.everyStmt_iff.mp (Stmt.every_body hbody (hs hc)) t ht
  undecorated s hs hc := by
    have := hs hc
    cases s <;> simp_all [Stmt.undecorated, Stmt.every, Source.everyExpr]
  draw := trivial
  use _ := trivial
  act _ _ _ _ _ := trivial

def TemplatesLower (templates : Templates) : Prop :=
  ∀ (cfg cfg' : Config) (name : String) (j : Js), cfg.Lowers .same cfg' →
    templates cfg (exceptionSource name) = .ok j → templates cfg' (exceptionSource name) = .ok j

def Demands.between (ht : TemplatesLower templates) (hcfg : cfg.Lowers c cfg') : Demands templates cfg :=
  { Demands.none templates cfg with
    lowering := c
    other := cfg'
    lowers := hcfg
    again := fun hc _ name j => ht _ _ name j
      { hc ▸ hcfg with snippets := rfl, mapped := rfl, remap := rfl, unmapped := by simp } }

section

variable (htemplates : TemplatesFit templates) (ht : TemplatesLower templates) (hcfg : cfg.Lowers c cfg')

include htemplates ht hcfg

theorem Task.lowers {u : Task} (hu : u.All (AllowedIn c) (StmtAllowedIn c) fun _ => True) :
    u.Lowers (.between ht hcfg) := by
  induction u using Task.induction cfg with
  | act a => exact fun h => (h a rfl).elim
  | node u hact ih =>
    intro _
    have hparts (v : Task) (hv : v ∈ u.parts cfg) : v.Lowers (.between ht hcfg) :=
      ih v hv (hu.parts (hereditary_allowedIn c) hv)
    cases u with
    | act a => exact (hact a rfl).elim
    | expr _ e =>
      exact (lowers_compileExpr e id id (fun hc => (Expr.every_iff.mp (hu.2 hc)).1) hparts).map fun _ => rfl
    | decorators site h =>
      obtain ⟨_, hx, hcollects⟩ := exists_collects_compileClassDecorators (D := .between ht hcfg) site h False.elim
      simp only [run, hx]
      exact (hcollects.lowers trivial hparts).inFrame.map fun _ => rfl
    | stmt site s =>
      by_cases hs : (Task.stmt site s).isFramed = true
      · obtain ⟨_, hx, hcollects⟩ := exists_collects_compileStmt (D := .between ht hcfg) site s hs
          (fun _ => htemplates) False.elim False.elim
        simp only [run, hx]
        exact (hcollects.lowers trivial hparts).inFrame.map fun _ => rfl
      · cases s with
        | bare e =>
          simp only [run, compileStmt]
          exact hparts (.expr site e) (by simp [parts, stmtParts, exprTasks]) (by simp)
        | _ => simp [isFramed] at hs

theorem lowers_compileBody (site : Site) (hsite : site.All fun _ => AllowedIn c) (hbody : ∀ s ∈ body, StmtAllowedIn c s) :
    Lowers c (compileBody templates cfg (site.place cfg) body) (compileBody templates cfg' (site.place cfg') body) := by
  have hn := hcfg.origin none
  have htasks (u : Task) (hu : u ∈ stmtTasks site body) : u.Lowers (.between ht hcfg) := by
    obtain ⟨s, hs, rfl⟩ := mem_stmtTasks.mp hu
    exact Task.lowers htemplates ht hcfg ⟨hsite, hbody s hs⟩
  have hblock : Lowers c (compileBlock templates cfg (site.place cfg) body)
      (compileBlock templates cfg' (site.place cfg') body) :=
    (Collects.stmts (D := .between ht hcfg) site body).lowers trivial htasks
  refine (lowers_setEntry _ _).bind fun _ _ _ => hblock.bind fun _ _ hjs => .getBind fun s t hst => ?_
  obtain ⟨_, rfl, -⟩ := hst
  refine .pure ?_
  rw [← hjs]
  dsimp only
  split <;> simp [-List.map_const', Js.lower, Script.lowerAll_eq_map, hn, Function.comp_def]

end

theorem templatesLower_compileTemplate : TemplatesLower compileTemplate := by
  intro _ _ _ _ hcfg hj
  have hnone : TemplatesLower fun _ _ => .error .notSource := by
    rintro _ _ _ _ _ ⟨⟩
  have hfit : TemplatesFit fun _ _ => .error .notSource := by
    constructor <;> simp
  obtain ⟨_, hj', hlower⟩ := (lowers_compileBody hfit hnone hcfg .top trivial (by simp)).result
    .isolated hj
  rw [lower_tree, Js.lower_same] at hlower
  rw [← hlower]
  exact hj'

theorem exists_compileModule (hcfg : cfg.Lowers c cfg') (hsite : site.All fun _ => AllowedIn c)
    (hbody : ∀ s ∈ body, StmtAllowedIn c s) (hcompiled : compileModule cfg (site.place cfg) body = .ok compiled) :
    ∃ compiled', compileModule cfg' (site.place cfg') body = .ok compiled' ∧
      compiled'.script.lower c = compiled.script ∧ compiled.session.Lowers c compiled'.session := by
  obtain ⟨js', t, hrun, hlower, hst⟩ := lowers_compileBody templatesFit_compileTemplate
    templatesLower_compileTemplate hcfg site hsite hbody _ _ .start _ _ (compileBody_of_compileModule hcompiled)
  exact ⟨⟨js', t⟩, by simp [compileModule, hrun], hlower, hst⟩

theorem exists_compileLibrary (hcfg : cfg.Lowers c cfg') {fs : List Snippet}
    (h : ∀ s ∈ librarySource fs, StmtAllowedIn c s) (hlibrary : compileLibrary cfg fs = .ok library) :
    ∃ library', compileLibrary cfg' fs = .ok library' ∧ library'.lower c = library := by
  have hinner : Config.Lowers c { cfg with remap := none, snippets := false, mapped := false }
      { cfg' with remap := none, snippets := false, mapped := false } :=
    { hcfg with snippets := rfl, mapped := rfl, remap := rfl, unmapped := fun _ => rfl }
  exact (lowers_compileBody templatesFit_compileTemplate templatesLower_compileTemplate hinner .top
    trivial h).result .isolated hlibrary

theorem librarySource_eq_filter (known : List Snippet) {fs : List Snippet} (h : ∀ f ∈ fs, f ∈ known) :
    librarySource fs = librarySource (known.filter fs.contains) := by
  have hcontains : fs.contains = (known.filter fs.contains).contains := by
    funext f
    rw [Bool.eq_iff_iff, List.contains_iff_mem, List.contains_iff_mem, List.mem_filter, List.contains_iff_mem]
    exact ⟨fun hf => ⟨h f hf, hf⟩, And.right⟩
  unfold librarySource
  rw [← hcontains]

theorem librarySource_neutral {fs : List Snippet} (h : ∀ f ∈ fs, f = .assertion) :
    Source.everyStmt Expr.isNeutral (librarySource fs) = true := by
  have hall : ∀ gs ∈ [Snippet.assertion].sublists',
      Source.everyStmt Expr.isNeutral (librarySource gs) = true := by decide +kernel
  rw [librarySource_eq_filter [.assertion] (by simpa using h)]
  exact hall _ (List.mem_sublists'.mpr List.filter_sublist)

theorem exists_library {gs : List Snippet} (h : ∀ g ∈ gs, g = .assertion ∨ g = .containsEs6) (stage3 : Bool) :
    ∃ library, compileLibrary (.standard true stage3) gs = .ok library ∧ library.isWritable = true := by
  have hall : ∀ gs ∈ [Snippet.assertion, .containsEs6].sublists', ∀ stage3,
      (compileLibrary (.standard true stage3) gs).toOption.any Js.isWritable = true := by
    decide +kernel
  have hone := hall _ (List.mem_sublists'.mpr (List.filter_sublist (p := gs.contains))) stage3
  have hlibrary : compileLibrary (.standard true stage3) gs =
      compileLibrary (.standard true stage3) ([.assertion, .containsEs6].filter gs.contains) := by
    unfold compileLibrary
    rw [librarySource_eq_filter [.assertion, .containsEs6] (by simpa using h)]
  rw [hlibrary]
  generalize compileLibrary (.standard true stage3) _ = outcome at hone
  cases outcome with
  | error => simp [Except.toOption] at hone
  | ok library => exact ⟨library, rfl, by simpa [Except.toOption] using hone⟩

/-! ### Scripts -/

theorem yields_statements (templates : Templates) (cfg : Config) (here : Place) (body : List Stmt) :
    Yields (compileBody templates cfg here body) fun j =>
      ∃ items, j = .statements (cfg.origin none) items :=
  .andThen _ fun _ => .andThen _ fun _ => .andThen _ fun _ => .pure ⟨_, rfl⟩

theorem exists_eq_statements {here : Place} (h : compileModule cfg here body = .ok compiled) :
    ∃ items, compiled.script = .statements (cfg.origin none) items := by
  unfold compileModule at h
  split at h
  next hrun =>
    cases h
    exact yields_statements _ _ _ _ _ _ _ hrun
  · cases h

theorem exists_library_eq {fs : List Snippet} (h : compileLibrary cfg fs = .ok library) :
    ∃ o items, library = .statements o items ∧ o.isMapped = false := by
  obtain ⟨items, rfl⟩ := (yields_statements _ _ _ _).result h
  exact ⟨_, items, rfl, rfl⟩

theorem before_lower {o : Script.Origin} {items items' : List Js} :
    (before (.statements o items) (.statements o' items')).lower c =
      before ((Js.statements o items).lower c) ((Js.statements o' items').lower c) := by
  simp [before, Js.lower, Script.lowerAll_eq_map]

theorem SnippetsLower.eq {fs gs : Option (List Snippet)} (h : SnippetsLower c fs gs)
    (hc : c ≠ .functions) : gs = fs ∧ (c = .dialect → ∀ f ∈ fs.getD [], f = .assertion) := by
  rcases fs with _ | fs <;> rcases gs with _ | _
  · simp
  · exact h.elim
  · exact h.elim
  · cases c with
    | same => exact ⟨congrArg some h, by simp⟩
    | dialect => exact ⟨congrArg some h.1, fun _ => h.2⟩
    | functions => exact absurd rfl hc

theorem exists_compileScript (hc : c ≠ .functions) (r r' : Request)
    (hcfg : Config.Lowers c (.standard r.es6 r.stage3) (.standard r'.es6 r'.stage3))
    (hbodyOnly : r'.bodyOnly = r.bodyOnly) (h : ∀ s ∈ body, StmtAllowedIn c s)
    (hscript : compileScript r body = .ok script) :
    ∃ script', compileScript r' body = .ok script' ∧ script'.lower c = script := by
  simp only [compileScript, bind_eq_ok, hbodyOnly] at hscript ⊢
  obtain ⟨⟨_, _⟩, hselect, compiled, hcompiled, hlibrary⟩ := hscript
  obtain ⟨_, rfl, hselect', hsite, hinner⟩ := (hereditary_allowedIn c).exists_site hselect h
  obtain ⟨compiled', hcompiled', hlower, _, hsession, hsnippets⟩ :=
    exists_compileModule hcfg hsite hinner hcompiled
  obtain ⟨hsame, hassertion⟩ := hsnippets.eq hc
  have hsnippets' : compiled'.session.snippets = compiled.session.snippets := by
    rw [hsession, hsame]
  suffices hwith : ∃ script', compiled'.withLibrary (.standard r'.es6 r'.stage3) = .ok script' ∧
      script'.lower c = script by
    obtain ⟨script', hscript', hlower'⟩ := hwith
    exact ⟨script', ⟨_, hselect' _, compiled', hcompiled', hscript'⟩, hlower'⟩
  simp only [withLibrary_eq_ok_iff, hsnippets'] at hlibrary ⊢
  generalize compiled.session.snippets.getD [] = fs at hlibrary hassertion
  rcases hlibrary with ⟨rfl, rfl⟩ | ⟨hfs, _, hlibrary, rfl⟩
  · exact ⟨_, .inl ⟨rfl, rfl⟩, hlower⟩
  · obtain ⟨_, hlibrary', hlower'⟩ := exists_compileLibrary hcfg (fun s hs hc =>
      Source.everyStmt_iff.mp (librarySource_neutral (hassertion hc)) s hs) hlibrary
    obtain ⟨_, _, rfl, -⟩ := exists_library_eq hlibrary'
    obtain ⟨_, hmore⟩ := exists_eq_statements hcompiled'
    refine ⟨_, .inr ⟨hfs, _, hlibrary', rfl⟩, ?_⟩
    rw [hmore, before_lower, hlower', ← hmore, hlower]

theorem SnippetsLower.functions {fs gs : Option (List Snippet)} (h : SnippetsLower .functions fs gs) :
    (gs.getD [] = [] ↔ fs.getD [] = []) ∧ ∀ g ∈ gs.getD [], g = .assertion ∨ g = .containsEs6 := by
  rcases fs with _ | fs <;> rcases gs with _ | _
  · simp
  · exact h.elim
  · exact h.elim
  · exact ⟨by simpa using congrArg (· = true) h.1, h.2⟩

theorem isWritable_before {o : Script.Origin} {items more : List Js}
    (hunmapped : o.isMapped = false) (hlibrary : (Js.statements o items).isWritable = true)
    (hlowered : (before library ((Js.statements o' more).lower c)).isWritable = true)
    (hother : ∃ o items, library = .statements o items ∧ o.isMapped = false) :
    (before (.statements o items) (.statements o' more)).isWritable = true := by
  obtain ⟨_, _, rfl, hp⟩ := hother
  simp only [before, Js.lower, Script.isWritable_statements_iff, Script.flattenOnce_append,
    List.forall_mem_append, hunmapped, hp] at hlibrary hlowered ⊢
  refine ⟨hlibrary, fun j hj => ?_⟩
  refine .of_lower (c := c) (Js.view_items (by simp) j) j.check_of_lower (hlowered.2 _ ?_)
  rw [Script.lowerAll_eq_map, Script.flattenOnce_lower]
  exact List.mem_map_of_mem hj

theorem exists_writable_compileScript (hscript : compileScript { r with es6 := false } body = .ok script)
    (hwritable : script.isWritable = true) :
    ∃ script', compileScript { r with es6 := true } body = .ok script' ∧ script'.isWritable = true := by
  have hcfg : Config.Lowers .functions (.standard false r.stage3) (.standard true r.stage3) :=
    ⟨id, rfl, rfl, rfl, by simp, fun _ => ⟨rfl, rfl⟩, fun _ => rfl⟩
  simp only [compileScript, bind_eq_ok] at hscript ⊢
  obtain ⟨⟨_, _⟩, hselect, _, hcompiled, hlibrary⟩ := hscript
  obtain ⟨_, rfl, hselect', hsite, hinner⟩ :=
    (hereditary_allowedIn .functions).exists_site hselect (by simp)
  obtain ⟨compiled', hcompiled', hlower, gs, hsession, hsnippets⟩ :=
    exists_compileModule hcfg hsite hinner hcompiled
  obtain ⟨hnil, hgs⟩ := hsnippets.functions
  suffices hwith : ∃ script', compiled'.withLibrary (.standard true r.stage3) = .ok script' ∧
      script'.isWritable = true by
    obtain ⟨script', hscript', hwritable'⟩ := hwith
    exact ⟨script', ⟨_, hselect' _, compiled', hcompiled', hscript'⟩, hwritable'⟩
  have hsnippets' : compiled'.session.snippets = gs := by rw [hsession]
  simp only [withLibrary_eq_ok_iff, hsnippets'] at hlibrary ⊢
  rcases hlibrary with ⟨hfs, rfl⟩ | ⟨hfs, _, hlibrary, rfl⟩
  · refine ⟨_, .inl ⟨hnil.mpr hfs, rfl⟩, Js.isWritable_of_lower (c := .functions) ?_⟩
    rwa [hlower]
  · obtain ⟨_, hlibrary', hwritable'⟩ := exists_library hgs r.stage3
    obtain ⟨_, _, rfl, ho⟩ := exists_library_eq hlibrary'
    obtain ⟨_, hmore⟩ := exists_eq_statements hcompiled'
    refine ⟨_, .inr ⟨fun h => hfs (hnil.mp h), _, hlibrary', rfl⟩, ?_⟩
    rw [← hlower, hmore] at hwritable
    rw [hmore]
    exact isWritable_before ho hwritable' hwritable (exists_library_eq hlibrary)

/-- A text that can be compiled can be compiled if ES6 is allowed, and so are the newest features. The
output only differs if ES6 is allowed, and then in the conversions to numbers and the tests of
membership: without these its text is the same. -/
theorem compileText_allowing_more (r : Request) (s : SourceText) :
    (∀ out, compileText { r with es6 := false } s = .ok out → ∃ out', compileText { r with es6 := true } s = .ok out' ∧
        ∀ body, s.tree = some body → Source.everyStmt Expr.isNeutral body = true → out'.text = out.text) ∧
    (∀ out, compileText { r with stage3 := false } s = .ok out →
      compileText { r with stage3 := true } s = .ok out) := by
  constructor
  · rintro ⟨text, map⟩ hout
    obtain ⟨offset, body, script, hoffset, htree, hscript, hwritable, rfl⟩ :=
      exists_compileText_iff.mp ⟨map, hout⟩
    obtain ⟨script', hscript', hwritable'⟩ := exists_writable_compileScript hscript hwritable
    obtain ⟨map', hout'⟩ := (exists_compileText_iff (r := { r with es6 := true })).mpr
      ⟨offset, body, script', hoffset, htree, hscript', hwritable', rfl⟩
    refine ⟨_, hout', fun body' hbody' hneutral => ?_⟩
    obtain rfl : body' = body := Option.some.inj (hbody'.symm.trans htree)
    -- where nothing but the dialect may change, the script is lowered to the first one
    have hcfg : Config.Lowers .dialect (.standard false r.stage3) (.standard true r.stage3) :=
      ⟨id, rfl, rfl, rfl, by simp, fun _ => ⟨rfl, rfl⟩, by simp⟩
    obtain ⟨script'', hscript'', hlower⟩ := exists_compileScript (c := .dialect) (by simp)
      { r with es6 := false } { r with es6 := true } hcfg rfl
      (fun s hs _ => Source.everyStmt_iff.mp hneutral s hs) hscript
    obtain rfl : script'' = script' := Except.ok.inj (hscript''.symm.trans hscript')
    rw [← hlower]
    exact (Script.joinAll_of_view (Js.view_items (by simp) script'')).symm
  · intro out hout
    have hcfg : Config.Lowers .same (.standard r.es6 false) (.standard r.es6 true) :=
      ⟨by simp [Config.standard], rfl, rfl, rfl, fun _ => rfl, by simp, by simp⟩
    rw [compileText_eq_ok_iff] at hout ⊢
    obtain ⟨offset, body, script, items, map, hoffset, htree, hscript, hrest⟩ := hout
    obtain ⟨script', hscript', hlower⟩ := exists_compileScript (c := .same) (by simp)
      { r with stage3 := false } { r with stage3 := true } hcfg rfl (by simp) hscript
    rw [Js.lower_same] at hlower
    exact ⟨offset, body, script, items, map, hoffset, htree, hlower ▸ hscript', hrest⟩

end Transpiler.Compile
