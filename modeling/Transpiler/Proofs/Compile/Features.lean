import Transpiler.Proofs.Compile.WrittenScript

/-!
# The newer dialect without its setting

Most of what only the newer dialect has is refused where ES6 is off. Five features are not: a script
uses them exactly where its source asks for them (`feature_mem_traits_iff`).
-/

namespace Transpiler.Compile

open Script (Feature Js Trait)
open Source (Stmt)

/-! ### The library -/

def onlyNames (ms : List Mark) : Bool :=
  ms.all fun
    | .occurrence _ => true
    | .feature _ => false

theorem onlyNames_append (ms ns : List Mark) : onlyNames (ms ++ ns) = (onlyNames ms && onlyNames ns) :=
  List.all_append

theorem onlyNames_declarationMarks (body : List Stmt) : onlyNames (declarationMarks body) = true := by
  simp [onlyNames, declarationMarks]

theorem isGenerator_eq_any (body : List Stmt) : isGenerator body = body.any fun s => isGenerator [s] := by
  induction body with
  | nil => rfl
  | cons _ _ ih =>
    rw [List.any_cons, ← ih]
    simp [isGenerator, Source.stmtTrees, Source.Tree.scopeHas]

theorem onlyNames_blockMarks {templates : Config → List Stmt → List Mark} {cfg : Config} {spot : Spot}
    {body : List Stmt} (h : ∀ s ∈ body, onlyNames (stmtMarks templates cfg spot s) = true) :
    onlyNames (blockMarks templates cfg spot body) = true := by
  induction body with
  | nil => simp [blockMarks, onlyNames]
  | cons s _ ih =>
    rw [blockMarks, onlyNames_append, h s (by simp), ih fun t ht => h t (by simp [ht])]
    rfl

open Source.Build in
theorem onlyNames_of_mem_libraryBody (es6 stage3 : Bool) {fs : List Snippet} {s : Stmt} (hs : s ∈ libraryBody fs) :
    isGenerator [s] = false ∧ onlyNames (stmtMarks templateMarks ⟨es6, stage3, false, false, none⟩ .top s) = true := by
  have hsource (f : Snippet) : isGenerator [f.source] = false ∧
      onlyNames (stmtMarks templateMarks ⟨es6, stage3, false, false, none⟩ .top f.source) = true := by
    cases es6 <;> cases stage3 <;> cases f <;> decide +kernel
  simp only [libraryBody, List.mem_append, List.mem_map, List.mem_singleton] at hs
  rcases hs with (⟨f, -, rfl⟩ | ⟨f, -, rfl⟩) | rfl
  · exact hsource f
  · cases f <;> exact ⟨rfl, rfl⟩
  · exact ⟨rfl, rfl⟩

theorem onlyNames_libraryMarks (cfg : Config) (fs : List Snippet) : onlyNames (libraryMarks cfg fs) = true := by
  have hbody {s : Stmt} (hs : s ∈ libraryBody (Snippet.all.filter fs.contains)) :=
    onlyNames_of_mem_libraryBody cfg.es6 cfg.stage3 hs
  have hgenerator : isGenerator (libraryBody (Snippet.all.filter fs.contains)) = false := by
    rw [isGenerator_eq_any, List.any_eq_false]
    exact fun s hs => by simp [(hbody hs).1]
  have hblock := onlyNames_blockMarks fun s hs => (hbody hs).2
  rw [libraryMarks, bodyMarks, onlyNames_append, onlyNames_declarationMarks, Bool.true_and]
  refine onlyNames_blockMarks fun s hs => ?_
  simp only [librarySource, List.mem_cons, List.not_mem_nil, or_false] at hs
  rcases hs with rfl | rfl | rfl
  · rw [Source.Build.define, stmtMarks, functionMarks, hgenerator]
    show onlyNames ([.occurrence _, .occurrence _] ++
      (declarationMarks _ ++ blockMarks templateMarks _ .top _) ++ []) = true
    rw [onlyNames_append, onlyNames_append, onlyNames_append, onlyNames_declarationMarks, hblock]
    rfl
  · rfl
  · rfl

theorem IsLibrary.onlyNames {cfg : Config} {ms : List Mark} (h : IsLibrary cfg ms) : onlyNames ms = true := by
  rcases h with rfl | ⟨fs, rfl⟩
  · rfl
  · exact onlyNames_libraryMarks cfg fs

/-! ### Scripts -/

theorem trait?_eq_feature_iff {m : Mark} {f : Feature} :
    m.trait? = some (.feature f) ↔ ∃ u : Loose, u.feature = f ∧ m = .feature u := by
  cases m with
  | occurrence => simp [Mark.trait?]
  | feature => simp [Mark.trait?, eq_comm, and_comm]

theorem trait?_ne_template (m : Mark) (text : String) : m.trait? ≠ some (.template text) := by
  cases m with
  | occurrence => simp [Mark.trait?]
  | feature => simp [Mark.trait?]

/-- What a script uses of the newer dialect where ES6 is off: arrow functions, generators, class
members, spreads and patterns, exactly where the source asks for them, and nothing else. -/
theorem feature_mem_traits_iff {r : Request} (hes6 : r.es6 = false) {body : List Stmt} {script : Js}
    (h : compileScript r body = .ok script) :
    (∀ f, .feature f ∈ script.traits ↔ ∃ u : Loose, u.feature = f ∧ .feature u ∈ sourceMarks r body) ∧
      ∀ text, .template text ∉ script.traits := by
  obtain ⟨lm, hlm, hmatches⟩ := exists_matches_compileScript h
  rw [hes6] at hmatches
  have htemplate : ∀ text, .template text ∉ script.traits := by
    intro text ht
    rcases hmatches.covered _ ht with ⟨m, -, hm⟩ | hsupplied
    · exact trait?_ne_template m text hm
    · cases hsupplied
  refine ⟨fun f => ⟨fun hf => ?_, ?_⟩, htemplate⟩
  · rcases hmatches.covered _ hf with ⟨m, hm, htrait⟩ | hsupplied
    · obtain ⟨u, rfl, rfl⟩ := trait?_eq_feature_iff.mp htrait
      refine ⟨u, rfl, (List.mem_append.mp hm).resolve_left fun hlibrary => ?_⟩
      exact absurd (List.all_eq_true.mp hlm.onlyNames _ hlibrary) (by simp)
    · cases hsupplied
  · rintro ⟨u, rfl, hu⟩
    have hwritten := hmatches.written _ (List.mem_append_right lm hu) rfl _ rfl
    exact hwritten.mem htemplate

def unpackedCall : List Stmt :=
  [.assign none [.tuple none [.name none "a", .name none "b"]]
    (.call none (.name none "f")
      [.lambda none ⟨[], [⟨none, "x"⟩], none, [], none⟩ [] [] (.name none "x")] [])]

theorem feature_mem_traits_unpackedCall : ∃ script, compileScript (.standard false false) unpackedCall = .ok script ∧
      (∀ f, .feature f ∈ script.traits ↔
        ∃ u : Loose, u.feature = f ∧ .feature u ∈ sourceMarks (.standard false false) unpackedCall) ∧
      ∀ text, .template text ∉ script.traits :=
  ⟨_, rfl, feature_mem_traits_iff (r := .standard false false) rfl rfl⟩

/-- Arrow functions and patterns are written where ES6 is off. -/
theorem features_without_es6 : ∃ script, compileScript (.standard false false) unpackedCall = .ok script ∧
      .feature .arrow ∈ script.traits ∧ .feature .pattern ∈ script.traits :=
  ⟨_, rfl, by decide, by decide⟩

end Transpiler.Compile
