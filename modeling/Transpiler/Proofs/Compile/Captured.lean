import Transpiler.Proofs.Compile.Rethrown
import Transpiler.Proofs.Compile.WrittenScript
import Transpiler.Proofs.Script.Scoping

/-!
# Names that are captured

The clauses of a `try` statement share one `catch`, and its variable is named by the last of them, or is `e`. The bodies
of all clauses stand in its scope, whatever names they use (`stays_compileHandlers`). So a name in the body of a clause
denotes the variable outside exactly if it is not written like that one (`denotes_of_compileStmt`).
-/

namespace Transpiler.Compile

open Script (Js Origin Writes binding blockNamesAll blocked identifiers traitsAll)
open Source (Handler Stmt)

variable {cfg : Config} {here : Place} {spot : Spot} {s s' : Session} {j : Js} {js block : List Js}

/-! ### The scope of a clause -/

def Nested (js block : List Js) : Prop :=
  ∃ n, ∀ k ∈ block, ∃ p ∈ blocked js, ∃ scopes, p.tree.Encloses scopes k ∧
    scopes ++ p.scopes = blockNamesAll block :: List.replicate n []

theorem blockNamesAll_renameCaught (o : Origin) (caught : String) (name : Option String) (block : List Js) :
    blockNamesAll (renameCaught o caught name ++ block) = blockNamesAll block := by
  have hrename : blockNamesAll (renameCaught o caught name) = [] := by
    unfold renameCaught
    split
    · split <;> rfl
    · rfl
  rw [Script.blockNamesAll_append, hrename, List.nil_append]

theorem nested_statements (o o' : Origin) (caught : String) (name : Option String) (block : List Js) :
    Nested [.statements o (renameCaught o' caught name ++ block)] block := by
  refine ⟨0, fun k hk => ⟨_, List.mem_singleton_self _, [], ?_, ?_⟩⟩
  · exact .part (p := ⟨[], k⟩) (by simp [Js.scopedParts, Script.unscoped, hk]) (.self k)
  · show [blockNamesAll [.statements o _]] = _
    rw [blockNamesAll, Js.blockNames, blockNamesAll_renameCaught, blockNamesAll, List.append_nil, List.replicate_zero]

theorem nested_ifStmt (o o' : Origin) (test : Js) (caught : String) (name : Option String)
    (block others : List Js) : Nested [.ifStmt o test (renameCaught o' caught name ++ block) others] block := by
  refine ⟨1, fun k hk => ⟨_, List.mem_singleton_self _, [blockNamesAll block], ?_, rfl⟩⟩
  refine .part (p := ⟨[blockNamesAll block], k⟩) ?_ (.self k)
  simp [Js.scopedParts, blocked, blockNamesAll_renameCaught, hk]

theorem Nested.later {others : List Js} (h : Nested others block) (o : Origin) (test : Js) (body : List Js) :
    Nested [.ifStmt o test body others] block := by
  obtain ⟨n, h⟩ := h
  refine ⟨n + 1, fun k hk => ?_⟩
  obtain ⟨p, hp, scopes, hencloses, hscopes⟩ := h k hk
  refine ⟨_, List.mem_singleton_self _, scopes ++ p.scopes, .part ?_ hencloses, ?_⟩
  · exact List.mem_append_right _ hp
  · rw [hscopes, List.replicate_succ']
    rfl

theorem Nested.encloses {catching : List Js} (h : Nested catching block) (o : Origin) (js : List Js)
    (caught : String) (finishing : List Js) : ∃ n, ∀ k ∈ block,
      (Js.tryStmt o js (.text caught) catching finishing).Encloses
        (blockNamesAll block :: (List.replicate n [] ++ [[caught]])) k := by
  obtain ⟨n, h⟩ := h
  refine ⟨n, fun k hk => ?_⟩
  obtain ⟨p, hp, _, hencloses, hscopes⟩ := h k hk
  rw [← List.cons_append, ← hscopes, List.append_assoc]
  refine .part (p := p.under [caught]) ?_ hencloses
  apply List.mem_append_left
  apply List.mem_append_right
  exact List.mem_map_of_mem (List.mem_append_right _ hp)

structure ClauseIn (cfg : Config) (here : Place) (spot : Spot) (catching : List Js) (h : Handler) (block : List Js) :
    Prop where
  compiled : ∃ s s', compileBlock compileTemplate cfg here h.body s = .ok block s'
  written : Matches cfg.es6 (blockMarks templateMarks cfg spot h.body) (traitsAll block)
  nested : Nested catching block

theorem stays_compileHandlers (hh : here.Fits cfg.es6 spot) (caught : String) (handlers : List Handler) :
    Stays spot.caught (compileHandlers compileTemplate cfg here caught handlers) fun js =>
      ∃ blocks, List.Forall₂ (ClauseIn cfg here spot js) (reachedHandlers handlers) blocks := by
  induction handlers with
  | nil =>
    rw [compileHandlers]
    exact .pure ⟨[], .nil⟩
  | cons first _ ih =>
    obtain ⟨p, type, name, body⟩ := first
    have hbody := (emits_compileBlock templatesMatch_compileTemplate hh body).and
      fun s block s' h => (⟨s, s', h⟩ : ∃ s s', compileBlock compileTemplate cfg here body s = .ok block s')
    rw [compileHandlers, reachedHandlers, Handler.type]
    dsimp only
    split
    · refine hbody.bind fun block hblock => .pure ⟨[block], ?_⟩
      exact .cons ⟨hblock.2, hblock.1, nested_statements ..⟩ .nil
    · refine (emits_compileCatchTest hh caught type).bind fun test _ => hbody.bind fun block hblock => ?_
      -- the other clauses stand in the block that is run if the test fails
      have hthis (others : List Js) : ClauseIn cfg here spot
          [.ifStmt (cfg.origin none) test (renameCaught (cfg.origin none) caught name ++ block) others]
          (.mk p type name body) block := ⟨hblock.2, hblock.1, nested_ifStmt ..⟩
      split
      next hrest =>
        obtain rfl := List.isEmpty_iff.mp hrest
        exact .pure ⟨[block], .cons (hthis _) .nil⟩
      · refine ih.bind fun _ hothers => .pure ?_
        obtain ⟨blocks, hblocks⟩ := hothers
        refine ⟨block :: blocks, .cons (hthis _) (hblocks.imp fun _ _ h => ?_)⟩
        exact ⟨h.compiled, h.written, h.nested.later ..⟩

/-! ### Names in a clause -/

/-- The body of a clause does not itself declare a name that is used in it: neither its block does, nor a scope that is
inside the body and around the place. -/
def Undeclared (block : List Js) (inner : List (List String)) (x : String) : Prop :=
  ∀ scope ∈ inner ++ [blockNamesAll block], x ∉ scope

/-- How the names in the body of a clause are written, and which variables they denote, whatever scopes the `try`
statement stands in. -/
structure ClauseDenotes (cfg : Config) (here : Place) (spot : Spot) (caught : String) (tree : Js) (h : Handler)
    (block : List Js) : Prop where
  compiled : ∃ s s', compileBlock compileTemplate cfg here h.body s = .ok block s'
  /-- The names of the body are written in its statements, maybe in the text of a template. -/
  written : ∀ p, .occurrence p ∈ blockMarks templateMarks cfg spot h.body → p.role ≠ .declaration →
    ∀ x, p.spelling? = some x → Writes (traitsAll block) (.name p.node x) ∧
      ((∀ text, .template text ∉ traitsAll block) → ∃ k ∈ block, ∃ inner, k.Mentions inner x)
  /-- What is written is a name of the body, or supplied. -/
  named : ∀ k ∈ block, ∀ inner x, k.Mentions inner x →
    (∃ p, .occurrence p ∈ blockMarks templateMarks cfg spot h.body ∧ p.spelling? = some x) ∨
      (∃ number, Context.generatedName? number = some x) ∨ x ∈ suppliedNames
  /-- A name that is not declared in the body itself denotes the variable outside, or the caught exception. -/
  denotes : ∃ around, ∀ k ∈ block, tree.Encloses around k ∧
    ∀ inner x, k.Mentions inner x → tree.Mentions (inner ++ around) x ∧ (Undeclared block inner x → ∀ outer,
      (binding x (inner ++ around ++ outer) = binding x outer ↔ x ≠ caught) ∧
      (binding x (inner ++ around ++ outer) = [caught] :: outer ↔ x = caught))

theorem ClauseIn.clauseDenotes {catching : List Js} {h : Handler} (hclause : ClauseIn cfg here spot catching h block)
    (o : Origin) (js : List Js) (caught : String) (finishing : List Js) :
    ClauseDenotes cfg here spot caught (.tryStmt o js (.text caught) catching finishing) h block where
  compiled := hclause.compiled
  written := by
    intro p hp hrole x hx
    have hwrites : Writes (traitsAll block) (.name p.node x) :=
      hclause.written.written _ hp (by simpa [Mark.isSure] using hrole) _ (by simp [Mark.trait?, hx])
    refine ⟨hwrites, fun htemplates => ?_⟩
    have hmem : x ∈ identifiers (traitsAll block) :=
      Script.mem_identifiers.mpr ⟨p.node, hwrites.mem htemplates⟩
    obtain ⟨k, hk, hx⟩ := Script.mem_identifiers_traitsAll.mp hmem
    exact ⟨k, hk, (k.exists_mentions_iff x).mpr hx⟩
  named := by
    intro k hk inner x hx
    have hmem : x ∈ identifiers (traitsAll block) :=
      Script.mem_identifiers_traitsAll.mpr ⟨k, hk, (k.exists_mentions_iff x).mp ⟨inner, hx⟩⟩
    obtain ⟨_, hnode⟩ := Script.mem_identifiers.mp hmem
    rcases hclause.written.covered _ hnode with ⟨m, hm, htrait⟩ | hsupplied
    · cases m with
      | feature => simp [Mark.trait?] at htrait
      | occurrence p =>
        obtain ⟨_, hx', heq⟩ := Option.map_eq_some_iff.mp htrait
        cases heq
        exact .inl ⟨p, hm, hx'⟩
    · exact .inr hsupplied
  denotes := by
    obtain ⟨n, hencloses⟩ := hclause.nested.encloses o js caught finishing
    refine ⟨_, fun k hk => ⟨hencloses k hk, fun inner x hx => ⟨(hencloses k hk).mentions hx, ?_⟩⟩⟩
    intro hundeclared outer
    have hinner : ∀ scope ∈ inner ++ blockNamesAll block :: List.replicate n [], x ∉ scope := by
      intro scope hscope
      rcases List.mem_append.mp hscope with hscope | hscope
      · exact hundeclared scope (List.mem_append_left _ hscope)
      · rcases List.mem_cons.mp hscope with rfl | hscope
        · exact hundeclared _ (by simp)
        · simp [List.eq_of_mem_replicate hscope]
    simpa using Script.binding_append_cons_iff (y := caught) hinner outer

/-- A name in the body of a clause denotes the same variable as outside the `try` statement exactly if it is not written
like the name of the exception, which is that of the last clause or `e`. A name that is written so denotes the
exception. -/
theorem denotes_of_compileStmt (hh : here.Fits cfg.es6 spot) {p : Source.At} {star : Bool}
    {body orelse finalbody : List Stmt} {handlers : List Handler} (hne : handlers ≠ [])
    (h : compileStmt compileTemplate cfg here (.tryBlock p star body handlers orelse finalbody) s = .ok j s') :
    ∃ o js catching finishing blocks, j = .tryStmt o js (.text (caughtName handlers)) catching finishing ∧
      List.Forall₂ (ClauseDenotes cfg here.inner (spot.inner.catching handlers) (caughtName handlers) j)
        (reachedHandlers handlers) blocks := by
  obtain ⟨js, catching, finishing, rfl, t₀, t₁, t₂, hbegin, hbody, hcatching⟩ :=
    exists_tryStmt (List.isEmpty_eq_false_iff.mpr hne) h
  have hinside := hh.inner.catching handlers
  -- the exception is the one of this statement, whatever is handled around it
  have hcaught : t₀.context.exception? = (spot.inner.catching handlers).caught := by
    have hmoves := moves_beginTry { spot.inner with caught := s.context.exception? } _ handlers orelse finalbody
      s.entered rfl _ _ hbegin
    rw [hmoves.2.1, Spot.catching, Spot.catching, if_neg (by simpa using hne), if_neg (by simpa using hne)]
  have hstays := (emits_compileBlock templatesMatch_compileTemplate hinside body t₀ hcaught _ _ hbody).1
  obtain ⟨-, blocks, hblocks⟩ := stays_compileHandlers hinside (caughtName handlers) handlers t₁
    (hstays.exception.trans hcaught) _ _ hcatching
  exact ⟨_, js, catching, finishing, blocks, rfl, hblocks.imp fun _ _ hclause => hclause.clauseDenotes ..⟩

/-- Two clauses that use a variable each; the second names the exception, so that `e` is free for it. -/
def shelteredHandlers : List Handler :=
  [.mk none (.name none "A") none [.expr none (.call none (.name none "f") [.name none "x"] [])],
    .mk none (.name none "B") (some "y") [.expr none (.call none (.name none "f") [.name none "e"] [])]]

theorem denotes_shelteredHandlers : ∃ j s', compileStmt compileTemplate (.standard false false) .top
      (.tryBlock none false [callStmt "a"] shelteredHandlers [] []) .start = .ok j s' ∧
    ∃ o js catching finishing blocks, j = .tryStmt o js (.text (caughtName shelteredHandlers)) catching finishing ∧
      List.Forall₂ (ClauseDenotes (.standard false false) Place.top.inner (Spot.top.inner.catching shelteredHandlers)
        (caughtName shelteredHandlers) j) (reachedHandlers shelteredHandlers) blocks := by
  obtain ⟨j, s', h⟩ : ∃ j s', compileStmt compileTemplate (.standard false false) .top
      (.tryBlock none false [callStmt "a"] shelteredHandlers [] []) .start = .ok j s' := ⟨_, _, rfl⟩
  exact ⟨j, s', h, denotes_of_compileStmt .top (by simp [shelteredHandlers]) h⟩

def capturingTry : Stmt :=
  .tryBlock none false [callStmt "a"]
    [.mk none (.name none "A") none [.expr none (.call none (.name none "f") [.name none "e"] [])]] [] []

theorem encloses_only (o o' : Origin) (js : List Js) (caught : String) (test k : Js) (others finishing : List Js)
    (hk : k.blockNames = []) :
    (Js.tryStmt o js (.text caught) [.ifStmt o' test [k] others] finishing).Encloses [[], [], [caught]] k := by
  have htest : (Js.ifStmt o' test [k] others).Encloses [[]] k :=
    .part (p := ⟨[[]], k⟩) (by simp [Js.scopedParts, blocked, blockNamesAll, hk]) (.self k)
  exact .part (p := ⟨[[], [caught]], .ifStmt o' test [k] others⟩)
    (by simp [Js.scopedParts, blocked, blockNamesAll, Script.Scoped.under, Js.blockNames, Js.patternNames]) htest

/-- The variable `e` of this clause is not the one outside, but the caught exception. -/
theorem captured_capturingTry : ∃ o js o₁ test others o₂ o₃ o₄ o₅ s', ∃ tree k : Js,
    compileStmt compileTemplate (.standard false false) .top capturingTry .start = .ok tree s' ∧
    tree = .tryStmt o js (.text "e") [.ifStmt o₁ test [k] others] [] ∧
    k = .exprStmt o₂ (.call o₃ "" (.name o₄ (.text "f")) [.name o₅ (.text "e")] .absent) ∧
    tree.Encloses [[], [], ["e"]] k ∧
    ∀ outer, binding "e" ([[], [], ["e"]] ++ outer) = ["e"] :: outer ∧
      binding "e" ([[], [], ["e"]] ++ outer) ≠ binding "e" outer := by
  refine ⟨_, _, _, _, _, _, _, _, _, _, _, _, rfl, rfl, rfl, ?_, fun outer => ?_⟩
  · exact encloses_only _ _ _ _ _ _ _ _ rfl
  · have hinner : ∀ scope ∈ [[], []], "e" ∉ scope := by simp
    have hbinding := Script.binding_append_cons_iff (y := "e") hinner outer
    exact ⟨hbinding.2.mpr rfl, fun heq => hbinding.1.mp heq rfl⟩

end Transpiler.Compile
