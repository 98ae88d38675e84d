import Transpiler.Compile.Text
import Transpiler.Proofs.Script.Places

/-!
# Scripts of texts

The stages of compiling a text: its script, the items that the script is laid out as, and their map
(`compileText_eq_ok_iff`). A script is always a list of statements (`exists_eq_statements`), and a
list of statements is laid out as lines (`isLine_of_mem_items`).
-/

namespace Transpiler.Compile

open Script (Item Js Offset)
open Source (Stmt)

variable {j script : Js} {r : Request} {cfg : Config} {body : List Stmt} {c : Compiled}

theorem items?_eq_ok {items : List Item} (h : j.items? = .ok items) : items = j.items := by
  obtain ⟨_, -, h⟩ := bind_eq_ok.mp h
  cases h
  rfl

theorem compileText_eq_ok_iff {s : SourceText} {out : Output} : compileText r s = .ok out ↔
    ∃ offset body script items map, sourceOffset r s = .ok offset ∧ s.tree = some body ∧
      compileScript r body = .ok script ∧ script.items? = .ok items ∧
      SourceMap.ofItems (.str (given r.whole s.text)) (given r.filename "<source>") offset .zero
        items = .ok map ∧
      out = ⟨Item.joinAll items, map⟩ := by
  rw [compileText]
  simp only [bind_eq_ok]
  constructor
  · rintro ⟨offset, hoffset, h⟩
    rcases htree : s.tree with _ | body
    · rw [htree] at h
      cases h
    · rw [htree] at h
      obtain ⟨script, hscript, items, hitems, map, hmap, h⟩ := by simpa only [bind_eq_ok] using h
      cases h
      exact ⟨offset, body, script, items, map, hoffset, rfl, hscript, hitems, hmap, rfl⟩
  · rintro ⟨offset, _, script, items, map, hoffset, htree, hscript, hitems, hmap, rfl⟩
    refine ⟨offset, hoffset, ?_⟩
    simp only [htree, bind_eq_ok]
    exact ⟨script, hscript, items, hitems, map, hmap, rfl⟩

def IsStatements (j : Js) : Prop :=
  ∃ o items, j = .statements o items

theorem yields_compileBody (templates : Templates) (cfg : Config) (here : Place)
    (body : List Stmt) : Yields (compileBody templates cfg here body) IsStatements := by
  refine .andThen _ fun _ => .andThen _ fun _ => .andThen _ fun s => .pure ?_
  exact ⟨_, _, rfl⟩

theorem isStatements_compileModule {here : Place}
    (h : compileModule cfg here body = .ok c) : IsStatements c.script := by
  unfold compileModule at h
  split at h
  next hrun =>
    cases h
    exact yields_compileBody _ _ _ _ _ _ _ hrun
  · cases h

theorem withLibrary_eq_ok_iff : c.withLibrary cfg = .ok script ↔ c.session.snippets.getD [] = [] ∧ script = c.script ∨
    c.session.snippets.getD [] ≠ [] ∧ ∃ library, compileLibrary cfg (c.session.snippets.getD []) = .ok library ∧
      script = before library c.script := by
  unfold Compiled.withLibrary
  split
  next hnil =>
    simp only [hnil, true_and, ne_eq, not_true_eq_false, false_and, or_false]
    exact ⟨fun h => by cases h; rfl, fun h => by rw [h]; rfl⟩
  next hfs =>
    rw [bind_eq_ok]
    constructor
    · rintro ⟨library, hlibrary, h⟩
      cases h
      exact .inr ⟨hfs, library, hlibrary, rfl⟩
    · rintro (⟨hnil, -⟩ | ⟨-, library, hlibrary, rfl⟩)
      · exact absurd hnil hfs
      · exact ⟨library, hlibrary, rfl⟩

theorem selectBody_eq_ok {bodyOnly : Bool} {inner : List Stmt} {place : Place}
    (h : selectBody cfg bodyOnly body = .ok (place, inner)) :
    (place = .top ∧ inner = body ∧ ∀ cfg', selectBody cfg' bodyOnly body = .ok (.top, body)) ∨
      ∃ s all, body = [s] ∧ s.body? = some all ∧ inner ⊆ all ∧ place = bodyPlace cfg s ∧
        ∀ cfg', selectBody cfg' bodyOnly body = .ok (bodyPlace cfg' s, inner) := by
  revert h
  fun_cases selectBody cfg bodyOnly body
  case case1 s hbody =>
    rintro ⟨⟩
    exact .inl ⟨rfl, rfl, by simp [selectBody, hbody]⟩
  case case2 => rintro ⟨⟩
  case case3 s all hbody p value hlast =>
    rintro ⟨⟩
    refine .inr ⟨s, all, rfl, hbody, List.dropLast_subset _, rfl, ?_⟩
    simp [selectBody, hbody, hlast]
  case case4 s all hbody last hnot hlast =>
    rintro ⟨⟩
    refine .inr ⟨s, inner, rfl, hbody, fun _ => id, rfl, ?_⟩
    simp [selectBody, hbody, hlast]
  case case5 hnot =>
    rintro ⟨⟩
    refine .inl ⟨rfl, rfl, ?_⟩
    simp [selectBody]

theorem isStatements_compileScript (h : compileScript r body = .ok script) : IsStatements script := by
  simp only [compileScript, bind_eq_ok] at h
  obtain ⟨⟨_, _⟩, -, _, hcompiled, h⟩ := h
  obtain ⟨o, items, hitems⟩ := isStatements_compileModule hcompiled
  unfold Compiled.withLibrary at h
  split at h
  · cases h
    exact ⟨o, items, hitems⟩
  · obtain ⟨_, hlibrary, h⟩ := bind_eq_ok.mp h
    cases h
    obtain ⟨o', items', rfl⟩ := (yields_compileBody _ _ _ _).result hlibrary
    rw [hitems]
    exact ⟨o', items' ++ items, rfl⟩

theorem isLine_of_mem_items (h : IsStatements j) : ∀ i ∈ j.items, i.IsLine := by
  obtain ⟨_, _, rfl⟩ := h
  intro _ hi
  rw [Js.items] at hi
  obtain ⟨_, -, hi⟩ := List.mem_flatMap.mp hi
  obtain ⟨j, -, rfl⟩ := List.mem_map.mp hi
  cases j with
  | line => exact ⟨_, rfl⟩
  | piece => exact ⟨_, rfl⟩
  | bare => exact ⟨_, rfl⟩

end Transpiler.Compile
