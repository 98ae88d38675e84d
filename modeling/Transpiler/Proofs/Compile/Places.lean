import Transpiler.Proofs.Compile.Script
import Transpiler.Proofs.SourceMap.Adding

/-!
# Whether tokens point at their text

A token of the map of a compiled text gives a line and a column of the output. Both are counted per
item of the layout: the line is the one that the item starts on, and the column runs on from the
start of the item. So the text of a token is found where the token says exactly if no line feed comes
before it in its item (`standsAt_iff_of_mem_tokens`). A function that is an argument spans several
lines of one item, and what follows it is misplaced (`exists_token_misplaced`).
-/

namespace Transpiler.Compile

open Script (Item Js Mapped Mapping Offset)
open SourceMap (Token)
open Text (StandsAt)

theorem exists_mapping_of_mem_ofItems {content : Json} {file : String} {src dst : Offset}
    {items : List Item} {map : SourceMap}
    (h : SourceMap.ofItems content file src dst items = .ok map) {t : Token} (ht : t ∈ map.tokens) :
    ∃ ms, Mapped src dst 1 items ms ∧ ∃ m ∈ ms, t = .ofMapping file m := by
  obtain ⟨ms, hms, h⟩ := bind_eq_ok.mp h
  refine ⟨ms, Script.mappings?_eq_ok.mp hms, ?_⟩
  rcases SourceMap.mem_of_addAll h ht with ht | ht
  · simp [SourceMap.make] at ht
  · obtain ⟨m, hm, rfl⟩ := List.mem_map.mp ht
    exact ⟨m, hm, rfl⟩

/-- Each token belongs to a line of the layout. The text of the token stands where the token says, up
to an indentation that is not written, if and only if no line feed comes before it in that line. -/
theorem standsAt_iff_of_mem_tokens {r : Request} {s : SourceText} {out : Output}
    (h : compileText r s = .ok out) {t : Token} (ht : t ∈ out.map.tokens) :
    ∃ body script before l after m, s.tree = some body ∧ compileScript r body = .ok script ∧
      out.text = Item.joinAll script.items ∧ script.items = before ++ .line l :: after ∧
      t.mapping = some m ∧ t.dstLine = Text.lineFeeds (Item.joinAll before) ∧
      (StandsAt out.text.toList t.dstLine (t.dstCol - l.unwritten) m.text.toList ↔
        '\n' ∉ l.toString.toList.take (t.dstCol.toNat - l.unwritten)) := by
  obtain ⟨offset, body, script, items, map, -, htree, hscript, hitems, hmap, rfl⟩ :=
    compileText_eq_ok_iff.mp h
  obtain rfl := items?_eq_ok hitems
  obtain ⟨ms, hms, m, hm, rfl⟩ := exists_mapping_of_mem_ofItems hmap ht
  obtain ⟨before, i, after, fs, f, heq, hfs, hf, rfl⟩ := hms.exists_of_mem hm
  have hlines := isLine_of_mem_items (isStatements_compileScript hscript)
  obtain ⟨l, rfl⟩ := hlines i (by simp [heq])
  have hline : (1 : Int) + Text.lineFeeds (Item.joinAll before) + 0 - 1 =
      Text.lineFeeds (Item.joinAll before) := by omega
  have hcol : (f.col : Int) + 0 = f.col := by omega
  refine ⟨body, script, before, l, after, _, htree, hscript, rfl, heq, rfl, hline, ?_⟩
  simp only [Token.ofMapping, Script.Fragment.toMapping, Offset.zero]
  rw [hline, hcol, Int.toNat_natCast, heq]
  exact Script.Line.standsAt_iff (fun i hi => hlines i (by simp [heq, hi])) hfs hf

def callWithFunction : SourceText :=
  .ofText "f(lambda x: x, y)" (some [.expr (some ⟨1, 0⟩)
    (.call (some ⟨1, 0⟩) (.name (some ⟨1, 0⟩) "f")
      [.lambda (some ⟨1, 2⟩) ⟨[], [⟨some ⟨1, 9⟩, "x"⟩], none, [], none⟩ [] []
        (.name (some ⟨1, 12⟩) "x"), .name (some ⟨1, 15⟩) "y"] [])])

def callWithFunctionOutput : Output where
  text := "f((x) => \x7b\n    return x;\n\x7d, y);\n"
  map := {
    tokens := [⟨1, 0, 1, 0, some "f", "f"⟩, ⟨1, 1, 1, 0, none, "((x) => \x7b\n    return x;\n"⟩,
      ⟨1, 25, 1, 2, none, "\x7d"⟩, ⟨1, 26, 1, 0, none, ", "⟩, ⟨1, 28, 1, 15, some "y", "y"⟩,
      ⟨1, 29, 1, 0, none, ")"⟩].map (Token.ofMapping "<source>")
    contents := [("<source>", .str "f(lambda x: x, y)")]
    raw := []
    lenient := false }

theorem compileText_callWithFunction :
    compileText (.standard false false) callWithFunction = .ok callWithFunctionOutput := by
  rfl

def functionToken : Token :=
  .ofMapping "<source>" ⟨1, 1, 1, 0, none, "((x) => \x7b\n    return x;\n"⟩

theorem standsAt_iff_functionToken : functionToken ∈ callWithFunctionOutput.map.tokens ∧
    ∃ body script before l after m, callWithFunction.tree = some body ∧
      compileScript (.standard false false) body = .ok script ∧
      callWithFunctionOutput.text = Item.joinAll script.items ∧
      script.items = before ++ .line l :: after ∧ functionToken.mapping = some m ∧
      functionToken.dstLine = Text.lineFeeds (Item.joinAll before) ∧
      (StandsAt callWithFunctionOutput.text.toList functionToken.dstLine
          (functionToken.dstCol - l.unwritten) m.text.toList ↔
        '\n' ∉ l.toString.toList.take (functionToken.dstCol.toNat - l.unwritten)) := by
  have hmem : functionToken ∈ callWithFunctionOutput.map.tokens := by decide
  exact ⟨hmem, standsAt_iff_of_mem_tokens compileText_callWithFunction hmem⟩

/-- A token behind a function among the arguments of a call points beside its text. -/
theorem exists_token_misplaced : ∃ out t m, compileText (.standard false false) callWithFunction = .ok out ∧
      t ∈ out.map.tokens ∧ t.mapping = some m ∧
      ¬ StandsAt out.text.toList t.dstLine t.dstCol m.text.toList := by
  refine ⟨callWithFunctionOutput, .ofMapping "<source>" ⟨1, 28, 1, 15, some "y", "y"⟩, _,
    compileText_callWithFunction, ?_, rfl, ?_⟩
  · decide
  · decide

end Transpiler.Compile
