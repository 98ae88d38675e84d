import Transpiler.Proofs.Compile.Traced
import Transpiler.Proofs.SourceMap.Adding

/-!
# The map of a script

A script that can be written can be mapped. Its mappings come in the order of the output, so each
token goes to the end of the map, and the tokens are the mappings one by one
(`exists_map_of_compileScript`). All this takes from the source is that lines count from one.
-/

namespace Transpiler.Compile

open Script (Fragment Item Js Mapped Mapping Offset Origin mappings? numberLines)
open Source (Expr Info Ref Stmt)
open Source.Tree (allOf)
open SourceMap (Token make ofItems)

def isPlaced (i : Info) : Bool :=
  i.pos.all (1 ≤ ·.line)

def IsOnLine (o : Origin) : Prop :=
  ∀ line ∈ o.line?, 1 ≤ line

theorem asksPlace_isOnLine : AsksPlace IsOnLine where
  congr o o' h ho := by
    simpa [IsOnLine, Origin.line?, h] using ho
  unplaced o h := by
    simp [IsOnLine, h]

theorem isOnLine_of_ref {cfg : Config} (hremap : cfg.remap = none) {r : Ref}
    (h : ∀ line ∈ r.line, 1 ≤ line) : IsOnLine (cfg.origin (some r)) := by
  intro line hline
  simp only [Origin.line?, Config.origin, hremap, Option.none_or] at hline
  split at hline
  · simp at hline
  · exact h line hline

theorem covers_isPlaced {cfg : Config} (hremap : cfg.remap = none) : Covers cfg isPlaced IsOnLine where
  none := asksPlace_isOnLine.unplaced _ (by simp [Origin.line?, Config.origin, hremap])
  absent := isOnLine_of_ref hremap (by simp [Expr.ref, Expr.pos])
  node i cited hi := by
    refine isOnLine_of_ref hremap fun _ hline => ?_
    obtain ⟨_, hp, rfl⟩ := Option.map_eq_some_iff.mp hline
    simpa [isPlaced, hp] using hi
  decorated i d _ hd := by
    refine isOnLine_of_ref hremap fun _ hline => ?_
    obtain ⟨p, hp, rfl⟩ := Option.map_eq_some_iff.mp hline
    have hplaced := d.info_of_allOf hd (by rintro rfl; cases hp)
    have : 1 ≤ p.line := by simpa [isPlaced, hp] using hplaced
    show 1 ≤ p.line + 1
    omega

theorem ref_col_nonneg (r : Ref) : 0 ≤ r.col := by
  unfold Ref.col
  split <;> omega

section

variable {items : List Item} {ms : List Mapping} {src dst : Offset}

theorem exists_mapped {Q : Origin → Prop} (hlines : ∀ i ∈ items, i.IsLine) (h : Script.ItemsTraced Q False items) :
    ∃ ms, Mapped src dst 1 items ms ∧ ∀ m ∈ ms, ∃ f line, f.Traced Q ∧ 1 ≤ line ∧
      m = Fragment.toMapping src dst line f := by
  have hfragments : ∀ i ∈ items, ∃ fs, i.fragments? = .ok fs ∧ ∀ f ∈ fs, f.Traced Q := by
    intro i hi
    obtain ⟨l, rfl⟩ := hlines i hi
    exact Script.Line.Traced.exists_fragments (h (.line l) hi)
  obtain ⟨ms, hms⟩ : ∃ ms, Mapped src dst 1 items ms :=
    Mapped.exists_of_forall fun i hi => (hfragments i hi).imp fun _ => And.left
  refine ⟨ms, hms, fun m hm => ?_⟩
  obtain ⟨_, i, _, fs, f, rfl, hfs, hf, rfl⟩ := hms.exists_of_mem hm
  obtain ⟨gs, hgs, htraced⟩ := hfragments i (by simp)
  obtain rfl : fs = gs := by simpa [hfs] using hgs
  exact ⟨f, _, htraced f hf, by omega, rfl⟩

theorem pairwise_isAfter (file : String) (h : ms.Pairwise fun m n =>
    m.dstLine < n.dstLine ∨ (m.dstLine = n.dstLine ∧ m.dstCol < n.dstCol)) :
    (ms.map (Token.ofMapping file)).Pairwise fun u t => t.isAfter u := by
  refine List.pairwise_map.mpr (h.imp fun {m n} hmn => ?_)
  rcases hmn with hlt | ⟨heq, hlt⟩
  · simp [Token.isAfter, Token.ofMapping, hlt]
  · simpa [Token.isAfter, Token.ofMapping, heq] using decide_eq_true hlt

theorem ofItems_eq_ok_iff (hlines : ∀ i ∈ items, i.IsLine) {content : Json} {file : String} {map : SourceMap} :
    ofItems content file src dst items = .ok map ↔ ∃ ms, Mapped src dst 1 items ms ∧
      map = { make [] [(file, content)] [] false with tokens := ms.map (Token.ofMapping file) } := by
  have hadd {ms : List Mapping} (hms : Mapped src dst 1 items ms) :=
    SourceMap.addAll_of_pairwise (m := .make [] [(file, content)] [] false)
      (pairwise_isAfter file (hms.pairwise hlines))
  simp only [ofItems, bind_eq_ok, Script.mappings?_eq_ok]
  constructor
  · rintro ⟨ms, hms, h⟩
    rw [hadd hms] at h
    cases h
    exact ⟨ms, hms, rfl⟩
  · rintro ⟨ms, hms, rfl⟩
    exact ⟨ms, hms, hadd hms⟩

theorem exists_addAll_of_pairwise {m : SourceMap} (hm : m.tokens = []) {before after : List Token}
    {t : Token} (h : (before ++ t :: after).Pairwise fun u t => t.isAfter u) :
    ∃ m', m.addAll before = .ok m' ∧ m'.tokens = before ∧ m'.tokens.getLast?.all t.isAfter = true := by
  have hbefore : (m.tokens ++ before).Pairwise fun u t => t.isAfter u := by
    simpa [hm] using (List.pairwise_append.mp h).1
  refine ⟨_, SourceMap.addAll_of_pairwise hbefore, by simp [hm], ?_⟩
  rw [Option.all_eq_true]
  intro last hlast
  have hmem : last ∈ before := by simpa [hm] using List.mem_of_getLast? hlast
  exact (List.pairwise_append.mp h).2.2 last hmem t (by simp)

end

/-- A script that can be written can be mapped. The mappings come in the order of the output, so each
token is put at the end of the map, and the tokens are the mappings one by one. No coordinate is
negative and no name is empty, and each item starts at the first column of the line that it is
counted on. -/
theorem exists_map_of_compileScript {r : Request} {body : List Stmt}
    (hplaced : allOf isPlaced (Source.stmtTrees body) = true)
    (hproper : Source.areProper body = true) {script : Js}
    (hscript : compileScript r body = .ok script) {items : List Item}
    (hitems : script.items? = .ok items) (content : Json) (file : String) {src dst : Offset}
    (hsrc : 0 ≤ src.line ∧ 0 ≤ src.col) (hdst : 0 ≤ dst.line ∧ 0 ≤ dst.col) :
    ∃ ms map, mappings? src dst items = .ok ms ∧ ofItems content file src dst items = .ok map ∧
      (ms.Pairwise fun m n =>
        m.dstLine < n.dstLine ∨ (m.dstLine = n.dstLine ∧ m.dstCol < n.dstCol)) ∧
      map.tokens = ms.map (Token.ofMapping file) ∧
      (∀ before t after, map.tokens = before ++ t :: after →
        ∃ m, (make [] [(file, content)] [] false).addAll before = .ok m ∧
          m.tokens = before ∧ m.tokens.getLast?.all t.isAfter = true) ∧
      (∀ t ∈ map.tokens, 0 ≤ t.dstLine ∧ 0 ≤ t.dstCol ∧ 0 ≤ t.srcLine ∧ 0 ≤ t.srcCol ∧ t.name ≠ some "") ∧
      (∀ (k : Nat) n i, (numberLines Item.toString 1 items)[k]? = some (n, i) →
        n = 1 + Text.lineFeeds (Item.joinAll (items.take k)) ∧
          Text.column (Item.joinAll (items.take k)).toList = 0) := by
  obtain rfl := items?_eq_ok hitems
  have hlines := isLine_of_mem_items (isStatements_compileScript hscript)
  obtain ⟨hbare, htraced⟩ :=
    traced_compileScript asksPlace_isOnLine (covers_isPlaced rfl).grounds (fun s hs =>
      ⟨Source.allOf_stmtTrees.mp hplaced s hs, Source.areProper_iff.mp hproper s hs⟩) hscript
  have hitemsTraced : Script.ItemsTraced IsOnLine False script.items := by
    simpa [hbare] using script.traced_items htraced
  obtain ⟨ms, hms, hfragments⟩ : ∃ ms, Mapped src dst 1 script.items ms ∧ ∀ m ∈ ms,
      ∃ f line, f.Traced IsOnLine ∧ 1 ≤ line ∧ m = Fragment.toMapping src dst line f :=
    exists_mapped hlines hitemsTraced
  have hpairwise := hms.pairwise hlines
  have hafter := pairwise_isAfter file hpairwise
  refine ⟨ms, _, Script.mappings?_eq_ok.mpr hms, (ofItems_eq_ok_iff hlines).mpr ⟨ms, hms, rfl⟩, hpairwise, rfl,
    ?_, ?_, ?_⟩
  · intro before t after heq
    replace heq : ms.map (Token.ofMapping file) = before ++ t :: after := heq
    rw [heq] at hafter
    exact exists_addAll_of_pairwise rfl hafter
  · intro t ht
    obtain ⟨m, hm, rfl⟩ := List.mem_map.mp ht
    obtain ⟨f, line, ⟨hname, o, ho, hline, hcol⟩, hpos, rfl⟩ := hfragments m hm
    have hsrcLine : 1 ≤ f.srcLine := ho f.srcLine hline
    have hsrcCol : 0 ≤ f.srcCol := by
      rw [hcol]
      cases o.source with
      | none => simp
      | some r => exact ref_col_nonneg r
    simp only [Token.ofMapping, Fragment.toMapping]
    exact ⟨by omega, by omega, by omega, by omega, hname⟩
  · intro k n i h
    rw [Script.numberLines_getElem?, Option.map_eq_some_iff] at h
    obtain ⟨j, -, h⟩ := h
    cases h
    refine ⟨rfl, (Script.startsLine_joinAll fun i hi => ?_).column_eq_zero⟩
    exact hlines i (List.mem_of_mem_take hi)

def summingLoop : List Stmt :=
  [.forLoop (some ⟨1, 0⟩) false (.name (some ⟨1, 4⟩) "x") (.name (some ⟨1, 9⟩) "xs")
    [.augAssign (some ⟨2, 4⟩) (.name (some ⟨2, 4⟩) "n") .add (.name (some ⟨2, 9⟩) "x")] []]

theorem exists_map_summingLoop : ∃ script items, compileScript (.standard false false) summingLoop = .ok script ∧
      script.items? = .ok items ∧
      ∃ ms map, mappings? ⟨1, 0⟩ .zero items = .ok ms ∧ ofItems .null "sum" ⟨1, 0⟩ .zero items = .ok map ∧
        (ms.Pairwise fun m n =>
          m.dstLine < n.dstLine ∨ (m.dstLine = n.dstLine ∧ m.dstCol < n.dstCol)) ∧
        map.tokens = ms.map (Token.ofMapping "sum") ∧
        (∀ before t after, map.tokens = before ++ t :: after →
          ∃ m, (make [] [("sum", .null)] [] false).addAll before = .ok m ∧
            m.tokens = before ∧ m.tokens.getLast?.all t.isAfter = true) ∧
        (∀ t ∈ map.tokens, 0 ≤ t.dstLine ∧ 0 ≤ t.dstCol ∧ 0 ≤ t.srcLine ∧ 0 ≤ t.srcCol ∧ t.name ≠ some "") ∧
        (∀ (k : Nat) n i, (numberLines Item.toString 1 items)[k]? = some (n, i) →
          n = 1 + Text.lineFeeds (Item.joinAll (items.take k)) ∧
            Text.column (Item.joinAll (items.take k)).toList = 0) := by
  have hplaced : allOf isPlaced (Source.stmtTrees summingLoop) = true := rfl
  exact ⟨_, _, rfl, rfl, exists_map_of_compileScript (r := .standard false false) hplaced rfl rfl rfl
    .null "sum" (by decide) (by decide)⟩

end Transpiler.Compile
