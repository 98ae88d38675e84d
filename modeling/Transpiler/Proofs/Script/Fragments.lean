import Mathlib.Data.List.Basic
import Transpiler.Script.Mapping

/-!
# Where fragments stand

The fragments of a piece lie in its text one after the other without overlap (`Tiles`), and each has
a text of its own that is not empty. Main statements:

* `Piece.tiles_fragments`: the fragments of a piece tile its text;
* `Tiles.pairwise`: fragments that tile a text have ascending columns;
* `Tiles.exists_eq_append`: each stands in the text at its column;
* `tiled_pieces_and_lines`: the fragments of pieces and of lines, and when they are all of the text.
-/

namespace Transpiler.Script

/-- The fragments lie in a text that starts at a column, in this order and without overlap, and none
is empty. -/
inductive Tiles : Nat → List Char → List Fragment → Prop
  | nil (col : Nat) (text : List Char) : Tiles col text []
  | skip {col : Nat} {text : List Char} {fs : List Fragment} (gap : List Char)
      (rest : Tiles (col + gap.length) text fs) : Tiles col (gap ++ text) fs
  | cons {text : List Char} {fs : List Fragment} (f : Fragment) (filled : f.text ≠ "")
      (rest : Tiles (f.col + f.text.length) text fs) : Tiles f.col (f.text.toList ++ text) (f :: fs)

namespace Tiles

variable {col : Nat} {text : List Char} {fs : List Fragment}

section

variable (h : Tiles col text fs)

include h

theorem append {more : List Char} {gs : List Fragment}
    (h' : Tiles (col + text.length) more gs) : Tiles col (text ++ more) (fs ++ gs) := by
  induction h with
  | nil _ text => exact .skip text h'
  | skip gap _ ih =>
    rw [List.append_assoc]
    refine .skip gap (ih ?_)
    rwa [Nat.add_assoc, ← List.length_append]
  | cons f filled _ ih =>
    rw [List.append_assoc]
    refine .cons f filled (ih ?_)
    rwa [Nat.add_assoc, ← String.length_toList, ← List.length_append]

theorem shift (n : Nat) : Tiles (col + n) text (fs.map (Fragment.shift n)) := by
  induction h with
  | nil col text => exact .nil (col + n) text
  | @skip _ _ _ gap _ _ =>
    refine .skip gap ?_
    rwa [Nat.add_right_comm]
  | cons f filled =>
    refine .cons (f.shift n) filled ?_
    show Tiles (f.col + n + f.text.length) _ _
    rwa [Nat.add_right_comm]

theorem le_col : ∀ f ∈ fs, col ≤ f.col := by
  induction h with
  | nil => simp
  | skip _ _ ih =>
    intro f hf
    exact Nat.le_trans (Nat.le_add_right _ _) (ih f hf)
  | cons _ _ _ ih =>
    intro g hg
    rcases List.mem_cons.mp hg with rfl | hg
    · exact Nat.le_refl _
    · exact Nat.le_trans (Nat.le_add_right _ _) (ih g hg)

theorem pairwise_end : fs.Pairwise fun f g => f.col + f.text.length ≤ g.col := by
  induction h with
  | nil => exact .nil
  | skip _ _ ih => exact ih
  | cons _ _ rest ih => exact .cons rest.le_col ih

theorem text_ne_empty : ∀ f ∈ fs, f.text ≠ "" := by
  induction h with
  | nil => simp
  | skip _ _ ih => exact ih
  | cons _ filled _ ih => exact List.forall_mem_cons.mpr ⟨filled, ih⟩

theorem pairwise : fs.Pairwise (·.col < ·.col) := by
  refine h.pairwise_end.imp_of_mem fun {f g} hf _ hend => ?_
  have hlen : f.text.length ≠ 0 := fun hlen => h.text_ne_empty f hf (String.length_eq_zero_iff.mp hlen)
  omega

theorem exists_eq_append : ∀ f ∈ fs, ∃ before after, text = before ++ f.text.toList ++ after ∧
    f.col = col + before.length := by
  induction h with
  | nil => simp
  | skip gap _ ih =>
    intro f hf
    obtain ⟨before, after, rfl, hcol⟩ := ih f hf
    exact ⟨gap ++ before, after, by simp, by simp [hcol, Nat.add_assoc]⟩
  | @cons text _ f _ _ ih =>
    intro g hg
    rcases List.mem_cons.mp hg with rfl | hg
    · exact ⟨[], text, rfl, rfl⟩
    · obtain ⟨before, after, rfl, hcol⟩ := ih g hg
      refine ⟨f.text.toList ++ before, after, by simp, ?_⟩
      simp [hcol, Nat.add_assoc, String.length_toList]

theorem ne_nil_of_mem {f : Fragment} (hf : f ∈ fs) : text ≠ [] := by
  obtain ⟨_, _, rfl, -⟩ := h.exists_eq_append f hf
  have := h.text_ne_empty f hf
  simp_all

end

end Tiles

namespace Origin

theorem tiles_fragment (o : Origin) (name : Option String) (col : Nat) {text : String}
    (h : text ≠ "") : Tiles col text.toList (o.fragment name col text) := by
  unfold fragment
  split
  next line _ =>
    have := Tiles.cons ⟨col, text, name, line, (o.source.map (·.col)).getD 0⟩ h (.nil _ [])
    rwa [List.append_nil] at this
  · exact .nil col text.toList

theorem tiles_run (o : Origin) (name : Option String) (col : Nat) (run : String) :
    Tiles col run.toList (if run == "" then [] else o.fragment name col run) := by
  by_cases h : run = ""
  · simpa [h] using Tiles.nil col []
  · simpa [h] using o.tiles_fragment name col h

end Origin

namespace Piece

mutual
theorem tiles_fragments : ∀ p : Piece, Tiles 0 p.toString.toList p.fragments
  | text _ => by
    rw [fragments]
    exact .nil 0 _
  | group o label parts => by
    rw [fragments, toString]
    split
    · have := tiles_runs o (label.nameFor (joinAll parts)) "" 0 parts
      simpa using this
    · exact .nil 0 _

theorem tiles_runs (o : Origin) (name : Option String) (run : String) (col : Nat) :
    ∀ parts : List Piece, Tiles col (run ++ joinAll parts).toList (runs o name run col parts)
  | [] => by
    rw [runs, joinAll, String.append_empty]
    exact o.tiles_run name col run
  | text s :: rest => by
    rw [runs, joinAll, toString, ← String.append_assoc]
    exact tiles_runs o name (run ++ s) col rest
  | group o' label parts :: rest => by
    have hinner := (tiles_fragments (group o' label parts)).shift (col + run.length)
    rw [Nat.zero_add] at hinner
    have hrest := tiles_runs o name "" (col + run.length + (joinAll parts).length) rest
    rw [runs, joinAll, String.toList_append, String.toList_append, ← List.append_assoc]
    refine ((o.tiles_run name col run).append ?_).append ?_
    · rwa [String.length_toList]
    · simpa [toString, Nat.add_assoc, String.length_toList] using hrest
end

mutual
def isPlaced : Piece → Bool
  | text _ => true
  | group o _ parts => o.isMapped && o.line?.isSome && arePlaced parts

def arePlaced : List Piece → Bool
  | [] => true
  | p :: rest => p.isPlaced && arePlaced rest
end

theorem join_run {o : Origin} (ho : o.line?.isSome = true) (name : Option String) (col : Nat) (run : String) :
    String.join ((if run == "" then [] else o.fragment name col run).map (·.text)) = run := by
  obtain ⟨_, hline⟩ := Option.isSome_iff_exists.mp ho
  by_cases hrun : run = "" <;> simp [Origin.fragment, hline, hrun]

mutual
theorem join_fragments : ∀ p : Piece, p.isGroup = true → p.isPlaced = true →
    String.join (p.fragments.map (·.text)) = p.toString
  | group o label parts, _, h => by
    simp only [isPlaced, Bool.and_eq_true] at h
    rw [fragments, if_pos h.1.1, join_runs h.1.2 _ "" 0 parts h.2, toString, String.empty_append]

theorem join_runs {o : Origin} (ho : o.line?.isSome = true) (name : Option String) (run : String) (col : Nat) :
    ∀ parts : List Piece, arePlaced parts = true →
      String.join ((runs o name run col parts).map (·.text)) = run ++ joinAll parts
  | [], _ => by
    rw [runs, joinAll, String.append_empty]
    exact join_run ho name col run
  | text s :: rest, h => by
    simp only [arePlaced, Bool.and_eq_true] at h
    rw [runs, joinAll, toString, ← String.append_assoc]
    exact join_runs ho name (run ++ s) col rest h.2
  | group o' label parts :: rest, h => by
    simp only [arePlaced, Bool.and_eq_true] at h
    have hinner := join_fragments (group o' label parts) rfl h.1
    have hrest := join_runs ho name "" (col + run.length + (joinAll parts).length) rest h.2
    have hshift (n : Nat) : (fun f : Fragment => f.text) ∘ Fragment.shift n = (·.text) := rfl
    rw [runs]
    simp only [List.map_append, String.join_append, join_run ho, List.map_map, hshift, hinner, hrest, joinAll,
      String.empty_append, String.append_assoc]
end

end Piece

def Fragment.StandsIn (f : Fragment) (text : String) : Prop :=
  ((text.toList.drop f.col).take f.text.length) = f.text.toList

theorem Tiles.standsIn {text : String} {fs : List Fragment} (h : Tiles 0 text.toList fs) :
    ∀ f ∈ fs, f.StandsIn text := by
  intro f hf
  obtain ⟨_, _, htext, hcol⟩ := h.exists_eq_append f hf
  rw [Fragment.StandsIn, htext, hcol, Nat.zero_add, List.append_assoc, List.drop_left, ← String.length_toList,
    List.take_left]

theorem Line.tiles_fragments {l : Line} {p : Piece} (hp : l.content = .piece p)
    (hfilled : Text.allBlank p.toString = false) :
    ∃ fs, (Item.line l).fragments? = .ok fs ∧ Tiles 0 l.toString.toList fs := by
  have hblank : Text.allBlank (p.toString ++ (if l.delim then ";" else "")) = false := by
    rw [Text.allBlank, String.toList_append, List.all_append, ← Text.allBlank, hfilled, Bool.false_and]
  have htext : l.toString.toList = List.replicate (indentStep * l.indent) ' ' ++
      (p.toString.toList ++ ((if l.delim then ";" else "") ++ "\n").toList) := by
    simp [Line.toString, hp, Content.toString, hblank, margin]
  have hwhole {fs : List Fragment} (h : Tiles (indentStep * l.indent) p.toString.toList fs) :
      Tiles 0 l.toString.toList fs := by
    rw [htext, ← List.append_nil fs]
    exact .skip _ (by simpa using h.append (.nil _ _))
  rw [Item.fragments?]
  split
  · rw [hp]
    cases p with
    | text =>
      refine ⟨_, rfl, hwhole (l.origin.tiles_fragment none _ ?_)⟩
      rintro rfl
      cases hfilled
    | group o label parts =>
      exact ⟨_, rfl, hwhole (by simpa using (Piece.tiles_fragments (.group o label parts)).shift _)⟩
  · exact ⟨[], rfl, .nil _ _⟩

/-- **Fragments tile the text.** The fragments of a piece are filled, come one after the other, stand in its text at
their columns, and are all of the text of a group if all groups in it have a source line. Those of a line with text
that is not blank stand in the line, its indentation included. -/
theorem tiled_pieces_and_lines (p : Piece) : (∀ f ∈ p.fragments, f.StandsIn p.toString ∧ f.text ≠ "") ∧
    p.fragments.Pairwise (fun f g => f.col + f.text.length ≤ g.col) ∧
    (p.isGroup = true → p.isPlaced = true → String.join (p.fragments.map (·.text)) = p.toString) ∧
    ∀ l : Line, l.content = .piece p → Text.allBlank p.toString = false →
      ∃ fs, (Item.line l).fragments? = .ok fs ∧ ∀ f ∈ fs, f.StandsIn l.toString := by
  have htiles := Piece.tiles_fragments p
  refine ⟨fun f hf => ⟨htiles.standsIn f hf, htiles.text_ne_empty f hf⟩, htiles.pairwise_end, p.join_fragments, ?_⟩
  intro l hp hfilled
  obtain ⟨fs, hfs, htiles⟩ := Line.tiles_fragments hp hfilled
  exact ⟨fs, hfs, htiles.standsIn⟩

def placedCall : Piece :=
  let o (kind : String) : Origin := ⟨some ⟨kind, none, true, some 3⟩, some ⟨false, true⟩⟩
  .group (o "Call") .none [.text "(", .group (o "Name") .own [.text "f"], .text "(", .text "))"]

theorem tiled_placedCall : String.join (placedCall.fragments.map (·.text)) = "(f())" ∧
    ∃ fs, (Item.line ⟨default, 1, true, .piece placedCall⟩).fragments? = .ok fs ∧
      ∀ f ∈ fs, f.StandsIn (Line.toString ⟨default, 1, true, .piece placedCall⟩) := by
  have h := tiled_pieces_and_lines placedCall
  exact ⟨h.2.2.1 rfl (by decide), h.2.2.2 ⟨default, 1, true, .piece placedCall⟩ rfl (by decide)⟩

end Transpiler.Script
