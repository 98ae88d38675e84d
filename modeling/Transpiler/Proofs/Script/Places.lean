import Transpiler.Proofs.Outcome
import Transpiler.Proofs.Script.Fragments
import Transpiler.Proofs.Text.Places

/-!
# Where mappings point in the output

Items are written one after the other, and each is mapped on its own: its fragments keep their
columns and get the line that it starts on. `Mapped` is the relation between items and mappings that
this gives; it holds of exactly what `mappings?` returns. If all items are lines, then

* mappings come in the order of the output (`Mapped.pairwise`);
* each belongs to one item, and its text stands where the mapping says, unless a line feed comes
  before it in its item or the indentation of the item is not written (`Line.standsAt_iff`).
-/

namespace Transpiler.Script

open Text (lineFeeds)

variable {l : Line} {fs : List Fragment} {f : Fragment} {m : Mapping}

/-! ### Lines -/

@[simp]
theorem length_margin (indent : Nat) : (margin indent).length = indentStep * indent := by
  simp [margin]

/-- The blanks that the columns of a line count but that are not written: the indentation of a blank
line. -/
def Line.unwritten (l : Line) : Nat :=
  if Text.allBlank (l.content.toString ++ if l.delim then ";" else "") then indentStep * l.indent
  else 0

theorem Line.exists_toString_eq (l : Line) : ∃ blanks : String, blanks.length + l.unwritten = indentStep * l.indent ∧
    l.toString = blanks ++ (l.content.toString ++ if l.delim then ";" else "") ++ "\n" := by
  by_cases h : Text.allBlank (l.content.toString ++ if l.delim then ";" else "")
  · exact ⟨"", by simp [unwritten, h], by simp [Line.toString, h]⟩
  · exact ⟨margin l.indent, by simp [unwritten, h], by simp [Line.toString, h]⟩

theorem Line.exists_toList_eq (l : Line) : ∃ front, l.toString.toList = front ++ ['\n'] := by
  refine ⟨(l.toString.toList).dropLast, ?_⟩
  simp [Line.toString]

theorem Line.startsLine (l : Line) : Text.StartsLine l.toString.toList := by
  obtain ⟨_, h⟩ := l.exists_toList_eq
  simp [Text.StartsLine, h]

theorem Line.lineFeeds_pos (l : Line) : 0 < lineFeeds l.toString := by
  obtain ⟨_, h⟩ := l.exists_toList_eq
  simp [lineFeeds, h]

theorem Line.fragments_cases (h : (Item.line l).fragments? = .ok fs) : fs = [] ∨ (∃ s, l.content = .piece (.text s) ∧
      fs = l.origin.fragment none (indentStep * l.indent) s) ∨
    (∃ p, l.content = .piece p ∧ fs = p.fragments.map (Fragment.shift (indentStep * l.indent))) := by
  simp only [Item.fragments?] at h
  split at h
  · split at h
    next s hs => exact .inr (.inl ⟨s, hs, by simpa using h.symm⟩)
    next p _ hp => exact .inr (.inr ⟨p, hp, by simpa using h.symm⟩)
    · simp at h
  · exact .inl (by simpa using h.symm)

theorem Item.pairwise_of_fragments {i : Item} (h : i.fragments? = .ok fs) : fs.Pairwise (·.col < ·.col) := by
  cases i with
  | bare => simp [fragments?] at h
  | piece p =>
    cases h
    exact p.tiles_fragments.pairwise
  | line l =>
    rcases l.fragments_cases h with rfl | ⟨_, -, rfl⟩ | ⟨p, -, rfl⟩
    · exact .nil
    · rw [Origin.fragment]
      split <;> simp
    · exact (p.tiles_fragments.shift _).pairwise

theorem Line.exists_eq_append (h : (Item.line l).fragments? = .ok fs) (hf : f ∈ fs) :
    ∃ front after, l.toString.toList = front ++ f.text.toList ++ after ∧ front.length + l.unwritten = f.col := by
  obtain ⟨blanks, hblanks, htext⟩ := l.exists_toString_eq
  rw [htext]
  rcases l.fragments_cases h with rfl | ⟨_, hs, rfl⟩ | ⟨p, hp, rfl⟩
  · simp at hf
  · rw [Origin.fragment] at hf
    split at hf
    · obtain rfl := List.mem_singleton.mp hf
      refine ⟨blanks.toList, (if l.delim then ";" else "").toList ++ ['\n'], ?_, ?_⟩
      · simp [hs, Content.toString, Piece.toString]
      · rw [String.length_toList, hblanks]
    · simp at hf
  · obtain ⟨g, hg, rfl⟩ := List.mem_map.mp hf
    obtain ⟨front, after, heq, _⟩ := p.tiles_fragments.exists_eq_append g hg
    refine ⟨blanks.toList ++ front, after ++ (if l.delim then ";" else "").toList ++ ['\n'], ?_, ?_⟩
    · simp [hp, Content.toString, heq, Fragment.shift]
    · rw [List.length_append, String.length_toList]
      show _ = g.col + indentStep * l.indent
      omega

/-! ### Items one after the other -/

inductive Mapped (src dst : Offset) : Int → List Item → List Mapping → Prop
  | nil (line : Int) : Mapped src dst line [] []
  | cons {line : Int} {i : Item} {fs : List Fragment} {rest : List Item} {ms : List Mapping}
      (here : i.fragments? = .ok fs)
      (later : Mapped src dst (line + lineFeeds i.toString) rest ms) :
      Mapped src dst line (i :: rest) (fs.map (Fragment.toMapping src dst line) ++ ms)

variable {src dst : Offset} {line : Int} {items : List Item} {ms : List Mapping}

theorem mapped_iff_mapM : Mapped src dst line items ms ↔
    ∃ each : List (List Mapping), (numberLines Item.toString line items).mapM (fun (line, i) => do
      return (← i.fragments?).map (Fragment.toMapping src dst line)) =
        (.ok each : Except Fault _) ∧ ms = each.flatten := by
  induction items generalizing line ms with
  | nil =>
    constructor
    · rintro ⟨⟩
      exact ⟨[], rfl, rfl⟩
    · rintro ⟨_, h, rfl⟩
      cases h
      exact .nil line
  | cons _ _ ih =>
    simp only [numberLines, List.mapM_cons, bind_eq_ok]
    constructor
    · rintro (_ | ⟨here, later⟩)
      obtain ⟨_, heach, rfl⟩ := ih.mp later
      exact ⟨_, ⟨_, ⟨_, here, rfl⟩, _, heach, rfl⟩, rfl⟩
    · rintro ⟨_, ⟨_, ⟨_, here, hfs⟩, each, heach, hall⟩, rfl⟩
      cases hfs
      cases hall
      exact .cons here (ih.mpr ⟨each, heach, rfl⟩)

theorem mappings?_eq_ok : mappings? src dst items = .ok ms ↔ Mapped src dst 1 items ms := by
  rw [mapped_iff_mapM, mappings?]
  simp only [bind_eq_ok]
  constructor
  · rintro ⟨each, h, hms⟩
    cases hms
    exact ⟨each, h, rfl⟩
  · rintro ⟨each, h, rfl⟩
    exact ⟨each, h, rfl⟩

@[simp]
theorem Item.joinAll_nil : joinAll [] = "" :=
  rfl

@[simp]
theorem Item.joinAll_cons (i : Item) (rest : List Item) : joinAll (i :: rest) = i.toString ++ joinAll rest := by
  rw [← String.toList_inj]
  simp [joinAll, String.toList_join]

@[simp]
theorem Item.joinAll_append (first second : List Item) :
    joinAll (first ++ second) = joinAll first ++ joinAll second := by
  induction first with
  | nil => simp
  | cons _ _ ih => simp [ih, String.append_assoc]

@[simp]
theorem lineFeeds_append (s t : String) : lineFeeds (s ++ t) = lineFeeds s + lineFeeds t := by
  simp [lineFeeds]

def Item.IsLine (i : Item) : Prop :=
  ∃ l, i = .line l

theorem startsLine_joinAll (h : ∀ i ∈ items, i.IsLine) : Text.StartsLine (Item.joinAll items).toList := by
  induction items with
  | nil => exact Text.startsLine_nil
  | cons i _ ih =>
    obtain ⟨l, rfl⟩ := h i (by simp)
    rw [Item.joinAll_cons, String.toList_append]
    exact l.startsLine.append (ih fun j hj => h j (by simp [hj]))

/-- A fragment of a line stands where its column says, less what is not written, if and only if no
line feed comes before it in the text of the line itself. -/
theorem Line.standsAt_iff {before after : List Item}
    (hbefore : ∀ i ∈ before, i.IsLine) (hfs : (Item.line l).fragments? = .ok fs) (hf : f ∈ fs) :
    Text.StandsAt (Item.joinAll (before ++ .line l :: after)).toList
        (lineFeeds (Item.joinAll before)) (f.col - l.unwritten) f.text.toList ↔
      '\n' ∉ l.toString.toList.take (f.col - l.unwritten) := by
  obtain ⟨front, behind, htext, _⟩ := l.exists_eq_append hfs hf
  have hsub : (f.col : Int) - l.unwritten = (f.col - l.unwritten : Nat) := by omega
  rw [hsub, Item.joinAll_append, Item.joinAll_cons, String.toList_append, String.toList_append]
  exact Text.standsAt_append_iff (startsLine_joinAll hbefore) ⟨front, behind, htext, by omega⟩

theorem numberLines_getElem? (k : Nat) : (numberLines Item.toString line items)[k]? =
    items[k]?.map fun i => (line + lineFeeds (Item.joinAll (items.take k)), i) := by
  induction items generalizing line k with
  | nil => simp [numberLines]
  | cons _ _ ih =>
    cases k with
    | zero => simp [numberLines, lineFeeds]
    | succ => simp [numberLines, ih, Int.add_assoc]

namespace Mapped

theorem exists_of_forall (h : ∀ i ∈ items, ∃ fs, i.fragments? = .ok fs) : ∃ ms, Mapped src dst line items ms := by
  induction items generalizing line with
  | nil => exact ⟨[], .nil line⟩
  | cons i _ ih =>
    obtain ⟨_, hfs⟩ := h i (by simp)
    obtain ⟨_, hms⟩ := @ih (line + lineFeeds i.toString) fun j hj => h j (by simp [hj])
    exact ⟨_, .cons hfs hms⟩

theorem exists_of_mem (h : Mapped src dst line items ms) (hm : m ∈ ms) :
    ∃ before i after fs f, items = before ++ i :: after ∧ i.fragments? = .ok fs ∧ f ∈ fs ∧
      m = f.toMapping src dst (line + lineFeeds (Item.joinAll before)) := by
  induction h with
  | nil => simp at hm
  | @cons _ i fs rest _ here _ ih =>
    rcases List.mem_append.mp hm with hm | hm
    · obtain ⟨f, hf, rfl⟩ := List.mem_map.mp hm
      exact ⟨[], i, rest, fs, f, rfl, here, hf, by simp [lineFeeds]⟩
    · obtain ⟨before, j, after, gs, g, rfl, hgs, hg, rfl⟩ := ih hm
      refine ⟨i :: before, j, after, gs, g, rfl, hgs, hg, ?_⟩
      rw [Item.joinAll_cons, lineFeeds_append, Int.natCast_add, Int.add_assoc]

theorem le_dstLine (h : Mapped src dst line items ms) (hm : m ∈ ms) : line + dst.line ≤ m.dstLine := by
  obtain ⟨before, _, _, _, _, -, -, -, rfl⟩ := h.exists_of_mem hm
  show line + dst.line ≤ line + (lineFeeds (Item.joinAll before) : Int) + dst.line
  omega

theorem pairwise (h : Mapped src dst line items ms) (hlines : ∀ i ∈ items, i.IsLine) : ms.Pairwise fun m n =>
    m.dstLine < n.dstLine ∨ (m.dstLine = n.dstLine ∧ m.dstCol < n.dstCol) := by
  induction h with
  | nil => exact .nil
  | @cons line i _ _ _ here later ih =>
    obtain ⟨l, rfl⟩ := hlines i (by simp)
    refine List.pairwise_append.mpr ⟨?_, ih fun j hj => hlines j (by simp [hj]), ?_⟩
    · -- on one line the columns ascend
      refine List.pairwise_map.mpr ((Item.pairwise_of_fragments here).imp fun {f g} hfg => .inr ⟨rfl, ?_⟩)
      show (f.col : Int) + dst.col < g.col + dst.col
      omega
    · -- a line ends before the next item
      intro _ hm n hn
      obtain ⟨_, -, rfl⟩ := List.mem_map.mp hm
      have hnext := later.le_dstLine hn
      have hfeed : 0 < lineFeeds (Item.line l).toString := l.lineFeeds_pos
      left
      show line + dst.line < n.dstLine
      omega

end Mapped

end Transpiler.Script
