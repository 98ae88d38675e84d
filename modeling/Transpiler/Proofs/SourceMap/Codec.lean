import Transpiler.Proofs.SourceMap.Reading
import Transpiler.Proofs.Text.Lines

/-!
# Mappings are written without loss

Writing tokens and reading the written text gives the tokens again, as far as they are written.

Writing and reading go through the tokens in the same order and count from the same values, so the
proof follows the two side by side. `Encoder.Holds` says what the writer has achieved so far: the
segments that stand there read back as the tokens written, whatever is still added to the tables.
-/

namespace Transpiler.SourceMap

variable {sources names : List String} {c : Cursor} {tables : Tables} {t : Token} {fields : List Int}
  {ts : List Token} {e : Encoder}

/-! ### What is read back -/

/-- What reading gives back of a token: the place in the output, and the place in the source with
the name if there is a source. Empty texts count as none. -/
def Restores (t u : Token) : Prop :=
  u.dstLine = t.dstLine ∧ u.dstCol = t.dstCol ∧
    match present t.src with
    | some src => u.src = some src ∧ u.srcLine = t.srcLine ∧ u.srcCol = t.srcCol ∧
        u.name = present t.name
    | none => u.src = none ∧ u.name = none

structure Token.Placed (t : Token) : Prop where
  dstLine : 0 ≤ t.dstLine
  dstCol : 0 ≤ t.dstCol
  src : (present t.src).isSome → 0 ≤ t.srcLine ∧ 0 ≤ t.srcCol

def usedSources (ts : List Token) : List String :=
  ts.filterMap fun t => present t.src

def usedNames (ts : List Token) : List String :=
  ts.filterMap fun t => (present t.src).bind fun _ => present t.name

/-! ### Tables -/

theorem lookup_intern {s : String} {table table' : List String} {id : Int}
    (h : intern s table = (id, table')) {all : List String} (hall : table' <+: all) :
    lookup all id = some s := by
  obtain ⟨_, rfl⟩ := hall
  unfold intern at h
  split at h
  next i hi =>
    simp only [Prod.mk.injEq] at h
    obtain ⟨rfl, rfl⟩ := h
    obtain ⟨hlt, hs, -⟩ := List.findIdx?_eq_some_iff_getElem.mp hi
    have hs : table[i] = s := by simpa using hs
    simp [lookup, List.getElem?_append_left hlt, List.getElem?_eq_getElem hlt, hs]
  · simp only [Prod.mk.injEq] at h
    obtain ⟨rfl, rfl⟩ := h
    simp [lookup]

theorem intern_eraseDups (s : String) (used : List String) : (intern s used.eraseDups).2 = (used ++ [s]).eraseDups := by
  rw [List.eraseDups_append]
  unfold intern
  split
  next i hi =>
    obtain ⟨hlt, hs, -⟩ := List.findIdx?_eq_some_iff_getElem.mp hi
    have hmem : s ∈ used := by
      rw [← List.mem_eraseDups]
      have hs : used.eraseDups[i] = s := by simpa using hs
      exact hs ▸ List.getElem_mem hlt
    simp [List.removeAll, hmem]
  next hi =>
    have hmem : s ∉ used := by
      intro hs
      rw [← List.mem_eraseDups] at hs
      simpa using List.findIdx?_eq_none_iff.mp hi s hs
    simp [List.removeAll, hmem, List.eraseDups_cons]

theorem nodup_eraseDups (used : List String) : used.eraseDups.Nodup := by
  induction used using List.reverseRecOn with
  | nil => exact List.nodup_nil
  | append_singleton used s ih =>
    rw [List.eraseDups_append, List.nodup_append]
    refine ⟨ih, ?_, ?_⟩
    · by_cases hmem : s ∈ used <;> simp [List.removeAll, hmem, List.eraseDups_cons]
    · intro _ ha b hb
      rw [List.mem_eraseDups] at ha hb
      have hb : b = s ∧ b ∉ used := by simpa [List.removeAll] using hb
      rintro rfl
      exact hb.2 ha

/-! ### One segment -/

theorem decode_segmentText (fields : List Int) : Vlq.decode (segmentText fields) = .ok fields :=
  Vlq.decode_join fields

theorem tokenOf_fieldsOf {c' : Cursor} {tables' : Tables} (ht : t.Placed)
    (h : fieldsOf c tables t = (fields, c', tables'))
    (hs : tables'.sources <+: sources) (hn : tables'.names <+: names) :
    ∃ u, tokenOf sources names t.dstLine c (segmentText fields) = .ok (u, c') ∧ Restores t u := by
  have hcol := ht.dstCol
  have hplace := ht.src
  unfold fieldsOf at h
  unfold Restores
  cases hsrc : present t.src with
  | none =>
    simp only [hsrc, Prod.mk.injEq] at h
    obtain ⟨rfl, rfl, rfl⟩ := h
    refine ⟨.plain t.dstLine t.dstCol none c.srcLine c.srcCol none, ?_, rfl, rfl, rfl, rfl⟩
    simpa [tokenOf, fieldAt, decode_segmentText, bind, Except.bind, pure, Except.pure] using hcol
  | some src =>
    obtain ⟨hline, hcol'⟩ := hplace (by simp [hsrc])
    rcases hi : intern src tables.sources with ⟨_, _⟩
    cases hname : present t.name with
    | none =>
      simp only [hsrc, hi, hname, Prod.mk.injEq] at h
      obtain ⟨rfl, rfl, rfl⟩ := h
      have hlook := lookup_intern hi hs
      refine ⟨.plain t.dstLine t.dstCol (some src) t.srcLine t.srcCol none, ?_, rfl, rfl, rfl, rfl,
        rfl, rfl⟩
      simp [tokenOf, fieldAt, decode_segmentText, bind, Except.bind, pure, Except.pure, hlook,
        not_lt.mpr hcol, not_lt.mpr hline, not_lt.mpr hcol']
    | some name =>
      rcases hj : intern name tables.names with ⟨_, _⟩
      simp only [hsrc, hi, hname, hj, Prod.mk.injEq] at h
      obtain ⟨rfl, rfl, rfl⟩ := h
      have hlook := lookup_intern hi hs
      have hlook' := lookup_intern hj hn
      refine ⟨.plain t.dstLine t.dstCol (some src) t.srcLine t.srcCol (some name), ?_, rfl, rfl, rfl,
        rfl, rfl, rfl⟩
      simp [tokenOf, fieldAt, decode_segmentText, bind, Except.bind, pure, Except.pure, hlook, hlook',
        not_lt.mpr hcol, not_lt.mpr hline, not_lt.mpr hcol']

theorem fieldsOf_ne_nil (c : Cursor) (tables : Tables) (t : Token) : (fieldsOf c tables t).1 ≠ [] := by
  unfold fieldsOf
  cases present t.src with
  | none => simp
  | some => cases present t.name <;> simp

theorem fieldsOf_tables (c : Cursor) (ts : List Token) (t : Token) :
    (fieldsOf c ⟨(usedSources ts).eraseDups, (usedNames ts).eraseDups⟩ t).2.2 =
      ⟨(usedSources (ts ++ [t])).eraseDups, (usedNames (ts ++ [t])).eraseDups⟩ := by
  unfold fieldsOf usedSources usedNames
  cases hsrc : present t.src with
  | none => simp [hsrc]
  | some => cases hname : present t.name <;> simp [hsrc, hname, ← intern_eraseDups]

/-! ### The text of lines -/

def lineText (segments : List (List Int)) : String :=
  ",".intercalate (segments.map segmentText)

theorem segmentText_ne_empty (h : fields ≠ []) : segmentText fields ≠ "" := by
  obtain ⟨_, _, rfl⟩ := List.exists_cons_of_ne_nil h
  simp [segmentText, Vlq.encode_ne_empty]

theorem comma_notMem_segmentText (fields : List Int) : ',' ∉ (segmentText fields).toList := by
  simp [segmentText, Vlq.separator_notMem_encode]

theorem semicolon_notMem_lineText (segments : List (List Int)) : ';' ∉ (lineText segments).toList := by
  have hseg : ∀ fields : List Int, ';' ∉ (segmentText fields).toList := by
    simp [segmentText, Vlq.separator_notMem_encode]
  unfold lineText
  induction segments with
  | nil => simp
  | cons fields rest ih =>
    cases rest with
    | nil => simpa using hseg fields
    | cons =>
      rw [String.toList_intercalate] at ih ⊢
      simp only [List.map_cons, List.intercalate_cons_cons, List.mem_append, not_or] at ih ⊢
      exact ⟨⟨hseg fields, by simp⟩, ih⟩

theorem filter_lineText {segments : List (List Int)} (h : ∀ fields ∈ segments, fields ≠ []) :
    (Text.splitOn ',' (lineText segments)).filter (· != "") = segments.map segmentText := by
  by_cases hnil : segments = []
  · subst hnil
    simp [lineText, Text.splitOn, Text.splitChars]
  · rw [lineText, show "," = String.singleton ',' from rfl, Text.splitOn_intercalate (by simpa using hnil),
      List.filter_eq_self]
    · simpa using fun fields hfields => segmentText_ne_empty (h fields hfields)
    · simpa using fun fields _ => comma_notMem_segmentText fields

/-- The segments of lines, each with the number of its line. The lines are given the last one first, and so are the
segments of a line. -/
def placed : List (List (List Int)) → List (Nat × String)
  | [] => []
  | current :: earlier => placed earlier ++ current.reverse.map fun fields => (earlier.length, segmentText fields)

theorem placed_replicate (gap : Nat) (lines : List (List (List Int))) :
    placed (List.replicate gap [] ++ lines) = placed lines := by
  induction gap with
  | zero => rfl
  | succ _ ih => simp [List.replicate_succ, placed, ih]

theorem segmentsOf_mappingsText {lines : List (List (List Int))}
    (h : ∀ current ∈ lines, ∀ fields ∈ current, fields ≠ []) :
    segmentsOf (mappingsText (lines.reverse.map List.reverse)) = placed lines := by
  have hall : segmentsFrom 0 ((lines.reverse.map List.reverse).map lineText) = placed lines := by
    induction lines with
    | nil => rfl
    | cons current _ ih =>
      rw [List.forall_mem_cons] at h
      have hcurrent := @filter_lineText current.reverse (by simpa using h.1)
      rw [List.reverse_cons, List.map_append, List.map_append, segmentsFrom_append, ih h.2]
      simp [segmentsFrom, placed, hcurrent]
  by_cases hnil : lines = []
  · subst hnil
    rfl
  · rw [segmentsOf, mappingsText, ← hall]
    refine congrArg _ (Text.splitOn_intercalate (by simpa using hnil) fun _ htext => ?_)
    obtain ⟨segments, -, rfl⟩ := List.mem_map.mp htext
    exact semicolon_notMem_lineText segments

/-! ### What the writer achieves -/

def Encoder.gap (e : Encoder) (t : Token) : Nat :=
  (t.dstLine - e.line).toNat

def Encoder.cursorFor (e : Encoder) (t : Token) : Cursor :=
  if e.gap t = 0 then e.cursor else { e.cursor with dstCol := 0 }

/-- What holds after some tokens are written: a line is open for the last of them, the segments read
back as these tokens with any tables that extend the present ones, the next one is read from where it is written,
and the tables list what the tokens use. -/
structure Encoder.Holds (e : Encoder) (ts : List Token) : Prop where
  length : (e.lines.length : Int) = e.line + 1
  segments : ∀ current ∈ e.lines, ∀ fields ∈ current, fields ≠ []
  reads : ∀ sources names, e.tables.sources <+: sources → e.tables.names <+: names →
    ∃ us s, readSegments sources names (0, .start) (placed e.lines) = .ok (us, s) ∧ List.Forall₂ Restores ts us ∧
      ∀ t, e.line ≤ t.dstLine → cursorAt s t.dstLine.toNat = e.cursorFor t
  tables : e.tables = ⟨(usedSources ts).eraseDups, (usedNames ts).eraseDups⟩

theorem Encoder.Holds.start : Encoder.start.Holds [] where
  length := rfl
  segments := nofun
  reads := fun _ _ _ _ => ⟨[], _, rfl, .nil, fun _ _ => (ite_self _).trans (ite_self _).symm⟩
  tables := rfl

theorem Encoder.add_eq {current : List (List Int)} {earlier : List (List (List Int))}
    (hlines : List.replicate (e.gap t) [] ++ e.lines = current :: earlier)
    (hfields : fieldsOf (e.cursorFor t) e.tables t = (fields, c, tables)) :
    e.add t = .ok ⟨max e.line t.dstLine, (fields :: current) :: earlier, c, tables⟩ := by
  unfold Encoder.gap at hlines
  unfold Encoder.cursorFor Encoder.gap at hfields
  simp only [Encoder.add, hlines, hfields]

theorem Encoder.Holds.add (h : e.Holds ts) (ht : t.Placed) (hline : e.line ≤ t.dstLine) :
    ∃ e', e.add t = .ok e' ∧ e'.Holds (ts ++ [t]) ∧ e'.line = t.dstLine := by
  have hlen := h.length
  have hdst := ht.dstLine
  have hgap : (e.gap t : Int) = t.dstLine - e.line := by
    unfold Encoder.gap
    omega
  rcases hfields : fieldsOf (e.cursorFor t) e.tables t with ⟨fields, c, tables⟩
  have htables := fieldsOf_tables (e.cursorFor t) ts t
  rw [← h.tables, hfields] at htables
  dsimp only at htables
  cases hlines : List.replicate (e.gap t) [] ++ e.lines with
  | nil =>
    -- the first token opens its line, since no line is open before it
    have := congrArg List.length hlines
    simp only [List.length_append, List.length_replicate, List.length_nil] at this
    omega
  | cons current earlier =>
    have hlength : (earlier.length : Int) = t.dstLine := by
      have := congrArg List.length hlines
      simp only [List.length_append, List.length_replicate, List.length_cons] at this
      omega
    refine ⟨_, Encoder.add_eq hlines hfields, ⟨?_, ?_, ?_, ?_⟩, max_eq_right hline⟩
    · simp only [List.length_cons, Nat.cast_add, Nat.cast_one]
      omega
    · have hall : ∀ current' ∈ current :: earlier, ∀ fields ∈ current', fields ≠ [] := by
        rw [← hlines]
        grind [h.segments]
      grind [fieldsOf_ne_nil (e.cursorFor t) e.tables t]
    · intro sources names hs hn
      -- the tables before the step are a part of those after it
      have hgrow : e.tables.sources <+: tables.sources ∧ e.tables.names <+: tables.names := by
        simp [h.tables, htables, usedSources, usedNames, List.eraseDups_append]
      obtain ⟨us, _, hreads, hall, hnext⟩ := h.reads sources names (hgrow.1.trans hs) (hgrow.2.trans hn)
      obtain ⟨u, hu, hrestores⟩ := tokenOf_fieldsOf ht hfields hs hn
      have hplaced : placed ((fields :: current) :: earlier) = placed e.lines ++ [(earlier.length, segmentText fields)] := by
        rw [← placed_replicate (e.gap t) e.lines, hlines]
        simp [placed]
      have hcursor := hnext t hline
      rw [← hlength] at hu
      rw [← hlength, Int.toNat_natCast] at hcursor
      refine ⟨us ++ [u], (earlier.length, c), ?_, List.rel_append hall (.cons hrestores .nil), fun v hv => ?_⟩
      · simp [hplaced, readSegments_append, hreads, readSegments, hcursor, hu]
      · dsimp only at hv
        simp only [cursorAt, Encoder.cursorFor, Encoder.gap, Cursor.atStart]
        congr 1
        simp only [eq_iff_iff]
        omega
    · exact htables

theorem Encoder.Holds.run (hlines : ts.Pairwise (·.dstLine ≤ ·.dstLine)) (hplaced : ∀ t ∈ ts, t.Placed) :
    ∃ e, ts.foldlM Encoder.add .start = .ok e ∧ e.Holds ts ∧
      ∀ line : Int, 0 ≤ line → (∀ t ∈ ts, t.dstLine ≤ line) → e.line ≤ line := by
  induction ts using List.reverseRecOn with
  | nil =>
    refine ⟨.start, rfl, .start, ?_⟩
    intro _ _ _
    simp only [Encoder.start]
    omega
  | append_singleton _ t ih =>
    rw [List.pairwise_append] at hlines
    obtain ⟨_, hrun, hholds, hlast⟩ := ih hlines.1 fun u hu => hplaced u (by simp [hu])
    have ht := hplaced t (by simp)
    have hle := hlast t.dstLine ht.dstLine fun u hu => hlines.2.2 u hu t (by simp)
    obtain ⟨e', hadd, hholds', hline⟩ := hholds.add ht hle
    refine ⟨e', ?_, hholds', ?_⟩
    · simp [List.foldlM_append, hrun, hadd]
    · intro _ _ hall
      rw [hline]
      exact hall t (by simp)

/-- **Mappings are written without loss.** A map whose tokens are in the order of output lines, and
whose places are not negative, is written; the segments of the written map are read back as its
tokens, one for one; and its tables list the sources and the names in use, each once and in the
order of first use. -/
theorem tokensOf_encode (m : SourceMap) (hlines : m.tokens.Pairwise (·.dstLine ≤ ·.dstLine))
    (hplaced : ∀ t ∈ m.tokens, t.Placed) :
    ∃ e us, m.encode = .ok e ∧ tokensOf e.sources e.names e.mappings = .ok us ∧ List.Forall₂ Restores m.tokens us ∧
      e.sources.Nodup ∧ e.sources = (usedSources m.tokens).eraseDups ∧
      e.names.Nodup ∧ e.names = (usedNames m.tokens).eraseDups := by
  obtain ⟨e, hrun, hholds, -⟩ := Encoder.Holds.run hlines hplaced
  obtain ⟨us, s, hreads, hall, -⟩ :=
    hholds.reads e.tables.sources e.tables.names List.prefix_rfl List.prefix_rfl
  have hencode : m.encode = .ok ⟨mappingsText (e.lines.reverse.map List.reverse), e.tables.sources,
      e.tables.names, e.tables.sources.map m.contentOf⟩ := by
    rw [encode, hrun]
    rfl
  refine ⟨_, us, hencode, ?_, hall, by simp [hholds.tables, nodup_eraseDups]⟩
  rw [tokensOf_eq_readSegments, segmentsOf_mappingsText hholds.segments, hreads]
  rfl

/-- Tokens of two sources, one of them without a name and one without a source, with an output line
left out between them. -/
theorem tokensOf_encode_two_sources :
    let ts : List Token := [.plain 0 4 (some "a") 3 1 (some "x"), .plain 0 2 none 0 0 (some "y"),
      .plain 2 0 (some "b") 0 7 (some "")]
    ts.Pairwise (·.dstLine ≤ ·.dstLine) ∧ (∀ t ∈ ts, t.Placed) ∧ ∃ e us, (SourceMap.mk ts [] [] false).encode = .ok e ∧
        tokensOf e.sources e.names e.mappings = .ok us ∧ List.Forall₂ Restores ts us ∧
        e.sources = ["a", "b"] ∧ e.names = ["x"] := by
  intro ts
  have hlines : ts.Pairwise (·.dstLine ≤ ·.dstLine) := by decide
  have hplaced : ∀ t ∈ ts, t.Placed := by
    intro t ht
    have : (0 ≤ t.dstLine ∧ 0 ≤ t.dstCol) ∧ 0 ≤ t.srcLine ∧ 0 ≤ t.srcCol :=
      (by decide : ∀ t ∈ ts, (0 ≤ t.dstLine ∧ 0 ≤ t.dstCol) ∧ 0 ≤ t.srcLine ∧ 0 ≤ t.srcCol) t ht
    exact ⟨this.1.1, this.1.2, fun _ => this.2⟩
  obtain ⟨e, us, hencode, hread, hall, -, hsources, -, hnames⟩ :=
    tokensOf_encode ⟨ts, [], [], false⟩ hlines hplaced
  refine ⟨hlines, hplaced, e, us, hencode, hread, hall, ?_, ?_⟩
  · rw [hsources]
    decide
  · rw [hnames]
    decide

end Transpiler.SourceMap
