import Mathlib.Data.List.Forall2
import Transpiler.Proofs.SourceMap.Quantities
import Transpiler.SourceMap.Basic

/-!
# Reading mappings that may be faulty

What the reader of mappings does with any text. It goes through the segments that are not empty, each with the number
of its line (`tokensOf_eq_readSegments`), and every one gives a token or the first fault. The fields of a segment are
taken by position before their number is known to suffice. This is safe (`settles_tokenOf`): a segment that can be
read has a first field, and the others are asked for only if there are four or five.
-/

namespace Transpiler.SourceMap

open Text (Base64.alphabet splitOn)

variable {sources names : List String} {segment : String} {c : Cursor} {line : Nat}
  {segments : List (Nat × String)} {s : Nat × Cursor}

/-! ### Checks -/

/-- A defect of the map, or a result with a property. -/
def Settles {α : Type} (x : Except Fault α) (P : α → Prop) : Prop :=
  (∃ d, x = .error (.badMap d)) ∨ ∃ a, x = .ok a ∧ P a

namespace Settles

variable {α β : Type} {x : Except Fault α} {f : α → Except Fault β} {P : α → Prop} {Q : β → Prop}

theorem ok {a : α} (h : P a) : Settles (.ok a) P :=
  .inr ⟨a, rfl, h⟩

theorem refuse (d : MapDefect) : Settles (.error (.badMap d)) P :=
  .inl ⟨d, rfl⟩

theorem check {cond : Prop} [Decidable cond] {d : MapDefect} (h : ¬ cond → Settles x P) :
    Settles (if cond then .error (.badMap d) else x) P := by
  split
  · exact refuse d
  next hcond => exact h hcond

theorem bind (hx : Settles x P) (hf : ∀ a, P a → Settles (f a) Q) : Settles (x >>= f) Q := by
  obtain ⟨d, rfl⟩ | ⟨a, rfl, ha⟩ := hx
  · exact refuse d
  · exact hf a ha

end Settles

/-! ### One segment -/

structure Token.IsOf (sources names : List String) (segment : Nat × String) (t : Token) : Prop where
  dstLine : t.dstLine = segment.1
  places : 0 ≤ t.dstCol ∧ 0 ≤ t.srcLine ∧ 0 ≤ t.srcCol
  src : ∀ src, t.src = some src → src ∈ sources
  name : ∀ name, t.name = some name → name ∈ names
  fields : ∃ fields, Vlq.decode segment.2 = .ok fields ∧
    (fields.length = 1 ∧ t.src = none ∧ t.name = none ∨ fields.length = 4 ∧ t.src ≠ none ∧ t.name = none ∨
      fields.length = 5 ∧ t.src ≠ none ∧ t.name ≠ none)

def Cursor.InSource (c : Cursor) : Prop :=
  0 ≤ c.srcLine ∧ 0 ≤ c.srcCol

def IsForeign (segment : String) : Prop :=
  ∃ c ∈ segment.toList, c ∉ Base64.alphabet

theorem mem_of_lookup {table : List String} {id : Int} {text : String} (h : lookup table id = some text) :
    text ∈ table := by
  unfold lookup at h
  split at h
  · cases h
  · exact List.mem_of_getElem? h

theorem decode_cases (segment : String) :
    IsForeign segment ∧ (∃ key, Vlq.decode segment = .error (.noKey key)) ∨
      ¬ IsForeign segment ∧ Settles (Vlq.decode segment) fun fields =>
        Vlq.decode segment = .ok fields ∧ (segment ≠ "" → fields ≠ []) := by
  refine (Vlq.decodeFrom_cases 0 0 segment.toList).imp id ?_
  rintro ⟨hall, hread⟩
  refine ⟨fun ⟨c, hc, hforeign⟩ => hforeign (hall c hc), ?_⟩
  split at hread
  · exact .inl ⟨_, hread⟩
  · obtain ⟨fields, hfields, -⟩ := hread
    exact .inr ⟨fields, hfields, hfields, fun hne => Vlq.ne_nil_of_decodeFrom hfields (by simpa using hne)⟩

theorem tokenOf_of_isForeign (h : IsForeign segment) (sources names : List String) (line : Int) (c : Cursor) :
    ∃ key, tokenOf sources names line c segment = .error (.noKey key) := by
  obtain ⟨-, key, hkey⟩ := (decode_cases segment).resolve_right fun hnot => hnot.1 h
  exact ⟨key, by simp [tokenOf, hkey, bind, Except.bind]⟩

/-- What a segment without foreign characters gives. The checks are those of the reader in their order. -/
theorem settles_tokenOf (hne : segment ≠ "") (hforeign : ¬ IsForeign segment) (hc : c.InSource)
    (sources names : List String) (line : Nat) :
    Settles (tokenOf sources names line c segment) fun r =>
      r.1.IsOf sources names (line, segment) ∧ r.2.InSource := by
  unfold tokenOf
  refine ((decode_cases segment).resolve_left fun h => hforeign h.1).2.bind ?_
  rintro fields ⟨hread, hnil⟩
  obtain ⟨hline, hcol⟩ := hc
  rcases fields with _ | ⟨a, _ | ⟨b, _ | ⟨d, _ | ⟨e, _ | ⟨f, _ | ⟨g, rest⟩⟩⟩⟩⟩⟩ <;>
    simp [fieldAt, hne, bind, Except.bind, pure, Except.pure] at hnil ⊢
  · refine .check fun hdst => .ok ⟨⟨rfl, ⟨not_lt.mp hdst, hline, hcol⟩, ?_, ?_, _, hread, by simp [Token.plain]⟩, hline, hcol⟩ <;>
      simp [Token.plain]
  · exact .check fun _ => .refuse _
  · exact .check fun _ => .refuse _
  · refine .check fun hdst => .check fun hsrc => .check fun hline => .check fun hcol => .ok ?_
    refine ⟨⟨rfl, ⟨not_lt.mp hdst, not_lt.mp hline, not_lt.mp hcol⟩, fun _ => mem_of_lookup, ?_, _, hread, ?_⟩,
      not_lt.mp hline, not_lt.mp hcol⟩ <;> simp [Token.plain, hsrc]
  · refine .check fun hdst => .check fun hsrc => .check fun hline => .check fun hcol => .check fun hname => .ok ?_
    refine ⟨⟨rfl, ⟨not_lt.mp hdst, not_lt.mp hline, not_lt.mp hcol⟩, fun _ => mem_of_lookup, fun _ => mem_of_lookup, _,
      hread, ?_⟩, not_lt.mp hline, not_lt.mp hcol⟩
    simp [Token.plain, hsrc, hname]
  · exact .check fun _ => .refuse _

/-! ### All segments -/

/-- The segments of lines that are not empty, each with the number of its line; the first line is `line`. -/
def segmentsFrom (line : Nat) : List String → List (Nat × String)
  | [] => []
  | text :: rest => ((splitOn ',' text).filter (· != "")).map (line, ·) ++ segmentsFrom (line + 1) rest

def segmentsOf (mappings : String) : List (Nat × String) :=
  segmentsFrom 0 (splitOn ';' mappings)

def Cursor.atStart (c : Cursor) : Cursor :=
  { c with dstCol := 0 }

/-- What a segment on line `line` counts from, when the last one was on line `s.1`. -/
def cursorAt (s : Nat × Cursor) (line : Nat) : Cursor :=
  if line = s.1 then s.2 else s.2.atStart

/-- The tokens of segments, with the line of the last one and what the next one counts from. -/
def readSegments (sources names : List String) (s : Nat × Cursor) :
    List (Nat × String) → Except Fault (List Token × (Nat × Cursor))
  | [] => .ok ([], s)
  | segment :: rest => do
    let (t, c) ← tokenOf sources names segment.1 (cursorAt s segment.1) segment.2
    let (ts, s) ← readSegments sources names (segment.1, c) rest
    return (t :: ts, s)

theorem readSegments_append (segments' : List (Nat × String)) : readSegments sources names s (segments ++ segments') = do
    let (ts, s) ← readSegments sources names s segments
    let (ts', s) ← readSegments sources names s segments'
    return (ts ++ ts', s) := by
  induction segments generalizing s with
  | nil => simp [readSegments]
  | cons _ _ ih => simp [readSegments, ih]

theorem readSegments_line (sources names texts : List String) (line : Nat) (c : Cursor) :
    readSegments sources names (line, c) ((texts.filter (· != "")).map (line, ·)) =
      (fun r => (r.1, line, r.2)) <$> tokensOfLine sources names line c texts := by
  induction texts generalizing c with
  | nil => rfl
  | cons text _ ih =>
    by_cases h : text = ""
    · simp [h, tokensOfLine, ih]
    · simp [h, tokensOfLine, readSegments, cursorAt, ih]

/-- The reader forgets the column at every line, also at one without segments; it is enough to forget it at the first
segment of a line. -/
theorem tokensOfLines_eq_readSegments (texts : List String) (line l : Nat) (c c' : Cursor)
    (hline : l < line ∨ l = line ∧ c.dstCol = 0) (hc : c.atStart = c'.atStart) :
    tokensOfLines sources names line c' texts =
      Prod.fst <$> readSegments sources names (l, c) (segmentsFrom line texts) := by
  induction texts generalizing line l c c' with
  | nil => rfl
  | cons text _ ih =>
    have hread := readSegments_line sources names (splitOn ',' text) line c'.atStart
    rw [tokensOfLines, segmentsFrom, ← Cursor.atStart]
    cases htexts : (splitOn ',' text).filter (· != "") with
    | nil =>
      have hnone : tokensOfLine sources names line c'.atStart (splitOn ',' text) = .ok ([], c'.atStart) := by
        rcases h : tokensOfLine sources names line c'.atStart (splitOn ',' text) with fault | ⟨ts, c''⟩ <;>
          simp [htexts, readSegments, h] at hread
        simp [hread]
      have hrest := ih (line + 1) l c c'.atStart (by omega) hc
      push_cast at hrest
      simp [hnone, hrest]
    | cons first =>
      have hstart : cursorAt (l, c) line = c'.atStart := by
        rcases hline with hlt | ⟨rfl, hzero⟩
        · simpa [cursorAt, hlt.ne'] using hc
        · rw [← hc, cursorAt, if_pos rfl, Cursor.atStart, ← hzero]
      have henter (more : List (Nat × String)) :
          readSegments sources names (l, c) ((line, first) :: more) =
            readSegments sources names (line, c'.atStart) ((line, first) :: more) := by
        rw [readSegments, readSegments, hstart, cursorAt, if_pos rfl]
      rw [htexts] at hread
      rw [List.map_cons, List.cons_append, henter, ← List.cons_append, ← List.map_cons, readSegments_append, hread]
      cases tokensOfLine sources names line c'.atStart (splitOn ',' text) with
      | error => rfl
      | ok r =>
        have hrest := ih (line + 1) line r.2 r.2 (by omega) rfl
        push_cast at hrest
        simp [hrest]

theorem tokensOf_eq_readSegments (sources names : List String) (mappings : String) : tokensOf sources names mappings =
    Prod.fst <$> readSegments sources names (0, .start) (segmentsOf mappings) :=
  tokensOfLines_eq_readSegments _ 0 0 _ _ (.inr ⟨rfl, rfl⟩) rfl

theorem segmentsFrom_append (line : Nat) (texts texts' : List String) : segmentsFrom line (texts ++ texts') =
    segmentsFrom line texts ++ segmentsFrom (line + texts.length) texts' := by
  induction texts generalizing line with
  | nil => rfl
  | cons _ _ ih => simp [segmentsFrom, ih, Nat.add_assoc, Nat.add_comm 1]

theorem ne_empty_of_mem_segmentsFrom {texts : List String} {segment : Nat × String}
    (h : segment ∈ segmentsFrom line texts) : segment.2 ≠ "" := by
  induction texts generalizing line with
  | nil => cases h
  | cons text _ ih =>
    rcases List.mem_append.mp h with h | h
    · obtain ⟨_, htext, rfl⟩ := List.mem_map.mp h
      simpa using (List.mem_filter.mp htext).2
    · exact ih h

/-! ### Outcomes -/

/-- The first segment with a fault decides what reading ends with. -/
theorem readSegments_cases (sources names : List String) (hne : ∀ segment ∈ segments, segment.2 ≠ "")
    (hs : s.2.InSource) :
    Settles (readSegments sources names s segments) (fun r => List.Forall₂ (Token.IsOf sources names) segments r.1) ∨
    (∃ key, readSegments sources names s segments = .error (.noKey key)) ∧
      ∃ before segment after, segments = before ++ segment :: after ∧ IsForeign segment.2 ∧
        ∃ r, readSegments sources names s before = .ok r := by
  induction segments generalizing s with
  | nil => exact .inl (.ok .nil)
  | cons segment rest ih =>
    obtain ⟨hsegment, hrest⟩ := List.forall_mem_cons.mp hne
    rw [readSegments]
    by_cases hforeign : IsForeign segment.2
    · obtain ⟨key, hkey⟩ := tokenOf_of_isForeign hforeign sources names segment.1 (cursorAt s segment.1)
      exact .inr ⟨⟨key, by simp [hkey, bind, Except.bind]⟩, [], segment, rest, rfl, hforeign, _, rfl⟩
    · have hcursor : (cursorAt s segment.1).InSource := by
        unfold cursorAt
        split <;> exact hs
      obtain ⟨d, hd⟩ | ⟨⟨_, c⟩, hread, hof, hc⟩ := settles_tokenOf hsegment hforeign hcursor sources names segment.1
      · exact .inl (.inl ⟨d, by simp [hd, bind, Except.bind]⟩)
      · rw [hread]
        rcases ih (s := (segment.1, c)) hrest hc with h | ⟨⟨key, hkey⟩, before, next, after, rfl, hnext, r, hbefore⟩
        · exact .inl (h.bind fun r hr => .ok (.cons hof hr))
        · refine .inr ⟨⟨key, by simp [hkey, bind, Except.bind]⟩, segment :: before, next, after, rfl, hnext, ?_⟩
          simp [readSegments, hread, hbefore]

theorem readSegments_of_isForeign {before after : List (Nat × String)} {foreign : Nat × String}
    {r : List Token × (Nat × Cursor)} (hread : readSegments sources names s before = .ok r) (h : IsForeign foreign.2) :
    ∃ key, readSegments sources names s (before ++ foreign :: after) = .error (.noKey key) := by
  obtain ⟨key, hkey⟩ := tokenOf_of_isForeign h sources names foreign.1 (cursorAt r.2 foreign.1)
  exact ⟨key, by simp [readSegments_append, hread, readSegments, hkey, bind, Except.bind]⟩

/-- **Every text of mappings is read or refused.** Reading goes through the segments that are not empty, in their
order. It finishes with one token for each, which stands on the segment's line, at places that are not negative, and
names a source and a name of the tables or none; or it finds a defect of the map; or it ends at a character outside
the alphabet, exactly if a segment with one comes before any other fault. There is no other way to fail. -/
theorem tokensOf_outcome (sources names : List String) (mappings : String) :
    tokensOf sources names mappings = Prod.fst <$> readSegments sources names (0, .start) (segmentsOf mappings) ∧
    ((∃ ts, tokensOf sources names mappings = .ok ts ∧
        List.Forall₂ (Token.IsOf sources names) (segmentsOf mappings) ts) ∨
      (∃ d, tokensOf sources names mappings = .error (.badMap d)) ∨
      ∃ key, tokensOf sources names mappings = .error (.noKey key)) ∧
    ((∃ key, tokensOf sources names mappings = .error (.noKey key)) ↔
      ∃ before segment after, segmentsOf mappings = before ++ segment :: after ∧ IsForeign segment.2 ∧
        ∃ r, readSegments sources names (0, .start) before = .ok r) := by
  have hread := tokensOf_eq_readSegments sources names mappings
  have hstart : (0, Cursor.start).2.InSource := ⟨le_rfl, le_rfl⟩
  have hne : ∀ segment ∈ segmentsOf mappings, segment.2 ≠ "" := fun _ => ne_empty_of_mem_segmentsFrom
  have hcases := readSegments_cases sources names hne hstart
  refine ⟨hread, ?_, ?_⟩
  · rw [hread]
    obtain (⟨d, hd⟩ | ⟨r, hr, hof⟩) | ⟨⟨key, hkey⟩, -⟩ := hcases
    · exact .inr (.inl ⟨d, by rw [hd]; rfl⟩)
    · exact .inl ⟨r.1, by rw [hr]; rfl, hof⟩
    · exact .inr (.inr ⟨key, by rw [hkey]; rfl⟩)
  · constructor
    · rintro ⟨key, hkey⟩
      obtain (⟨d, hd⟩ | ⟨r, hr, hof⟩) | ⟨-, hforeign⟩ := hcases
      · simp [hread, hd] at hkey
      · simp [hread, hr] at hkey
      · exact hforeign
    · rintro ⟨before, segment, after, hsegments, hforeign, r, hbefore⟩
      obtain ⟨key, hkey⟩ := readSegments_of_isForeign hbefore hforeign
      exact ⟨key, by rw [hread, hsegments, hkey]; rfl⟩

end Transpiler.SourceMap
