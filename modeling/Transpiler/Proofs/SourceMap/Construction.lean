import Transpiler.Proofs.SourceMap.Codec
import Transpiler.Proofs.SourceMap.Adding

/-!
# Maps that are made with tokens

A map holds the tokens that are added to it, and no others: the tokens that it is made with are set
aside. So a map that is read back from its written form is empty, and writing it once more gives the
same text only if there was nothing to write (`reencodesAlike_iff`). The map of a text onto itself
lacks its tokens unless every line of the text is blank (`identityTokens_eq_nil_iff`).
-/

namespace Transpiler.SourceMap

variable {m : SourceMap}

/-! ### Reading back and writing again -/

/-- Writing a map, reading that, and writing it again gives the same mappings, sources and names. -/
def ReencodesAlike (m : SourceMap) (lenient : Bool) : Prop :=
  ∃ written restored rewritten, m.encode = .ok written ∧
    ofJson written.toJson lenient = .ok restored ∧ restored.encode = .ok rewritten ∧
    rewritten.mappings = written.mappings ∧ rewritten.sources = written.sources ∧
    rewritten.names = written.names

theorem encode_of_tokens_eq_nil (h : m.tokens = []) : m.encode = .ok ⟨"", [], [], []⟩ := by
  rw [encode, h]
  rfl

theorem Encoder.lines_of_add {e e' : Encoder} {t : Token} (h : e.add t = .ok e') :
    ∃ fields current earlier, fields ≠ [] ∧ e'.lines = (fields :: current) :: earlier := by
  rcases hfields : fieldsOf (e.cursorFor t) e.tables t with ⟨fields, _, _⟩
  have hne := fieldsOf_ne_nil (e.cursorFor t) e.tables t
  rw [hfields] at hne
  cases hlines : List.replicate (e.gap t) [] ++ e.lines with
  | nil =>
    unfold Encoder.gap at hlines
    simp [Encoder.add, hlines] at h
  | cons current earlier =>
    rw [Encoder.add_eq hlines hfields] at h
    cases h
    exact ⟨fields, current, earlier, hne, rfl⟩

theorem intercalate_ne_empty {sep text : String} {texts : List String} (hsep : sep ≠ "") (htext : text ≠ "")
    (hmem : text ∈ texts) : sep.intercalate texts ≠ "" := by
  rw [Ne, ← String.toList_eq_nil_iff] at hsep htext ⊢
  rw [String.toList_intercalate]
  match texts with
  | [first] => simp_all
  | first :: second :: rest => simp [List.intercalate_cons_cons, hsep]

theorem tokens_eq_nil_of_encode {written : Encoded} (h : m.encode = .ok written)
    (hempty : written.mappings = "") : m.tokens = [] := by
  by_contra hne
  obtain ⟨_, t, hts⟩ := (List.eq_nil_or_concat m.tokens).resolve_left hne
  obtain ⟨e, hrun, hwritten⟩ := bind_eq_ok.mp h
  cases hwritten
  rw [hts, List.concat_eq_append, List.foldlM_append] at hrun
  obtain ⟨before, -, hlast⟩ := bind_eq_ok.mp hrun
  have hadd : before.add t = .ok e := by simpa using hlast
  obtain ⟨fields, current, _, hfields, hlines⟩ := Encoder.lines_of_add hadd
  have hline : lineText (fields :: current).reverse ≠ "" :=
    intercalate_ne_empty (by decide) (segmentText_ne_empty hfields) (List.mem_map_of_mem (by simp))
  refine intercalate_ne_empty (by decide) hline (List.mem_map_of_mem ?_) hempty
  simp [hlines]

theorem tokens_eq_nil_of_ofFields {fields : List (String × Json)} {lenient : Bool}
    (h : ofFields fields lenient = .ok m) : m.tokens = [] := by
  unfold ofFields at h
  obtain ⟨_, -, h⟩ := bind_eq_ok.mp h
  obtain ⟨_, -, h⟩ := bind_eq_ok.mp h
  obtain ⟨_, -, h⟩ := bind_eq_ok.mp h
  obtain ⟨_, -, h⟩ := bind_eq_ok.mp h
  dsimp only at h
  -- what is left are the two places where a part of the map has the wrong form
  split at h
  · split at h
    · obtain ⟨_, -, h⟩ := bind_eq_ok.mp h
      obtain ⟨_, -, h⟩ := bind_eq_ok.mp h
      obtain ⟨_, -, h⟩ := bind_eq_ok.mp h
      obtain ⟨_, -, h⟩ := bind_eq_ok.mp h
      obtain ⟨_, -, h⟩ := bind_eq_ok.mp h
      cases h
      rfl
    · cases h
  · cases h

theorem reencodesAlike_iff (m : SourceMap) (lenient : Bool) : m.ReencodesAlike lenient ↔ m.tokens = [] := by
  constructor
  · rintro ⟨_, _, _, hwrite, hread, hagain, hmappings, -, -⟩
    rw [encode_of_tokens_eq_nil (tokens_eq_nil_of_ofFields hread)] at hagain
    cases hagain
    exact tokens_eq_nil_of_encode hwrite hmappings.symm
  · intro hnil
    have hwrite := encode_of_tokens_eq_nil hnil
    have hread : ofJson (Encoded.toJson ⟨"", [], [], []⟩) lenient =
        .ok ⟨[], [], Encoded.fields ⟨"", [], [], []⟩, lenient⟩ := rfl
    exact ⟨_, _, _, hwrite, hread, encode_of_tokens_eq_nil rfl, rfl, rfl, rfl⟩

/-! ### The tokens of a text -/

theorem identityTokens_eq_nil_iff (content : String) (src : Option String) : identityTokens content src = [] ↔
    ∀ line ∈ Text.splitLinesFrom [] content.toList, line.all Text.isBlank := by
  rw [List.eq_nil_iff_forall_not_mem]
  constructor
  · intro h line hline
    by_contra hblank
    obtain ⟨_, hn⟩ := List.mem_iff_getElem?.mp hline
    exact h _ (mem_identityFrom _ _ false hn fun b => (tokenCols_spec b line).2.2.2 (by simpa using hblank))
  · intro h _ ht
    obtain ⟨_, line, b, _, hcol, hline, -⟩ := exists_of_mem_identityFrom ht
    rw [(tokenCols_spec b line).2.2.1 (h line (List.mem_of_getElem? hline))] at hcol
    cases hcol

/-- **When a map keeps the tokens that it is made with.** Only if there are none. So the map of a
text onto itself holds the tokens of the text only if all lines are blank; and writing a map, reading
that and writing it again gives the same mappings, sources and names only for a map without
tokens. -/
theorem keeps_tokens_iff (ts : List Token) (contents raw : List (String × Json)) (lenient : Bool)
    (content src : String) (m : SourceMap) :
    ((make ts contents raw lenient).tokens = ts ↔ ts = []) ∧
      ((identityMap content src).tokens = identityTokens content (some src) ↔
        ∀ line ∈ Text.splitLinesFrom [] content.toList, line.all Text.isBlank) ∧
      (m.ReencodesAlike lenient ↔ m.tokens = []) := by
  refine ⟨eq_comm, ?_, reencodesAlike_iff m lenient⟩
  rw [← identityTokens_eq_nil_iff content (some src)]
  exact eq_comm

/-- The map of a text with one letter lacks the token that the text has. -/
theorem identityMap_letter_drops_token : identityTokens "a" (some "a.js") = [.plain 0 0 (some "a.js") 0 0 none] ∧
      (identityMap "a" "a.js").tokens = [] := by
  decide

end Transpiler.SourceMap
