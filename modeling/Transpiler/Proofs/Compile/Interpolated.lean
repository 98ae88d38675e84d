import Transpiler.Proofs.Compile.Trees
import Transpiler.Proofs.Compile.Verbatim
import Transpiler.Proofs.Script.Balanced

/-!
# Formatted strings

A formatted string becomes a template: its texts as they are, with the code of its expressions in place holders
between them (`segments`). So a back quote, a backslash, a carriage return or the start of a place holder in a text is
read as something else, and the lines of a longer template are trimmed. The template is read back as the formatted
string exactly if none of this happens and the code of every expression ends where it should (`readsBack_iff`), which
it does for expressions made of names, literals, operators, calls, fields and subscripts.
-/

namespace Transpiler.Compile

open Script (HolesEnclosed NeedsNoEscape Js Operational Segment cookedText isBalanced lineEnd rawText readTemplate?)
open Source (At Expr Ref)
open Text (KeepsLines relaid)

/-- What a formatted string stands for: the characters of its texts, and the code of its expressions. -/
def segments : List Expr → List Js → List (Segment Char)
  | .constant _ (.str s) :: rest, js => s.toList.map .text ++ segments rest js
  | .formattedValue .. :: rest, j :: js => .hole j.chars :: segments rest js
  | _, _ => []

variable {cfg : Config} {here : Place} {s s' : Session}

theorem rawText_append (t t' : List (Segment Char)) : rawText (t ++ t') = rawText t ++ rawText t' := by
  simp [rawText]

theorem rawText_map_text (cs : List Char) : rawText (cs.map .text) = cs := by
  induction cs with
  | nil => rfl
  | cons _ _ ih => rw [List.map_cons, Script.rawText_text, ih]

theorem Chunks.toList_eq {values : List Expr} {js : List Js} {text : String} (h : Chunks values js text) :
    (∀ j ∈ js, j.check = Script.passed) ∧ text.toList = rawText (segments values js) := by
  induction h with
  | nil => exact ⟨by simp, rfl⟩
  | text _ ih =>
    refine ⟨ih.1, ?_⟩
    rw [String.toList_append, ih.2, segments, rawText_append, rawText_map_text]
  | value hj _ ih =>
    obtain ⟨hcheck, rfl⟩ := Script.check_of_render? hj
    refine ⟨List.forall_mem_cons.mpr ⟨hcheck, ih.1⟩, ?_⟩
    simp [segments, Script.rawText_hole, ih.2, Js.chars]

def readLiteral? (complete : List Char → Bool) : List Char → Option (List (Segment Nat) × List Char)
  | '`' :: cs => readTemplate? complete cs
  | _ => none

def ReadsBack (complete : List Char → Bool) (t : List (Segment Char)) (text : String) : Prop :=
  ∃ rest, (rest = [] ∨ rest = ['\n']) ∧ readLiteral? complete text.toList = some (cookedText t, rest)

theorem readsBack_template_iff {complete : List Char → Bool} {t : List (Segment Char)} {raw : String}
    (hraw : raw.toList = rawText t) :
    ReadsBack complete t ("`" ++ relaid raw ++ "`" ++ lineEnd raw) ↔
      KeepsLines raw ∧ NeedsNoEscape t ∧ HolesEnclosed complete t := by
  have hread : readTemplate? complete ((relaid raw).toList ++ '`' :: (lineEnd raw).toList) =
      some (cookedText t, (lineEnd raw).toList) ↔ relaid raw = raw ∧ NeedsNoEscape t ∧ HolesEnclosed complete t :=
    Script.readTemplate?_eq_some_iff hraw
  rw [← Text.relaid_eq_self_iff, ← hread]
  have htext : ("`" ++ relaid raw ++ "`" ++ lineEnd raw).toList =
      '`' :: ((relaid raw).toList ++ '`' :: (lineEnd raw).toList) := by simp
  rw [ReadsBack, htext, readLiteral?]
  have hend : (lineEnd raw).toList = [] ∨ (lineEnd raw).toList = ['\n'] := by
    unfold lineEnd
    split <;> simp
  constructor
  · rintro ⟨rest, hrest, hread⟩
    obtain ⟨_, hfront⟩ := (Script.readTemplate?_cases hread).1
    have hsame : rest = (lineEnd raw).toList := by
      have hlast := congrArg List.getLast? hfront
      obtain rfl | rfl := hrest <;> obtain h | h := hend <;> rw [h] at hlast ⊢ <;> simp at hlast
    rw [← hsame]
    rwa [← hsame] at hread
  · exact fun h => ⟨_, hend, h⟩

theorem exists_of_hole_mem_segments {values : List Expr} {js : List Js} {code : List Char}
    (h : .hole code ∈ segments values js) : ∃ j ∈ js, j.chars = code := by
  fun_induction segments values js with
  | case1 _ _ _ _ ih => exact ih (by simpa using h)
  | case2 _ _ _ _ _ j _ ih =>
    obtain heq | hmem := List.mem_cons.mp h
    · exact ⟨j, by simp, by cases heq; rfl⟩
    · obtain ⟨k, hk, hcode⟩ := ih hmem
      exact ⟨k, by simp [hk], hcode⟩
  | case3 => cases h

/-- A formatted string that is compiled is read back from its template exactly if the layout leaves its lines alone, no
character of its texts has a meaning of its own, and the code of each expression ends where it should. -/
theorem readsBack_iff {p : At} {values : List Expr} {j : Js}
    (h : compileExpr cfg here (.joinedStr p values) s = .ok j s') :
    ∃ js text, compileExprs cfg here (values.filterMap formatted?) s = .ok js s' ∧ j.render? = .ok text ∧
      (∀ complete, ReadsBack complete (segments values js) text ↔
        KeepsLines (String.ofList (rawText (segments values js))) ∧ NeedsNoEscape (segments values js) ∧
          HolesEnclosed complete (segments values js)) ∧
      ((∀ j ∈ js, Operational j) → HolesEnclosed isBalanced (segments values js)) := by
  rw [compileExpr] at h
  obtain ⟨_, _, hfeature, h⟩ := bind_eq_ok_iff.mp h
  obtain ⟨raw, _, hchunks, h⟩ := bind_eq_ok_iff.mp h
  obtain ⟨rfl, rfl⟩ := pure_eq_ok_iff.mp h
  obtain rfl := (Keeps.guardFeature _ _ _ _ _ hfeature).1
  obtain ⟨js, hchunks, hjs⟩ := exists_chunks hchunks
  obtain ⟨hchecks, hraw⟩ := hchunks.toList_eq
  have hofList : String.ofList (rawText (segments values js)) = raw := by rw [← hraw, String.ofList_toList]
  refine ⟨js, _, hjs, Script.render?_template _ raw, fun complete => ?_, fun hoperational => ?_⟩
  · rw [hofList]
    exact readsBack_template_iff hraw
  · intro code hcode
    obtain ⟨k, hk, rfl⟩ := exists_of_hole_mem_segments hcode
    exact (hoperational k hk).enclosed (hchecks k hk)

def priceValues : List Expr :=
  [.constant none (.str "$"), .formattedValue none (.name none "x") (-1) .absent, .constant none (.str " for\nall")]

/-- The template of the string is read back, the dollar sign before the place holder included. -/
theorem readsBack_priceValues :
    (∃ j, compileExpr (.standard true false) .top (.joinedStr none priceValues) .start = .ok j .start ∧
      j.render? = .ok "`$$\x7bx\x7d for\nall`\n") ∧
    ReadsBack isBalanced (.text '$' :: .hole ['x'] :: " for\nall".toList.map .text)
      "`$$\x7bx\x7d for\nall`\n" := by
  have hcompile : ∃ j, compileExpr (.standard true false) .top (.joinedStr none priceValues) .start = .ok j .start ∧
      j.render? = .ok "`$$\x7bx\x7d for\nall`\n" := ⟨_, rfl, by decide +kernel⟩
  obtain ⟨j, hcompile, htext⟩ := hcompile
  obtain ⟨js, text, hjs, htext', hreads, hholes⟩ := readsBack_iff hcompile
  obtain rfl := Except.ok.inj (htext.symm.trans htext')
  obtain ⟨rfl, -⟩ := pure_eq_ok_iff.mp hjs
  refine ⟨⟨j, hcompile, htext⟩, (hreads isBalanced).mpr ⟨?_, ?_, hholes ?_⟩⟩
  · decide +kernel
  · refine ⟨?_, by decide +kernel⟩
    simp only [List.forall_mem_cons, List.not_mem_nil, false_implies, implies_true, and_true]
    decide +kernel
  · intro k hk
    obtain rfl := List.mem_singleton.mp hk
    exact .name (by decide) (by decide) (by decide)

/-- A back quote in a text ends the template. -/
theorem not_readsBack_backQuote : (∃ j, compileExpr (.standard true false) .top
        (.joinedStr none [.constant none (.str "`"), .formattedValue none (.name none "y") (-1) .absent]) .start =
          .ok j .start ∧ j.render? = .ok "``$\x7by\x7d`") ∧
      ∀ complete, ¬ ReadsBack complete [.text '`', .hole ['y']] "``$\x7by\x7d`" := by
  refine ⟨⟨_, rfl, by decide +kernel⟩, ?_⟩
  rintro complete ⟨rest, hrest, hread⟩
  have hread' : readLiteral? complete "``$\x7by\x7d`".toList = some ([], "$\x7by\x7d`".toList) := by
    show readTemplate? complete ('`' :: "$\x7by\x7d`".toList) = _
    rw [readTemplate?]
    rfl
  rw [hread'] at hread
  cases hread

end Transpiler.Compile
