import Mathlib.Data.Set.Basic
import Transpiler.Proofs.Compile.WrittenScript

/-!
# How names are written

Uses of a name and definitions of functions are written in the spelling of the name, and all other
occurrences as they are. So the occurrences of a variable are written alike if its name is its own
spelling (`normalizeName_eq_self_iff`) or if they all go the same way (`written_alike_iff`).
-/

namespace Transpiler.Compile

open Script (Js Trait Writes)
open Source (Stmt)

variable {old cs : List Char} {c : Char}

/-! ### Spellings -/

/-- Whether the spelling of a name is another one: the name starts with a mark for dollar signs, or it
ends with an underscore and does not start with one. -/
def isRespelled (name : String) : Bool :=
  let cs := name.toList
  ['d', '_'].isPrefixOf cs || ['d', 'd', '_'].isPrefixOf cs || (cs.head? != some '_' && cs.getLast? == some '_')

theorem replaceChars_ne {new : List Char} {d : Char} (hold : (c :: old).isPrefixOf cs = true)
    (hcd : c ≠ d) : replaceChars (c :: old) (d :: new) cs.length cs ≠ cs := by
  cases cs with
  | nil => cases hold
  | cons =>
    rw [List.length_cons, replaceChars, if_pos hold]
    simp only [List.isPrefixOf, Bool.and_eq_true, beq_iff_eq] at hold
    intro heq
    exact hcd (hold.1.trans (List.cons.inj heq).1.symm)

theorem dropLast_ne (h : cs.getLast? = some c) : cs.dropLast ≠ cs := by
  intro heq
  have hlength := congrArg List.length heq
  cases cs with
  | nil => cases h
  | cons => simp at hlength

theorem normalizeName_eq_self_iff (name : String) : normalizeName name = name ↔ isRespelled name = false := by
  rw [← String.toList_inj, normalizeName, String.toList_ofList, normalizeChars, isRespelled]
  split
  next hdollar => simp [hdollar, replaceChars_ne hdollar]
  next hdollar =>
    split
    next hdollars => simp [hdollars, replaceChars_ne hdollars]
    next hdollars =>
      split
      next hlast =>
        have hchar : name.toList.getLast? = some '_' := by
          simpa using (Bool.and_eq_true_iff.mp hlast).2
        simp [hlast, dropLast_ne hchar]
      next hlast =>
        simp [Bool.eq_false_iff.mpr hdollar, Bool.eq_false_iff.mpr hdollars, Bool.eq_false_iff.mpr hlast]

/-! ### Dollar signs -/

/-- The mark at the start of a name for one dollar sign, or for two. -/
def dollarMark (two : Bool) : List Char :=
  if two then ['d', 'd', '_'] else ['d', '_']

def dollarSigns (two : Bool) : List Char :=
  if two then ['$', '$'] else ['$']

/-- Replacing cuts a text at what is replaced, and joins the pieces again. -/
theorem exists_pieces_replaceChars (hold : old ≠ []) (new : List Char) {fuel : Nat}
    (h : cs.length ≤ fuel) : ∃ piece pieces, cs = old.intercalate (piece :: pieces) ∧
      (∀ p ∈ piece :: pieces, ¬ old <:+: p) ∧ replaceChars old new fuel cs = new.intercalate (piece :: pieces) := by
  fun_induction replaceChars old new fuel cs with
  | case1 cs =>
    obtain rfl : cs = [] := by simpa using h
    exact ⟨[], [], rfl, by simpa using hold, rfl⟩
  | case2 => exact ⟨[], [], rfl, by simpa using hold, rfl⟩
  | case3 _ _ _ hprefix ih =>
    obtain ⟨_, hafter⟩ := List.isPrefixOf_iff_prefix.mp hprefix
    have hlength := congrArg List.length hafter
    have hpos := List.length_pos_of_ne_nil hold
    obtain ⟨piece, pieces, hcs, hpieces, heq⟩ := ih (by simp_all; omega)
    rw [← hafter, List.drop_left] at hcs
    refine ⟨[], piece :: pieces, ?_, List.forall_mem_cons.mpr ⟨by simpa using hold, hpieces⟩, ?_⟩
    · rw [← hafter, hcs, List.intercalate_cons_cons, List.nil_append]
    · rw [heq, List.intercalate_cons_cons, List.nil_append]
  | case4 _ c _ hprefix ih =>
    obtain ⟨piece, pieces, rfl, hpieces, heq⟩ := ih (by simpa using h)
    have hcons (sep : List Char) : sep.intercalate ((c :: piece) :: pieces) = c :: sep.intercalate (piece :: pieces) := by
      cases pieces <;> simp [List.intercalate_cons_cons]
    have hhead : piece <+: old.intercalate (piece :: pieces) := by
      cases pieces <;> simp [List.intercalate_cons_cons]
    refine ⟨c :: piece, pieces, (hcons old).symm, ?_, by rw [heq, hcons]⟩
    rw [List.forall_mem_cons] at hpieces ⊢
    refine ⟨fun hinfix => (List.infix_cons_iff.mp hinfix).elim (fun hpre => hprefix ?_) hpieces.1, hpieces.2⟩
    exact List.isPrefixOf_iff_prefix.mpr (hpre.trans ((List.prefix_cons_inj c).mpr hhead))

theorem exists_normalizeChars_dollarMark (two : Bool) (cs : List Char) : ∃ fuel, cs.length ≤ fuel ∧
    normalizeChars (dollarMark two ++ cs) = dollarSigns two ++ replaceChars (dollarMark two) (dollarSigns two) fuel cs := by
  cases two
  · exact ⟨cs.length + 1, by simp, by simp [normalizeChars, dollarMark, dollarSigns, replaceChars]⟩
  · exact ⟨cs.length + 2, by simp, by simp [normalizeChars, dollarMark, dollarSigns, replaceChars]⟩

/-- A name that starts with the mark for dollar signs: the mark is replaced wherever it occurs in the name, so the
rest of the name is kept exactly if the mark does not occur in it again. -/
theorem normalizeName_dollarMark_iff (two : Bool) (s : String) :
    (∃ pieces : List (List Char), s.toList = (dollarMark two).intercalate pieces ∧
      (∀ p ∈ pieces, ¬ dollarMark two <:+: p) ∧ normalizeName (.ofList (dollarMark two) ++ s) =
        .ofList (dollarSigns two ++ (dollarSigns two).intercalate pieces)) ∧
    (normalizeName (.ofList (dollarMark two) ++ s) = .ofList (dollarSigns two) ++ s ↔ ¬ dollarMark two <:+: s.toList) ∧
    ∀ o, nameNode o (.ofList (dollarMark two) ++ s) = .name o (.text (.ofList (dollarSigns two) ++ s)) ↔
      ¬ dollarMark two <:+: s.toList := by
  obtain ⟨fuel, hfuel, hnormal⟩ := exists_normalizeChars_dollarMark two s.toList
  have hmark : dollarMark two ≠ [] ∧ (dollarMark two).head? ≠ (dollarSigns two).head? := by cases two <;> decide
  obtain ⟨piece, pieces, hs, hpieces, heq⟩ := exists_pieces_replaceChars hmark.1 (dollarSigns two) hfuel
  rw [heq] at hnormal
  have hname : normalizeName (.ofList (dollarMark two) ++ s) =
      .ofList (dollarSigns two ++ (dollarSigns two).intercalate (piece :: pieces)) := by
    rw [normalizeName, String.toList_append, String.toList_ofList, hnormal]
  have hnode (o : Script.Origin) : nameNode o (.ofList (dollarMark two) ++ s) =
      .name o (.text (normalizeName (.ofList (dollarMark two) ++ s))) := by
    cases two <;> simp [nameNode, dollarMark, ← String.toList_inj]
  simp only [hnode, Script.Js.name.injEq, Script.Js.text.injEq, true_and, forall_const]
  refine ⟨⟨_, hs, hpieces, hname⟩, and_self_iff.mpr ?_⟩
  rw [hname, ← String.toList_inj, String.toList_append, String.toList_ofList, String.toList_ofList,
    List.append_cancel_left_eq, hs]
  cases pieces with
  | nil => simpa using hpieces
  | cons next rest =>
    simp only [List.intercalate_cons_cons, List.append_assoc, List.append_cancel_left_eq]
    refine iff_of_false (fun h => hmark.2 ?_) (not_not_intro ⟨piece, _, by rw [List.append_assoc]⟩)
    have hhead := congrArg List.head? h
    cases two <;> simp [dollarMark, dollarSigns] at hhead

/-- A mark inside a name is replaced too. -/
theorem normalizeName_dollarMark_inside : normalizeName "d_old_field" = "$ol$field" := by
  decide

/-! ### Routes -/

theorem Route.spelling?_eq_iff {a b : Route} (ha : a ≠ .replaced) (hb : b ≠ .replaced) (name : String) :
    a.spelling? name = b.spelling? name ↔ a = b ∨ isRespelled name = false := by
  rw [← normalizeName_eq_self_iff]
  cases a <;> cases b <;> simp [Route.spelling?, eq_comm] at ha hb ⊢

theorem Occurrence.isSome_spelling?_iff (p : Occurrence) : p.spelling?.isSome = true ↔ p.role ≠ .replaced := by
  obtain ⟨_, _, role⟩ := p
  cases role <;> simp [Occurrence.spelling?, Role.route, Route.spelling?]

theorem Role.route_ne_replaced {role : Role} (h : role ≠ .replaced) : role.route ≠ .replaced := by
  cases role <;> simp [Role.route] at h ⊢

theorem exists_spelling_iff {name : String} {V : Set Occurrence} (hname : ∀ p ∈ V, p.name = name) :
    (∃ id, ∀ p ∈ V, p.spelling? = some id) ↔ (∀ p ∈ V, p.role ≠ .replaced) ∧
        (isRespelled name = false ∨ ∀ p ∈ V, ∀ q ∈ V, p.role.route = q.role.route) := by
  have hspelling : ∀ p ∈ V, p.spelling? = p.role.route.spelling? name := fun p hp => by
    rw [Occurrence.spelling?, hname p hp]
  constructor
  · rintro ⟨_, hid⟩
    have hrole : ∀ p ∈ V, p.role ≠ .replaced := fun p hp =>
      p.isSome_spelling?_iff.mp (by rw [hid p hp, Option.isSome_some])
    refine ⟨hrole, or_iff_not_imp_left.mpr fun hrespelled p hp q hq => ?_⟩
    have heq : p.role.route.spelling? name = q.role.route.spelling? name := by
      rw [← hspelling p hp, ← hspelling q hq, hid p hp, hid q hq]
    exact ((Route.spelling?_eq_iff (Role.route_ne_replaced (hrole p hp))
      (Role.route_ne_replaced (hrole q hq)) name).mp heq).resolve_right hrespelled
  · rintro ⟨hrole, halike⟩
    rcases V.eq_empty_or_nonempty with rfl | ⟨q, hq⟩
    · exact ⟨"", by simp⟩
    · obtain ⟨id, hid⟩ := Option.isSome_iff_exists.mp (q.isSome_spelling?_iff.mpr (hrole q hq))
      refine ⟨id, fun p hp => ?_⟩
      rw [← hid, hspelling p hp, hspelling q hq, Route.spelling?_eq_iff
        (Role.route_ne_replaced (hrole p hp)) (Role.route_ne_replaced (hrole q hq))]
      exact halike.symm.imp_left fun hroute => hroute p hp q hq

/-! ### Scripts -/

/-- How the names of a source are written. Every occurrence is written as its role says, but a variable
is not declared again where one of that name is declared around it. Every identifier is an occurrence of
the source or of the library, or the compiler supplies it. The occurrences of a variable, which all have
its name, are written as one identifier exactly if none of them has a rule of its own and either the
name is its own spelling or they all go the same way. -/
theorem written_alike_iff {r : Request} {body : List Stmt} {script : Js} (h : compileScript r body = .ok script) :
    (∀ p, .occurrence p ∈ sourceMarks r body → p.role ≠ .declaration →
      ∀ id, p.spelling? = some id → Writes script.traits (.name p.node id)) ∧
    (∀ node id, .name node id ∈ script.traits →
      (∃ p, p.node = node ∧ p.spelling? = some id ∧ (.occurrence p ∈ sourceMarks r body ∨
        ∃ fs, .occurrence p ∈ libraryMarks (.standard r.es6 r.stage3) fs)) ∨
      (∃ number, Context.generatedName? number = some id) ∨ id ∈ suppliedNames) ∧
    ∀ (name : String) (V : Set Occurrence), (∀ p ∈ V, .occurrence p ∈ sourceMarks r body ∧ p.name = name) →
      ((∃ id, ∀ p ∈ V, p.spelling? = some id) ↔ (∀ p ∈ V, p.role ≠ .replaced) ∧
          (isRespelled name = false ∨ ∀ p ∈ V, ∀ q ∈ V, p.role.route = q.role.route)) := by
  obtain ⟨lm, hlm, hmatches⟩ := exists_matches_compileScript h
  refine ⟨?_, ?_, fun name V hV => exists_spelling_iff fun p hp => (hV p hp).2⟩
  · intro p hp hrole id hid
    refine hmatches.written _ (List.mem_append_right lm hp) (by simpa [Mark.isSure] using hrole) _ ?_
    simp [Mark.trait?, hid]
  · intro node id hwritten
    rcases hmatches.covered _ hwritten with ⟨m, hm, htrait⟩ | hsupplied
    · cases m with
      | feature u => simp [Mark.trait?] at htrait
      | occurrence p =>
        obtain ⟨id', hid', heq⟩ := Option.map_eq_some_iff.mp htrait
        cases heq
        refine .inl ⟨p, rfl, hid', ?_⟩
        rcases List.mem_append.mp hm with hlibrary | hsource
        · rcases hlm with rfl | ⟨fs, rfl⟩
          · cases hlibrary
          · exact .inr ⟨fs, hlibrary⟩
        · exact .inl hsource
    · exact .inr hsupplied

def dollarIdentity : List Stmt :=
  [.functionDef none false "f" ⟨[], [⟨none, "d_x", .absent⟩], none, [], [], none, []⟩
    [.ret none (.name none "d_x")] [] .absent]

theorem written_alike_dollarIdentity : ∃ script, compileScript (.standard false false) dollarIdentity = .ok script ∧
      (∀ p, .occurrence p ∈ sourceMarks (.standard false false) dollarIdentity → p.role ≠ .declaration →
        ∀ id, p.spelling? = some id → Writes script.traits (.name p.node id)) ∧
      (∀ node id, .name node id ∈ script.traits → (∃ p, p.node = node ∧ p.spelling? = some id ∧
          (.occurrence p ∈ sourceMarks (.standard false false) dollarIdentity ∨
            ∃ fs, .occurrence p ∈ libraryMarks (.standard false false) fs)) ∨
        (∃ number, Context.generatedName? number = some id) ∨ id ∈ suppliedNames) ∧
      ∀ (name : String) (V : Set Occurrence),
        (∀ p ∈ V, .occurrence p ∈ sourceMarks (.standard false false) dollarIdentity ∧ p.name = name) →
        ((∃ id, ∀ p ∈ V, p.spelling? = some id) ↔ (∀ p ∈ V, p.role ≠ .replaced) ∧
            (isRespelled name = false ∨ ∀ p ∈ V, ∀ q ∈ V, p.role.route = q.role.route)) :=
  ⟨_, rfl, written_alike_iff (r := .standard false false) rfl⟩

/-- The parameter of this function and its use are written as different identifiers. -/
theorem written_apart_dollarIdentity : ∃ script p q, compileScript (.standard false false) dollarIdentity = .ok script ∧
      .occurrence p ∈ sourceMarks (.standard false false) dollarIdentity ∧ p.role = .parameter ∧
      .occurrence q ∈ sourceMarks (.standard false false) dollarIdentity ∧ q.role = .use ∧
      p.name = q.name ∧ p.spelling? = some "d_x" ∧ q.spelling? = some "$x" ∧
      .name p.node "d_x" ∈ script.traits ∧ .name q.node "$x" ∈ script.traits :=
  ⟨_, ⟨none, "d_x", .parameter⟩, ⟨some (Source.Expr.name none "d_x").ref, "d_x", .use⟩, rfl, by decide,
    rfl, by decide, rfl, rfl, by decide, by decide, by decide, by decide⟩

end Transpiler.Compile
