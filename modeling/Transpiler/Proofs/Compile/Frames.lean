import Mathlib.Data.List.Nodup
import Transpiler.Proofs.Outcome

/-!
# Frames and generated names

A statement is compiled in a frame of its own, and all that it notes in the frame is forgotten after
it (`Keeps.inFrame`). The number of the last generated name is noted there too, so that the names
generated in a statement differ from those generated around it (`Context.ne_of_generatedName?`).
-/

namespace Transpiler.Compile

namespace Context

variable (c : Context)

@[simp]
theorem get?_push_nil (key : String) : (c.push []).get? key = c.get? key := by
  rfl

theorem get?_set (key other : String) (v : Entry) :
    (c.set key v).get? other = if other = key then some v else c.get? other := by
  have hframe (f : Frame) : Frame.get? other (Frame.set key v f) =
      if other = key then some v else Frame.get? other f := by
    induction f with
    | nil => by_cases h : other = key <;> simp [Frame.set, Frame.get?, h, Ne.symm]
    | cons entry _ ih =>
      obtain ⟨k, _⟩ := entry
      by_cases hk : k = key
      · by_cases h : other = key <;> simp [Frame.set, Frame.get?, hk, h, Ne.symm]
      · by_cases ho : k = other
        · simp [Frame.set, Frame.get?, hk, ← ho]
        · simpa [Frame.set, Frame.get?, hk, ho] using ih
  rw [get?, get?, set, List.findSome?_cons, List.findSome?_cons, hframe]
  by_cases h : other = key <;> simp [h]

@[simp]
theorem get?_set_self (key : String) (v : Entry) : (c.set key v).get? key = some v := by
  rw [get?_set, if_pos rfl]

theorem get?_set_of_ne {key other : String} (h : other ≠ key) (v : Entry) :
    (c.set key v).get? other = c.get? other := by
  rw [get?_set, if_neg h]

def generatedName? (number : Int) : Option String :=
  (letter? number).map fun l => "_pj_" ++ String.singleton l

theorem ne_of_generatedName? {a b : Int} {x y : String} (ha : 0 ≤ a) (hb : 0 ≤ b) (hab : a ≠ b)
    (hx : generatedName? a = some x) (hy : generatedName? b = some y) : x ≠ y := by
  rintro rfl
  obtain ⟨l, hl, rfl⟩ := Option.map_eq_some_iff.mp hx
  obtain ⟨m, hm, hlm⟩ := Option.map_eq_some_iff.mp hy
  obtain rfl : m = l := by simpa [← String.toList_inj] using hlm
  have hget {k : Int} (hk : 0 ≤ k) (hletter : letter? k = some m) : letters[k.toNat]? = some m := by
    simpa [letter?, Int.not_lt.mpr hk] using hletter
  have hnodup : letters.Nodup := by decide
  obtain ⟨_, hga⟩ := List.getElem?_eq_some_iff.mp (hget ha hl)
  obtain ⟨_, hgb⟩ := List.getElem?_eq_some_iff.mp (hget hb hm)
  have := hnodup.getElem_inj_iff.mp (hga.trans hgb.symm)
  omega

variable {c}

theorem newName_eq_ok {c' : Context} {name : String} (h : c.newName = (.ok name, c')) :
    generatedName? (lastNumber (c.get? nameKey) + 1) = some name ∧
      c' = c.set nameKey (.number (lastNumber (c.get? nameKey) + 1)) := by
  unfold newName at h
  split at h
  · simp at h
  · simp at h
  · dsimp only at h
    split at h
    · simp at h
    · split at h
      next l hl =>
        obtain ⟨rfl, rfl⟩ : "_pj_" ++ String.singleton l = name ∧ _ = c' := by simpa using h
        exact ⟨by rw [generatedName?, hl]; rfl, rfl⟩
      · simp at h

end Context

def Session.lastNumber (s : Session) : Int :=
  Context.lastNumber (s.context.get? Context.nameKey)

def Session.Numbered (s : Session) : Prop :=
  ∀ entry, s.context.get? Context.nameKey = some entry →
    ∃ n : Int, entry = .number n ∧ 0 ≤ n ∧ n < Context.letters.length

theorem Session.Numbered.bounds {s : Session} (h : s.Numbered) :
    -1 ≤ s.lastNumber ∧ s.lastNumber < Context.letters.length := by
  unfold lastNumber
  cases hentry : s.context.get? Context.nameKey with
  | none => exact ⟨Int.le_refl _, by decide⟩
  | some entry =>
    obtain ⟨_, rfl, hlow, hhigh⟩ := h entry hentry
    exact ⟨Int.le_trans (by decide) hlow, hhigh⟩

theorem Session.Numbered.newName {s : Session} (h : s.Numbered) : (s.lastNumber + 1 < Context.letters.length ∧
      ∃ l ∈ Context.letters, ∃ s', newName s = .ok ("_pj_" ++ String.singleton l) s') ∨
    (s.lastNumber + 1 = Context.letters.length ∧ ∃ s', newName s = .error .outOfRange s') := by
  obtain ⟨_, hhigh⟩ := h.bounds
  have hrule : s.context.newName = ((Context.letter? (s.lastNumber + 1)).elim (.error .outOfRange)
      fun l => .ok ("_pj_" ++ String.singleton l), s.context.set Context.nameKey (.number (s.lastNumber + 1))) := by
    unfold Context.newName
    split
    next hentry => obtain ⟨n, hn, -⟩ := h _ hentry; cases hn
    next hentry => obtain ⟨n, hn, -⟩ := h _ hentry; cases hn
    · unfold lastNumber at hhigh ⊢
      rw [if_neg (by omega)]
      cases Context.letter? _ <;> rfl
  have hletter : Context.letter? (s.lastNumber + 1) = Context.letters[(s.lastNumber + 1).toNat]? := by
    rw [Context.letter?, if_neg (by omega), if_neg (by omega)]
  by_cases hlt : s.lastNumber + 1 < Context.letters.length
  · have hlt' : (s.lastNumber + 1).toNat < Context.letters.length := by omega
    rw [hletter, List.getElem?_eq_getElem hlt', Option.elim_some] at hrule
    exact .inl ⟨hlt, _, List.getElem_mem hlt', _, by rw [Compile.newName, hrule]⟩
  · rw [hletter, List.getElem?_eq_none (by omega), Option.elim_none] at hrule
    exact .inr ⟨by omega, _, by rw [Compile.newName, hrule]⟩

def Session.withEntry (s : Session) (key : String) (v : Entry) : Session :=
  { s with context := s.context.set key v }

@[simp]
theorem Session.lastNumber_withNumber (s : Session) (number : Int) :
    (s.withEntry Context.nameKey (.number number)).lastNumber = number := by
  simp [lastNumber, withEntry, Context.lastNumber]

@[simp]
theorem Session.lastNumber_withVars (s : Session) (v : Entry) :
    (s.withEntry Context.varsKey v).lastNumber = s.lastNumber := by
  have hne : Context.nameKey ≠ Context.varsKey := by decide
  rw [lastNumber, withEntry, Context.get?_set_of_ne _ hne, ← lastNumber]

@[simp]
theorem Session.vars_withVars (s : Session) (names : List String) :
    (s.withEntry Context.varsKey (.names names)).context.vars = names := by
  simp [withEntry, Context.vars]

theorem Session.Numbered.withEntry {s : Session} (h : s.Numbered) {key : String} (hkey : Context.nameKey ≠ key)
    (v : Entry) : (s.withEntry key v).Numbered := by
  rwa [Numbered, Session.withEntry, Context.get?_set_of_ne _ hkey]

def Session.entered (s : Session) : Session :=
  { s with context := s.context.push [] }

@[simp]
theorem Session.lastNumber_entered (s : Session) : s.entered.lastNumber = s.lastNumber := by
  simp [lastNumber, entered]

def Session.left (s : Session) : Session :=
  { s with context := s.context.pop }

@[simp]
theorem Session.left_entered (s : Session) : s.entered.left = s :=
  rfl

@[simp]
theorem Session.left_withEntry (s : Session) (key : String) (v : Entry) : (s.withEntry key v).left = s.left :=
  rfl

theorem ends_newName (s : Session) : Ends newName s fun name s' =>
    Context.generatedName? (s.lastNumber + 1) = some name ∧
      s' = s.withEntry Context.nameKey (.number (s.lastNumber + 1)) := by
  intro _ _ h
  unfold newName at h
  split at h
  next heq =>
    cases h
    obtain ⟨hname, rfl⟩ := Context.newName_eq_ok heq
    exact ⟨hname, rfl⟩
  · cases h

theorem ends_setEntry (s : Session) (key : String) (v : Entry) :
    Ends (setEntry key v) s fun _ s' => s' = s.withEntry key v :=
  .modify _

variable {α : Type} {x : Run α} {s : Session} {P : α → Prop}

theorem Keeps.inFrame (h : Ends x s.entered fun a t => t.left = s ∧ P a) : Keeps (inFrame x) s P := by
  refine (Ends.modify _).bind ?_
  rintro _ _ rfl
  refine h.bind ?_
  rintro _ _ ⟨hleft, ha⟩
  refine (Ends.modify _).bind ?_
  rintro _ _ rfl
  exact .pure ⟨hleft, ha⟩

end Transpiler.Compile
