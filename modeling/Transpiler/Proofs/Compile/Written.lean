import Mathlib.Data.List.Forall2
import Transpiler.Proofs.Compile.Frames
import Transpiler.Proofs.Compile.Occurrences

/-!
# What is written for a source

A tree writes what the marks of its source ask for, and nothing else but what the compiler supplies
(`Matches`). The steps of a compilation leave the frames around them as they are, and so the name of
the exception that is being handled is known from the place of a statement (`Stays`).
-/

namespace Transpiler.Compile

open Script (Js Trait Writes traitsAll)
open Source (Ref)

variable {id key : String} {m : Mark} {t : Trait} {s : Session} {d : Option String}

/-! ### Marks and traits -/

def suppliedNames : List String :=
  ["Function", "String", "Number", "console", "Object", "Math", "Error", "parseInt", "parseFloat",
    "__", "_pj"]

def Supplied (es6 : Bool) : Trait → Prop
  | .name _ id => (∃ number, Context.generatedName? number = some id) ∨ id ∈ suppliedNames
  | .feature _ | .template _ => es6 = true

structure Matches (es6 : Bool) (ms : List Mark) (ts : List Trait) : Prop where
  covered : ∀ t ∈ ts, (∃ m ∈ ms, m.trait? = some t) ∨ Supplied es6 t
  written : ∀ m ∈ ms, m.isSure = true → ∀ t, m.trait? = some t → Writes ts t

variable {es6 : Bool} {ms ns : List Mark} {ts us : List Trait}

namespace Matches

theorem nil : Matches es6 [] [] :=
  ⟨by simp, by simp⟩

section

variable (h : Matches es6 ms ts)

include h

theorem imp (hts : ts ⊆ us) (hus : ∀ t ∈ us, t ∈ ts ∨ Supplied es6 t)
    (hms : ms ⊆ ns) (hns : ∀ m ∈ ns, m ∈ ms ∨ m.isSure = false ∨ m.trait? = none) :
    Matches es6 ns us := by
  constructor
  · intro t ht
    rcases hus t ht with ht | ht
    · rcases h.covered t ht with ⟨m, hm, hmt⟩ | ht
      · exact .inl ⟨m, hms hm, hmt⟩
      · exact .inr ht
    · exact .inr ht
  · intro m hm hsure t hmt
    rcases hns m hm with hm | hnot | hnone
    · exact (h.written m hm hsure t hmt).mono hts
    · simp [hnot] at hsure
    · simp [hnone] at hmt

theorem append {ms' : List Mark} {ts' : List Trait}
    (h' : Matches es6 ms' ts') : Matches es6 (ms ++ ms') (ts ++ ts') := by
  constructor
  · intro t ht
    rcases List.mem_append.mp ht with ht | ht
    · exact (h.covered t ht).imp_left fun ⟨m, hm, hmt⟩ => ⟨m, List.mem_append_left _ hm, hmt⟩
    · exact (h'.covered t ht).imp_left fun ⟨m, hm, hmt⟩ => ⟨m, List.mem_append_right _ hm, hmt⟩
  · intro m hm hsure t hmt
    rcases List.mem_append.mp hm with hm | hm
    · exact (h.written m hm hsure t hmt).mono (List.subset_append_left _ _)
    · exact (h'.written m hm hsure t hmt).mono (List.subset_append_right _ _)

theorem congr (hms : ∀ m, m ∈ ns ↔ m ∈ ms) (hts : ∀ t, t ∈ us ↔ t ∈ ts) : Matches es6 ns us :=
  h.imp (fun t => (hts t).mpr) (fun t ht => .inl ((hts t).mp ht)) (fun m => (hms m).mpr)
    fun m hm => .inl ((hms m).mp hm)

theorem both (h' : Matches es6 ms us) : Matches es6 ms (ts ++ us) :=
  (h.append h').congr (by simp) (by simp)

theorem supply (us : List Trait) (hus : ∀ t ∈ us, Supplied es6 t) : Matches es6 ms (us ++ ts) :=
  h.imp (List.subset_append_right _ _) (fun t ht => (List.mem_append.mp ht).symm.imp_right (hus t))
    (fun _ => id) fun _ => .inl

theorem word (node : Option Ref) (hid : id ∈ suppliedNames) : Matches es6 ms (.name node id :: ts) :=
  h.supply [_] (by simpa [Supplied] using .inr hid)

theorem generated (node : Option Ref) (hid : ∃ number, Context.generatedName? number = some id) :
    Matches es6 ms (.name none id :: .name node id :: ts) :=
  h.supply [_, _] (by simpa [Supplied] using .inl hid)

theorem feature (f : Script.Feature) (hes6 : es6 = true) : Matches es6 ms (.feature f :: ts) :=
  h.supply [_] (by simpa [Supplied] using hes6)

end

theorem mark (h : m.trait? = some t) : Matches es6 [m] [t] := by
  constructor
  · simp [h]
  · simp only [List.mem_singleton, forall_eq, h, Option.some.injEq]
    rintro - _ rfl
    exact .direct (by simp)

theorem cons (hm : m.trait? = some t) (h : Matches es6 ms ts) : Matches es6 (m :: ms) (t :: ts) :=
  (mark hm).append h

theorem skips (ns : List Mark) (h : Matches es6 ms ts) (hns : ∀ m ∈ ns, m.trait? = none) : Matches es6 (ns ++ ms) ts :=
  h.imp (fun _ => id) (fun _ => .inl) (List.subset_append_right _ _) fun m hm =>
    (List.mem_append.mp hm).symm.imp_right fun hm => .inr (hns m hm)

theorem skip (hm : m.trait? = none) (h : Matches es6 ms ts) : Matches es6 (m :: ms) ts :=
  h.skips [m] (by simpa using hm)

end Matches

/-! ### Steps within a scope -/

/-- Two sessions have the same frames around the innermost one, and handle the same exception. -/
structure SameScope (s s' : Session) : Prop where
  outer : s'.context.outer = s.context.outer
  exception : s'.context.exception? = s.context.exception?

theorem SameScope.of_context {s' : Session} (h : s'.context = s.context) : SameScope s s' :=
  ⟨by rw [h], by rw [h]⟩

theorem SameScope.withEntry (s : Session) (hkey : key ≠ Context.exceptionKey)
    (v : Entry) : SameScope s (s.withEntry key v) := by
  refine ⟨rfl, ?_⟩
  rw [Session.withEntry, Context.exception?, Context.get?_set_of_ne _ hkey.symm, ← Context.exception?]

variable {α β : Type} {c : Option String} {x : Run α} {f : α → Run β} {P : α → Prop} {R : β → Prop}

/-- Where the exception `c` is being handled, every result of a step satisfies `P`, and the step does not
change the frames around it. -/
def Stays (c : Option String) (x : Run α) (P : α → Prop) : Prop :=
  ∀ s, s.context.exception? = c → Ends x s fun a s' => SameScope s s' ∧ P a

def Moves (c d : Option String) (x : Run α) (P : α → Prop) : Prop :=
  ∀ s, s.context.exception? = c → Ends x s fun a s' =>
    s'.context.outer = s.context.outer ∧ s'.context.exception? = d ∧ P a

theorem Moves.bind {e : Option String} (hx : Moves c d x P) (hf : ∀ a, P a → Moves d e (f a) R) :
    Moves c e (x >>= f) R := by
  intro s hs
  refine (hx s hs).bind ?_
  rintro a t ⟨houter, hexception, ha⟩ b s' hfb
  obtain ⟨houter', hb⟩ := hf a ha t hexception b s' hfb
  exact ⟨houter'.trans houter, hb⟩

namespace Stays

theorem moves (h : Stays c x P) : Moves c c x P := by
  intro s hs a s' hx
  obtain ⟨hscope, ha⟩ := h s hs a s' hx
  exact ⟨hscope.outer, hscope.exception.trans hs, ha⟩

theorem imp {Q : α → Prop} (h : Stays c x P) (hPQ : ∀ a, P a → Q a) : Stays c x Q :=
  fun s hs a s' hx => (h s hs a s' hx).imp_right (hPQ a)

theorem and {Q : α → Prop} (h : Stays c x P) (h' : Yields x Q) : Stays c x fun a => P a ∧ Q a :=
  fun s hs a s' hx => ⟨(h s hs a s' hx).1, (h s hs a s' hx).2, h' s a s' hx⟩

theorem ofKeeps (h : ∀ s, Keeps x s P) : Stays c x P := by
  intro s _ a s' hx
  obtain ⟨rfl, ha⟩ := h s a s' hx
  exact ⟨.of_context rfl, ha⟩

theorem pure {a : α} (h : P a) : Stays c (pure a) P :=
  ofKeeps fun _ => .pure h

theorem throw (e : Fault) : Stays c (MonadExcept.throw e : Run α) P :=
  fun _ _ => .throw e

theorem throwBind (e : Fault) : Stays c ((MonadExcept.throw e : Run α) >>= f) R :=
  fun _ _ => .throwBind e

theorem bind (hx : Stays c x P) (hf : ∀ a, P a → Stays c (f a) R) : Stays c (x >>= f) R := by
  intro s hs
  refine (hx s hs).bind ?_
  rintro a t ⟨hst, ha⟩ b s' hfb
  obtain ⟨hts, hb⟩ := hf a ha t (hst.exception.trans hs) b s' hfb
  exact ⟨⟨hts.outer.trans hst.outer, hts.exception.trans hst.exception⟩, hb⟩

theorem map {g : α → β} (hx : Stays c x P) (hg : ∀ a, P a → R (g a)) : Stays c (g <$> x) R := by
  rw [← bind_pure_comp]
  exact hx.bind fun a ha => pure (hg a ha)

theorem ofExcept {e : Except Fault α} (h : ∀ a, e = .ok a → P a) : Stays c (ofExcept e) P := by
  cases e with
  | error fault => exact throw fault
  | ok a => exact pure (h a rfl)

theorem ofFrame (hx : Moves c d x P) : Stays c (inFrame x) P := by
  intro s hs
  refine (Ends.modify _).bind ?_
  rintro _ _ rfl
  refine (hx s.entered hs).bind ?_
  rintro _ t ⟨houter, -, ha⟩
  refine (Ends.modify _).bind ?_
  rintro _ _ rfl
  refine .pure ⟨.of_context ?_, ha⟩
  show t.context.pop = s.context
  simp [Context.pop, houter, Session.entered, Context.push]

theorem inFrame (hx : Stays c x P) : Stays c (inFrame x) P :=
  ofFrame hx.moves

theorem forM {ι : Type} {is : List ι} {x : ι → Run Unit} {Q : ι → Prop}
    (h : ∀ i ∈ is, Stays c (x i) fun _ => Q i) : Stays c (is.forM x) fun _ => ∀ i ∈ is, Q i := by
  induction is with
  | nil => exact pure (by simp)
  | cons i rest ih =>
    show Stays c (x i >>= fun _ => rest.forM x) _
    refine (h i (by simp)).bind fun _ hi => ?_
    refine (ih fun j hj => h j (by simp [hj])).imp fun _ hrest => ?_
    exact List.forall_mem_cons.mpr ⟨hi, hrest⟩

theorem modify {g : Session → Session} (hg : ∀ s, (g s).context = s.context) : Stays c (modify g) fun _ => True := by
  rintro s - _ _ ⟨⟩
  exact ⟨.of_context (hg s), trivial⟩

theorem setEntry (hkey : key ≠ Context.exceptionKey) (v : Entry) : Stays c (setEntry key v) fun _ => True := by
  intro s _ _ _ h
  rw [ends_setEntry s key v _ _ h]
  exact ⟨.withEntry s hkey v, trivial⟩

theorem newName : Stays c newName fun name => ∃ number, Context.generatedName? number = some name := by
  intro s _ name s' h
  obtain ⟨hname, rfl⟩ := ends_newName s name s' h
  exact ⟨.withEntry s (by decide) _, _, hname⟩

theorem getBind {k : Session → Run α} (h : ∀ s, s.context.exception? = c → Stays c (k s) P) : Stays c (get >>= k) P :=
  fun s hs => h s hs s hs

theorem useSnippet (f : Snippet) : Stays c (useSnippet f) fun _ => True := by
  refine getBind fun s _ => ?_
  split
  · exact throw _
  · exact modify fun _ => rfl

theorem addGlobals (names : List String) : Stays c (addGlobals names) fun _ => True :=
  modify fun _ => rfl

theorem warn (node : Ref) (text : String) : Stays c (warn node text) fun _ => True :=
  modify fun _ => rfl

theorem refuseIf (cond : Bool) (node : Ref) (why : Refusal) : Stays c (refuseIf cond node why) fun _ => cond = false :=
  ofKeeps fun _ => .refuseIf cond node why

theorem guardFeature (on : Bool) (node : Ref) (what : Requirement) :
    Stays c (guardFeature on node what) fun _ => on = true :=
  ofKeeps fun _ => .guardFeature on node what

theorem demand (cond : Bool) : Stays c (demand cond) fun _ => cond = true :=
  ofKeeps fun _ => .demand cond

theorem yields (h : ∀ c, Stays c x P) : Yields x P :=
  fun s a s' hx => (h _ s rfl a s' hx).2

theorem result {a : α} (hx : Stays c x P) (hs : s.context.exception? = c) (h : Run.result x s = .ok a) : P a := by
  unfold Run.result at h
  split at h
  next s' hxs =>
    cases h
    exact (hx s hs a s' hxs).2
  · cases h

end Stays

abbrev Emits (es6 : Bool) (c : Option String) (x : Run Js) (ms : List Mark) : Prop :=
  Stays c x fun j => Matches es6 ms j.traits

abbrev EmitsAll (es6 : Bool) (c : Option String) (x : Run (List Js)) (ms : List Mark) : Prop :=
  Stays c x fun js => Matches es6 ms (traitsAll js)

/-! ### Places -/

structure SuperFits (es6 : Bool) (x : Run Js) (ms : List Mark) : Prop where
  emits : ∀ c, Emits es6 c x ms
  node : Yields x fun j => j.isText = false

structure Method.Fits (es6 : Bool) (m : Method) (m' : SpotMethod) : Prop where
  isInit : m.isInit = m'.isInit
  isAsync : m.isAsync = m'.isAsync
  superclass : Option.Rel (SuperFits es6) m.superclass m'.superclass

structure Place.Fits (es6 : Bool) (here : Place) (spot : Spot) : Prop where
  method : Option.Rel (Method.Fits es6) here.method spot.method
  owner : Option.Rel (fun (w : Owner) ms => Option.Rel (SuperFits es6) w.superclass ms) here.owner spot.owner
  underClass : here.underClass = spot.underClass

namespace Place.Fits

variable {here : Place} {spot : Spot}

theorem top : Place.top.Fits es6 Spot.top :=
  ⟨.none, .none, rfl⟩

section

variable (hh : here.Fits es6 spot)

include hh

theorem inner : here.inner.Fits es6 spot.inner :=
  ⟨hh.method, .none, hh.underClass⟩

theorem inside (name : String) (isAsync : Bool) : (here.inside name isAsync).Fits es6 (spot.inside name isAsync) := by
  refine ⟨?_, .none, hh.underClass⟩
  have howner := hh.owner
  unfold Place.inside Spot.inside
  generalize here.owner = w at howner
  generalize spot.owner = w' at howner
  cases howner with
  | none => exact .none
  | some hsuper => exact .some ⟨rfl, rfl, hsuper⟩

theorem member {superclass : Option (Run Js)}
    {superclass' : Option (List Mark)} (h : Option.Rel (SuperFits es6) superclass superclass') :
    (here.member superclass).Fits es6 (spot.member superclass') :=
  ⟨hh.method, .some h, rfl⟩

theorem catching (handlers : List Source.Handler) : here.Fits es6 (spot.catching handlers) := by
  unfold Spot.catching
  split
  · exact hh
  · exact ⟨hh.method, hh.owner, hh.underClass⟩

theorem isSome_owner : here.owner.isSome = spot.owner.isSome := by
  have howner := hh.owner
  generalize here.owner = w at howner
  generalize spot.owner = w' at howner
  cases howner <;> rfl

theorem isNone_owner : here.owner.isNone = spot.owner.isNone := by
  rw [← Option.not_isSome, hh.isSome_owner, Option.not_isSome]

end

end Place.Fits

end Transpiler.Compile
