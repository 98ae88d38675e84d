import Transpiler.Proofs.Compile.Hoisted
import Transpiler.Proofs.Compile.Spelling

/-!
# Which clause handles an exception

The catching part of a `try` statement is run on a machine of which only that is known which is said in
`Machine`: it has variables, decides tests, and performs what is not looked into here. A block that is
settled runs like its statements in the order of the source (`runJs_statements`), since what moves to its
front and gives no value does nothing.

Of the clauses of a `try` statement the first runs that takes every exception or whose test holds, and with
none the exception is thrown again (`catches_compileStmt`). A clause finds the exception under its name as it is
written in the source. In the body a name is respelled, so the two differ for some names
(`respelled_caughtName`).
-/

namespace Transpiler.Meaning

open Compile
open Script (AllSettled Js Origin Slot ValuesFirst arrange flattenOnce hoisted)
open Source (Expr Handler Ref Stmt)

/-! ### Running statements -/

structure Machine (σ ν ε : Type) where
  read : σ → String → ν
  write : String → ν → σ → σ
  test : Js → σ → Bool × σ
  perform : Js → σ → Except ε σ
  thrown : ν → σ → ε
  read_write : ∀ x v s, read (write x v s) x = v
  read_test : ∀ t s x, read (test t s).2 x = read s x

variable {σ ν ε : Type} (m : Machine σ ν ε)

def takeSteps (steps : List (σ → Except ε σ)) (s : σ) : Except ε σ :=
  steps.foldlM (fun s step => step s) s

def Machine.declare (o : Origin) (d : Script.Declarer) (movable : Bool) (keys : List String)
    (values : List Js) (s : σ) : Except ε σ :=
  match d, keys, values with
  | .var, [x], [.text y] => .ok (m.write x (m.read s y) s)
  | _, _, _ =>
    if values.all Js.isAbsent then .ok s else m.perform (.declare o d movable keys values) s

mutual
def runJs : Js → σ → Except ε σ
  | .ifStmt _ test body orelse, s =>
    let decided := m.test test s
    if decided.1 then takeSteps (runEach body) decided.2 else takeSteps (runEach orelse) decided.2
  | .statements _ items, s => takeSteps (arrange (runSlots items)) s
  | .declare o d movable keys values, s => m.declare o d movable keys values s
  | .command _ .throw (.name _ (.text x)), s => .error (m.thrown (m.read s x) s)
  | .importOf _ _, s | .comment _ _, s => .ok s
  | j, s => m.perform j s

def runEach : List Js → List (σ → Except ε σ)
  | [] => []
  | j :: rest => runJs j :: runEach rest

/-- The steps that run the statements of a block, with their slots. A block directly inside another is part
of it. -/
def runSlots : List Js → List (Slot × (σ → Except ε σ))
  | [] => []
  | .statements _ inner :: rest => runSlotsEach inner ++ runSlots rest
  | j :: rest => (j.slot, runJs j) :: runSlots rest

def runSlotsEach : List Js → List (Slot × (σ → Except ε σ))
  | [] => []
  | j :: rest => (j.slot, runJs j) :: runSlotsEach rest
end

-- the equations are made here once, and not in each of the proofs that use them
attribute [local simp] runJs

def runAll (js : List Js) (s : σ) : Except ε σ :=
  takeSteps (js.map (runJs m)) s

section

variable {m} {js ks : List Js} {s : σ}

theorem runEach_eq_map (js : List Js) : runEach m js = js.map (runJs m) := by
  induction js with
  | nil => rfl
  | cons _ _ ih => rw [runEach, ih, List.map_cons]

theorem runSlotsEach_eq_map (js : List Js) : runSlotsEach m js = js.map fun j => (j.slot, runJs m j) := by
  induction js with
  | nil => rfl
  | cons _ _ ih => rw [runSlotsEach, ih, List.map_cons]

theorem runSlots_eq_map (js : List Js) : runSlots m js = (flattenOnce js).map fun j => (j.slot, runJs m j) := by
  induction js with
  | nil => rfl
  | cons j _ ih =>
    rw [flattenOnce, List.flatMap_cons, List.map_append]
    cases j
    case statements o inner => rw [runSlots, runSlotsEach_eq_map, ih]; rfl
    all_goals
      rw [runSlots, ih]
      · rfl
      · simp

@[simp]
theorem runAll_cons (j : Js) : runAll m (j :: js) s = runJs m j s >>= runAll m js :=
  rfl

theorem runAll_append : runAll m (js ++ ks) s = runAll m js s >>= runAll m ks := by
  simp only [runAll, takeSteps, List.map_append, List.foldlM_append]
  rfl

theorem runJs_ifStmt (o : Origin) (test : Js) : runJs m (.ifStmt o test js ks) s =
    if (m.test test s).1 then runAll m js (m.test test s).2 else runAll m ks (m.test test s).2 := by
  rw [runJs, runEach_eq_map, runEach_eq_map]
  rfl

theorem runJs_statements_eq (o : Origin) (items : List Js) :
    runJs m (.statements o items) s = runAll m (hoisted items) s := by
  have hslots : (flattenOnce items).map (fun j => (j.slot, runJs m j)) =
      ((flattenOnce items).map fun j => (j.slot, j)).map (Prod.map id (runJs m)) := by
    simp [Function.comp_def]
  rw [runJs, runSlots_eq_map, hslots, Script.arrange_map]
  rfl

end

/-! ### Settled blocks -/

def Idle (j : Js) : Prop :=
  ∀ s, runJs m j s = .ok s

section

variable {m} {js items : List Js} {j : Js} {s : σ}

theorem runAll_of_idle (h : ∀ j ∈ js, Idle m j) : runAll m js s = .ok s := by
  induction js with
  | nil => rfl
  | cons j _ ih =>
    rw [runAll_cons, h j (by simp) s]
    exact ih fun k hk => h k (by simp [hk])

theorem runAll_filter {p : Js → Bool} (h : ∀ j ∈ js, p j = false → Idle m j) :
    runAll m (js.filter p) s = runAll m js s := by
  induction js generalizing s with
  | nil => rfl
  | cons j _ ih =>
    have ih {t : σ} := ih (s := t) fun k hk => h k (by simp [hk])
    cases hp : p j with
    | true =>
      rw [List.filter_cons_of_pos hp, runAll_cons, runAll_cons]
      exact congrArg _ (funext fun t => ih)
    | false =>
      rw [List.filter_cons_of_neg (by simp [hp]), runAll_cons, h j (by simp) hp s]
      exact ih

theorem idle_of_importing (h : j.slot = .importing) : Idle m j := by
  intro _
  unfold Js.slot at h
  split at h
  · rw [runJs]
  all_goals cases h

theorem idle_of_comment (h : j.slot = .comment) : Idle m j := by
  intro _
  unfold Js.slot at h
  split at h
  case h_3 => rw [runJs]
  all_goals cases h

theorem idle_of_variable (h : j.slot = .variable) (hvalues : j.movesValue = false) : Idle m j := by
  intro _
  unfold Js.slot at h
  split at h
  case h_2 o keys values =>
    have habsent : ∀ v ∈ values, v.isAbsent = true := by simpa using hvalues
    rw [runJs]
    unfold Machine.declare
    split
    · simpa using habsent _ (List.mem_singleton_self _)
    · exact if_pos (List.all_eq_true.mpr habsent)
  all_goals cases h

theorem runAll_hoisted (h : ValuesFirst items) : runAll m (hoisted items) s = runAll m (flattenOnce items) s := by
  obtain ⟨front, rest, hitems, hfront, hrest⟩ := h
  have hslot (j : Js) (hj : j ∈ front) : j.slot = .variable := Js.slot_of_movesValue (hfront j hj)
  have hstay (j : Js) (hj : j ∈ rest) (hslots : (j.slot != .importing && j.slot != .variable) = false) : Idle m j := by
    cases hj' : j.slot with
    | importing => exact idle_of_importing hj'
    | «variable» => exact idle_of_variable hj' (hrest j hj)
    | comment | other => simp [hj'] at hslots
  obtain ⟨-, comments, others, hsplit, hothers, hcomments, -⟩ := Script.arranged_hoisted items
  -- imports and comments are among the rest, and the declarations of the front come first
  have himports : (flattenOnce items).filter (·.slot == .importing) = rest.filter (·.slot == .importing) := by
    rw [hitems, List.filter_append, List.filter_eq_nil_iff.mpr fun j hj => by simp [hslot j hj]]
    rfl
  have hvariables : (flattenOnce items).filter (·.slot == .variable) = front ++ rest.filter (·.slot == .variable) := by
    rw [hitems, List.filter_append, List.filter_eq_self.mpr fun j hj => by simp [hslot j hj]]
  have hlast : comments ++ others = rest.filter fun j => j.slot != .importing && j.slot != .variable := by
    rw [hothers, hitems, List.filter_append, List.filter_eq_nil_iff.mpr fun j hj => by simp [hslot j hj]]
    rfl
  have hrun {t : σ} : runAll m others t = runAll m rest t := by
    rw [← runAll_filter hstay, ← hlast, runAll_append, runAll_of_idle fun j hj => idle_of_comment (hcomments j hj)]
    rfl
  have hvalueless {t : σ} : runAll m (rest.filter (·.slot == .variable)) t = .ok t := by
    refine runAll_of_idle fun j hj => ?_
    obtain ⟨hj, hslots⟩ := List.mem_filter.mp hj
    exact idle_of_variable (by simpa using hslots) (hrest j hj)
  have hfirst : runAll m (comments ++ rest.filter (·.slot == .importing)) s = .ok s := by
    refine runAll_of_idle fun j hj => (List.mem_append.mp hj).elim (fun hj => ?_) fun hj => ?_
    · exact idle_of_comment (hcomments j hj)
    · exact idle_of_importing (by simpa using (List.mem_filter.mp hj).2)
  rw [hsplit, himports, hvariables, runAll_append, runAll_append, hfirst, hitems, runAll_append]
  change runAll m (front ++ _) s >>= runAll m others = _
  rw [runAll_append]
  cases runAll m front s with
  | error => rfl
  | ok t =>
    change runAll m (rest.filter _) t >>= runAll m others = runAll m rest t
    rw [hvalueless]
    exact hrun

theorem flattenOnce_singleton (hj : ∀ o inner, j ≠ .statements o inner) : flattenOnce [j] = [j] := by
  rw [flattenOnce, List.flatMap_singleton]
  split
  next o inner => exact (hj o inner rfl).elim
  · rfl

theorem runAll_flattenOnce (h : ∀ o inner, Js.statements o inner ∈ js →
    ∀ t, runJs m (.statements o inner) t = runAll m inner t) : runAll m (flattenOnce js) s = runAll m js s := by
  induction js generalizing s with
  | nil => rfl
  | cons j rest ih =>
    have hcons : flattenOnce (j :: rest) = flattenOnce [j] ++ flattenOnce rest := by simp [flattenOnce]
    have hfirst : runAll m (flattenOnce [j]) s = runJs m j s := by
      by_cases hj : ∃ o inner, j = .statements o inner
      · obtain ⟨o, inner, rfl⟩ := hj
        rw [h o inner (by simp), flattenOnce, List.flatMap_singleton]
      · rw [flattenOnce_singleton fun o inner heq => hj ⟨o, inner, heq⟩, runAll_cons]
        exact bind_pure _
    rw [hcons, runAll_append, hfirst, runAll_cons]
    exact congrArg _ (funext fun t => ih fun o inner hmem => h o inner (by simp [hmem]))

theorem runJs_statements {o : Origin} (h : AllSettled (Js.statements o items).nodes) :
    runJs m (.statements o items) s = runAll m items s := by
  induction hsize : sizeOf items using Nat.strongRecOn generalizing items o s with
  | _ _ ih =>
    simp only [Js.nodes, Script.allSettled_cons, Script.allSettled_nodesAll] at h
    rw [runJs_statements_eq, runAll_hoisted h.1]
    refine runAll_flattenOnce fun o inner hmem t => ih (sizeOf inner) ?_ (h.2 _ hmem) rfl
    have hlt := List.sizeOf_lt_of_mem hmem
    simp only [Js.statements.sizeOf_spec] at hlt
    omega

end

/-! ### Clauses -/

/-- A compiled clause: its test, unless it takes every exception, the name that it gives the exception, and
its body. -/
structure Clause where
  test : Option Js
  name : Option String
  body : List Js

structure ClauseOf (cfg : Config) (here : Place) (caught : String) (h : Handler) (c : Clause) : Prop where
  takesAll : c.test = none ↔ h.type.isAbsent = true ∨ h.type.name? = some "Exception"
  test : ∀ t ∈ c.test, ∃ s s', compileCatchTest cfg here caught h.type s = .ok t s'
  name : c.name = h.name
  body : ∃ s s', compileBlock compileTemplate cfg here h.body s = .ok c.body s'

namespace Machine

/-- The first clause that takes every exception or whose test holds, and the state in which it is found. -/
def pick : List Clause → σ → Option Clause × σ
  | [], s => (none, s)
  | c :: rest, s => match c.test with
    | none => (some c, s)
    | some t =>
      let decided := m.test t s
      if decided.1 then (some c, decided.2) else pick rest decided.2

def bindCaught (caught : String) (name : Option String) (s : σ) : σ :=
  match name with
  | some x => if x = caught then s else m.write x (m.read s caught) s
  | none => s

def handle (caught : String) (clauses : List Clause) (s : σ) : Except ε σ :=
  match m.pick clauses s with
  | (some c, t) => runAll m c.body (m.bindCaught caught c.name t)
  | (none, t) => .error (m.thrown (m.read t caught) t)

theorem read_pick (clauses : List Clause) (s : σ) (x : String) : m.read (m.pick clauses s).2 x = m.read s x := by
  induction clauses generalizing s with
  | nil => rfl
  | cons _ _ ih =>
    unfold pick
    split
    · rfl
    · dsimp only
      split
      · exact m.read_test _ s x
      · rw [ih, m.read_test _ s x]

theorem read_bindCaught (caught x : String) (s : σ) : m.read (m.bindCaught caught (some x) s) x = m.read s caught := by
  unfold bindCaught
  dsimp only
  split
  next h => rw [h]
  · exact m.read_write x _ s

end Machine

theorem runAll_renameCaught (o : Origin) (caught : String) (name : Option String) (js : List Js) (s : σ) :
    runAll m (renameCaught o caught name ++ js) s = runAll m js (m.bindCaught caught name s) := by
  unfold renameCaught Machine.bindCaught
  cases name with
  | none => rfl
  | some x =>
    dsimp only
    by_cases hx : x = caught
    · rw [if_pos (beq_iff_eq.mpr hx), if_pos hx]
      rfl
    · rw [if_neg (by simpa using hx), if_neg hx, List.singleton_append, runAll_cons, runJs]
      rfl

theorem takesAll_iff {isLast : Bool} {type : Expr} (h : isLast = false → type.isAbsent = false) :
    takesAll isLast type = true ↔ type.isAbsent = true ∨ type.name? = some "Exception" := by
  cases isLast <;> simp_all [takesAll]

theorem exists_runAll_compileHandlers {cfg : Config} {here : Place} {caught : String}
    {handlers : List Handler} (hne : handlers ≠ [])
    (hbare : ∀ h ∈ handlers.dropLast, h.type.isAbsent = false) {s s' : Session} {js : List Js}
    (h : compileHandlers compileTemplate cfg here caught handlers s = .ok js s')
    (hsettled : ∀ j ∈ js, AllSettled j.nodes) :
    ∃ clauses, List.Forall₂ (ClauseOf cfg here caught) (reachedHandlers handlers) clauses ∧
      ∀ {σ ν ε : Type} (m : Machine σ ν ε) (st : σ), runAll m js st = m.handle caught clauses st := by
  induction handlers generalizing s js with
  | nil => exact (hne rfl).elim
  | cons first rest ih =>
    obtain ⟨p, type, name, body⟩ := first
    have habsent : rest.isEmpty = false → type.isAbsent = false := by
      intro hrest
      cases rest with
      | nil => cases hrest
      | cons => exact hbare _ (List.mem_cons_self ..)
    have hall := takesAll_iff habsent
    rw [compileHandlers] at h
    dsimp only at h
    rw [reachedHandlers, Handler.type]
    split at h
    next htakes =>
      simp only [bind_eq_ok_iff, pure_eq_ok_iff] at h
      obtain ⟨block, _, hblock, rfl, rfl⟩ := h
      refine ⟨[⟨none, name, block⟩], ?_, fun m st => ?_⟩
      · rw [if_pos htakes]
        exact .cons ⟨by simpa [Handler.type] using hall.mp htakes, by simp, rfl, _, _, hblock⟩ .nil
      · rw [runAll_cons, runJs_statements (hsettled _ (by simp)), runAll_renameCaught]
        exact bind_pure _
    next htakes =>
      simp only [bind_eq_ok_iff] at h
      obtain ⟨test, _, htest, block, _, hblock, h⟩ := h
      have hclause : ClauseOf cfg here caught (.mk p type name body) ⟨some test, name, block⟩ :=
        ⟨by simpa [Handler.type] using fun h => htakes (hall.mpr h), by simpa using ⟨_, _, htest⟩, rfl, _, _, hblock⟩
      -- what the other clauses come to
      obtain ⟨others, rfl, clauses, hclauses, hrun⟩ : ∃ others,
          js = [.ifStmt (cfg.origin none) test (renameCaught (cfg.origin none) caught name ++ block) others] ∧
          ∃ clauses, List.Forall₂ (ClauseOf cfg here caught) (reachedHandlers rest) clauses ∧
            ∀ {σ ν ε : Type} (m : Machine σ ν ε) (st : σ), runAll m others st = m.handle caught clauses st := by
        cases rest with
        | nil =>
          obtain ⟨rfl, rfl⟩ := pure_eq_ok_iff.mp h
          exact ⟨_, rfl, [], .nil, fun m _ => by rw [runAll_cons, runJs]; rfl⟩
        | cons =>
          obtain ⟨others, _, hothers, h⟩ := bind_eq_ok_iff.mp h
          obtain ⟨rfl, rfl⟩ := pure_eq_ok_iff.mp h
          refine ⟨others, rfl, ih (by simp) (fun h hh => hbare h ?_) hothers fun j hj => ?_⟩
          · exact List.mem_cons_of_mem _ hh
          · have hif := hsettled _ (List.mem_singleton_self _)
            simp only [Js.nodes, Script.allSettled_cons, Script.allSettled_append, Script.allSettled_nodesAll] at hif
            exact hif.2.2 j hj
      refine ⟨⟨some test, name, block⟩ :: clauses, ?_, fun m _ => ?_⟩
      · rw [if_neg htakes]
        exact .cons hclause hclauses
      · rw [runAll_cons, runJs_ifStmt, Machine.handle, Machine.pick]
        dsimp only
        split
        · rw [runAll_renameCaught]; exact bind_pure _
        · rw [hrun]; exact bind_pure _

/-! ### `try` statements -/

def Machine.value? (s : σ) : Js → Option ν
  | .name _ (.text x) => some (m.read s x)
  | _ => none

def KeepsName (x : String) : Prop :=
  isRespelled x = false ∧ x ∉ ["self", "True", "False", "None"]

theorem nameNode_eq_iff (o : Origin) (x : String) : nameNode o x = .name o (.text x) ↔ KeepsName x := by
  rw [KeepsName, ← normalizeName_eq_self_iff]
  unfold nameNode
  split_ifs <;> simp_all

/-- How a caught exception is handled: the body of the first clause is run that takes every exception or whose
test holds, and finds the exception under the name of the clause. With no such clause the exception is thrown
again. -/
def Handles (caught : String) (clauses : List Clause) (catching : List Js) (s : σ) : Prop :=
  match m.pick clauses s with
  | (some c, t) => runAll m catching s = runAll m c.body (m.bindCaught caught c.name t) ∧
      ∀ x ∈ c.name, KeepsName x → ∀ o, m.value? (m.bindCaught caught c.name t) (nameNode o x) = some (m.read s caught)
  | (none, t) => runAll m catching s = .error (m.thrown (m.read s caught) t)

theorem handles_of_eq {caught : String} {clauses : List Clause} {catching : List Js} {s : σ}
    (h : runAll m catching s = m.handle caught clauses s) : Handles m caught clauses catching s := by
  have hread := m.read_pick clauses s caught
  unfold Machine.handle at h
  unfold Handles
  split
  next hpick =>
    rw [hpick] at h hread
    refine ⟨h, fun x hx hkeeps o => ?_⟩
    rw [(nameNode_eq_iff o x).mpr hkeeps, Option.mem_def.mp hx, Machine.value?, m.read_bindCaught, hread]
  next hpick =>
    rw [hpick] at h hread
    rw [← hread, h]

/-- The tree of a `try` statement catches exceptions as the statement says, on whatever machine it runs. -/
def Catches (cfg : Config) (site : Site) (handlers : List Handler) (j : Js) : Prop :=
  ∃ o js catching finishing clauses, j = .tryStmt o js (.text (caughtName handlers)) catching finishing ∧
    List.Forall₂ (ClauseOf cfg (site.inner.place cfg) (caughtName handlers)) (reachedHandlers handlers) clauses ∧
    ∀ {σ ν ε : Type} (m : Machine σ ν ε) (s : σ), Handles m (caughtName handlers) clauses catching s

/-- Exceptions go to the first clause of a `try` statement that takes them, and are thrown again if there is
none. A clause finds the exception under its name if that is one that expressions keep; they keep no others. -/
theorem catches_compileStmt {cfg : Config} {site : Site} {p : Source.At} {star : Bool}
    {body orelse finalbody : List Stmt} {handlers : List Handler} (hne : handlers ≠ [])
    (hbare : ∀ h ∈ handlers.dropLast, h.type.isAbsent = false) {s s' : Session} {j : Js}
    (h : compileStmt compileTemplate cfg (site.place cfg)
      (.tryBlock p star body handlers orelse finalbody) s = .ok j s') :
    Catches cfg site handlers j ∧ ∀ o x, nameNode o x = .name o (.text x) ↔ KeepsName x := by
  refine ⟨?_, nameNode_eq_iff⟩
  have hrun : (Task.stmt site (.tryBlock p star body handlers orelse finalbody)).run compileTemplate cfg s =
      .ok (.tree j) s' := map_eq_ok_iff.mpr ⟨j, h, rfl⟩
  have hsettled := Task.settled_run templatesFit_compileTemplate hrun
  rw [compileStmt] at h
  obtain ⟨t, hstep, -⟩ := inFrame_eq_ok_iff.mp h
  dsimp only at hstep
  split at hstep
  next => cases hstep
  next =>
    obtain ⟨caught, _, hbegin, hstep⟩ := bind_eq_ok_iff.mp hstep
    obtain rfl := yields_beginTry _ _ _ _ _ _ _ hbegin
    obtain ⟨js, _, -, catching, _, hcatching, finishing, _, -, hstep⟩ := by
      simpa only [bind_eq_ok_iff] using hstep
    rw [if_neg (by simpa using hne)] at hstep
    obtain ⟨rfl, rfl⟩ := pure_eq_ok_iff.mp hstep
    simp only [Task.material, allMaterial_cons, Material.Settled, Js.nodes, Script.allSettled_cons,
      Script.allSettled_append, Script.allSettled_nodesAll] at hsettled
    obtain ⟨clauses, hclauses, hruns⟩ := exists_runAll_compileHandlers hne hbare hcatching hsettled.1.2.2.1.2
    exact ⟨_, js, catching, finishing, clauses, rfl, hclauses, fun m st => handles_of_eq m (hruns m st)⟩

def Machine.ofVariables (holds : Js → Bool) : Machine (String → Nat) Nat Unit where
  read s := s
  write x v s := fun y => if y = x then v else s y
  test t s := (holds t, s)
  perform _ s := .ok s
  thrown _ _ := ()
  read_write _ _ _ := if_pos rfl
  read_test _ _ _ := rfl

theorem catches_renamingTry : ∃ j s',
    compileStmt compileTemplate (.standard true false) (Site.top.place (.standard true false)) renamingTry
      .start = .ok j s' ∧
    Catches (.standard true false) .top renamingHandlers j := by
  obtain ⟨j, s', h⟩ : ∃ j s', compileStmt compileTemplate (.standard true false)
      (Site.top.place (.standard true false)) renamingTry .start = .ok j s' := ⟨_, _, rfl⟩
  exact ⟨j, s', h, (catches_compileStmt (by decide) (by decide) h).1⟩

def respellingTry : Stmt :=
  .tryBlock none false [callStmt "a"] [.mk none (.name none "A") (some "e_")
    [.expr none (.call none (.name none "f") [.name none "e_"] [])]] [] []

/-- The exception is caught under the name as it stands in the source. The call in the clause takes another
variable, which may have another value. -/
theorem respelled_caughtName : (∃ o js test f others o₁ o₂ o₃ o₄ s',
      compileStmt compileTemplate (.standard false false) (Site.top.place (.standard false false)) respellingTry
        .start = .ok (.tryStmt o js (.text "e_") [.ifStmt o₁ test
          [.exprStmt o₂ (.call o₃ "" f [.name o₄ (.text "e")] .absent)] others] []) s') ∧
    ∀ o, (Machine.ofVariables fun _ => true).value? (fun x => if x = "e_" then 1 else 0) (nameNode o "e_") =
      some 0 :=
  ⟨⟨_, _, _, _, _, _, _, _, _, _, rfl⟩, fun _ => rfl⟩

end Transpiler.Meaning
