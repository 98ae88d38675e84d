import Transpiler.Proofs.Compile.Does
import Transpiler.Proofs.Compile.Lowering
import Transpiler.Proofs.Compile.Origins

/-!
# What the output of a step is made of

A step makes its output of material: the trees of the expressions and statements that it compiles,
references to run-time functions, and names. `Wraps` says how output and material belong together: all
nodes of the material are in the output, the output refers to the same run-time functions, and it is
clean, settled and traced where the material is. `Demands` says when it has to be. A step collects (`Collects`) if
it does tasks, what it gives wraps the material that they give, and the same step of another compilation gives what
is lowered to it, if the tasks do. There is one rule for each way to build a step.
-/

namespace Transpiler.Compile

open Lowerable (lower)
open Script (AllSettled AllTraced Js Lowering NoBare Origin allTraced_iff bracketFree nodesAll)
open Source (Expr Info Ref Stmt)

variable {templates : Templates} {cfg : Config} {m : Material} {γ ι : Type} {R : γ → Prop} {is : List ι}

variable {cond on on' : Bool} {what : Requirement}

/-! ### Material -/

inductive Material where
  | tree (j : Js)
  | operand (j : Js)
  | stmt (j : Js)
  /-- The tree of a statement in a body that is no block. -/
  | apart (j : Js)
  | ref (name : String)
  | drawn (name : String)
  /-- A name of the source that is noted in the session. -/
  | noted (name : String)

namespace Material

@[simp]
def nodes : Material → List Js
  | tree j | operand j | stmt j | apart j => j.nodes
  | ref _ | drawn _ | noted _ => []

@[simp]
def refs : Material → List String
  | tree j | operand j | stmt j | apart j => j.refs
  | ref name => [name]
  | drawn _ | noted _ => []

@[simp]
def Foreign : Material → Prop
  | tree j => j.isRuntime = false
  | drawn name => name ≠ "_pj"
  | operand _ | stmt _ | apart _ | ref _ | noted _ => True

@[simp]
def Clean : Material → Prop
  | tree j | operand j => j.masked.Clean
  | stmt j | apart j => j.masked.Clean ∧ j.standsAlone = true
  | drawn name | noted name => bracketFree name = true
  | ref _ => True

/-- In the blocks of material the declarations that move with values come first, and none comes out of the
material into a block around it. -/
@[simp]
def Settled : Material → Prop
  | tree j | stmt j => j.isStill = true ∧ AllSettled j.nodes
  | operand j | apart j => AllSettled j.nodes
  | ref _ | drawn _ | noted _ => True

@[simp]
def Traced (Q : Origin → Prop) : Material → Prop
  | tree j | operand j => j.Traced Q
  | stmt j | apart j => j.isBare = false ∧ j.Traced Q
  | drawn name => name ≠ ""
  | ref _ | noted _ => True

end Material

section

variable {ms ks : List Material} {P : Material → Prop}

def nodesOf (ms : List Material) : List Js :=
  ms.flatMap Material.nodes

def refsOf (ms : List Material) : List String :=
  ms.flatMap Material.refs

def AllMaterial (P : Material → Prop) (ms : List Material) : Prop :=
  ∀ m ∈ ms, P m

abbrev AllForeign := AllMaterial Material.Foreign

abbrev MaterialClean := AllMaterial Material.Clean

abbrev MaterialSettled := AllMaterial Material.Settled

abbrev MaterialTraced (Q : Origin → Prop) := AllMaterial (Material.Traced Q)

@[simp]
theorem nodesOf_nil : nodesOf [] = [] :=
  rfl

@[simp]
theorem nodesOf_cons (m : Material) : nodesOf (m :: ms) = m.nodes ++ nodesOf ms :=
  List.flatMap_cons

@[simp]
theorem nodesOf_append : nodesOf (ms ++ ks) = nodesOf ms ++ nodesOf ks :=
  List.flatMap_append

@[simp]
theorem refsOf_nil : refsOf [] = [] :=
  rfl

@[simp]
theorem refsOf_cons (m : Material) : refsOf (m :: ms) = m.refs ++ refsOf ms :=
  List.flatMap_cons

@[simp]
theorem refsOf_append : refsOf (ms ++ ks) = refsOf ms ++ refsOf ks :=
  List.flatMap_append

@[simp]
theorem allMaterial_nil : AllMaterial P [] := by
  simp [AllMaterial]

@[simp]
theorem allMaterial_cons : AllMaterial P (m :: ms) ↔ P m ∧ AllMaterial P ms :=
  List.forall_mem_cons

@[simp]
theorem allMaterial_append : AllMaterial P (ms ++ ks) ↔ AllMaterial P ms ∧ AllMaterial P ks :=
  List.forall_mem_append

end

section

variable {α : Type} {P : Material → Prop} {f : α → Material} {as : List α} {js : List Js} {Q : Origin → Prop}

@[simp]
theorem flatMap_nodes : js.flatMap Js.nodes = nodesAll js := by
  induction js with
  | nil => rfl
  | cons _ _ ih => simp [ih]

@[simp]
theorem flatMap_refs : js.flatMap Js.refs = Script.refsAll js := by
  induction js with
  | nil => rfl
  | cons _ _ ih => simp [ih]

@[simp]
theorem nodesOf_map : nodesOf (as.map f) = as.flatMap fun a => (f a).nodes :=
  List.flatMap_map ..

@[simp]
theorem refsOf_map : refsOf (as.map f) = as.flatMap fun a => (f a).refs :=
  List.flatMap_map ..

theorem nodesOf_trees : nodesOf (js.map .tree) = nodesAll js := by
  simp

theorem nodesOf_stmts : nodesOf (js.map .stmt) = nodesAll js := by
  simp

theorem refsOf_stmts : refsOf (js.map .stmt) = Script.refsAll js := by
  simp

@[simp]
theorem allMaterial_map : AllMaterial P (as.map f) ↔ ∀ a ∈ as, P (f a) :=
  List.forall_mem_map

@[simp high]
theorem materialTraced_trees : MaterialTraced Q (js.map .tree) ↔ AllTraced Q js := by
  simp [allTraced_iff]

@[simp high]
theorem materialTraced_operands : MaterialTraced Q (js.map .operand) ↔ AllTraced Q js := by
  simp [allTraced_iff]

@[simp high]
theorem materialTraced_stmts : MaterialTraced Q (js.map .stmt) ↔ NoBare js ∧ AllTraced Q js := by
  simp [NoBare, allTraced_iff, forall_and]

@[simp high]
theorem materialTraced_aparts : MaterialTraced Q (js.map .apart) ↔ NoBare js ∧ AllTraced Q js := by
  simp [NoBare, allTraced_iff, forall_and]

end

/-! ### Output and material -/

/-- The definitions of exceptions have origins that satisfy `Q`, if the node they are made for has one. -/
def TemplatesTraced (templates : Templates) (cfg : Config) (Q : Origin → Prop) : Prop :=
  ∀ r name j, Q (cfg.origin (some r)) →
    templates { cfg with remap := some r, snippets := false, mapped := true } (exceptionSource name) = .ok j →
      j.isBare = false ∧ j.Traced Q

def definesException : Stmt → Bool
  | .classDef p name bases keywords body ds => isExceptionClass ⟨p, name, bases, keywords, ds⟩ body
  | _ => false

/-- When output has to be clean (`words`), and when it has to be traced (`placed`), to which origins and for which
expressions and statements of the source. Besides, `other` is a compilation whose output is lowered to this one. -/
structure Demands (templates : Templates) (cfg : Config) where
  words : Prop
  placed : Prop
  exprs : Expr → Prop
  stmts : Stmt → Prop
  origin : Origin → Prop
  grounds : placed → Grounds cfg exprs stmts origin
  template : placed → ∀ s, stmts s → definesException s = true → TemplatesTraced templates cfg origin
  lowering : Lowering
  other : Config
  lowers : cfg.Lowers lowering other
  again : lowering = .same → ∀ r name j,
    templates { cfg with remap := some r, snippets := false, mapped := true } (exceptionSource name) = .ok j →
      templates { other with remap := some r, snippets := false, mapped := true } (exceptionSource name) = .ok j

def Demands.none (templates : Templates) (cfg : Config) : Demands templates cfg where
  words := False
  placed := False
  exprs _ := True
  stmts _ := True
  origin _ := True
  grounds := False.elim
  template := False.elim
  lowering := .same
  other := cfg
  lowers := ⟨id, rfl, rfl, rfl, fun _ => rfl, by simp, by simp⟩
  again _ _ _ _ := id

/-- Output for `node` is traced, where it has to be. -/
abbrev Demands.Covers (D : Demands templates cfg) (node : Option Ref) : Prop :=
  D.placed → D.origin (cfg.origin node)

@[simp]
theorem Demands.origin_none (D : Demands templates cfg) : D.Covers .none :=
  fun h => (D.grounds h).none

@[simp]
theorem Demands.origin_other (D : Demands templates cfg) (node : Option Ref) :
    (D.other.origin node).lower D.lowering = cfg.origin node :=
  D.lowers.origin node

variable {D : Demands templates cfg}

structure Wraps (D : Demands templates cfg) (ms ks : List Material) : Prop where
  foreign : AllForeign ms → AllForeign ks
  nodes : ∀ t ∈ nodesOf ms, t ∈ nodesOf ks
  refs : AllForeign ms → ∀ x, x ∈ refsOf ks ↔ x ∈ refsOf ms
  clean : D.words → MaterialClean ms → MaterialClean ks
  settled : MaterialSettled ms → MaterialSettled ks
  traced : D.placed → MaterialTraced D.origin ms → MaterialTraced D.origin ks

namespace Wraps

variable {ms ks ls ms' ks' : List Material}

theorem refl (ms : List Material) : Wraps D ms ms :=
  ⟨fun h => h, fun _ h => h, fun _ _ => Iff.rfl, fun _ h => h, fun h => h, fun _ h => h⟩

theorem trans (h : Wraps D ms ks) (h' : Wraps D ks ls) : Wraps D ms ls where
  foreign hms := h'.foreign (h.foreign hms)
  nodes t ht := h'.nodes t (h.nodes t ht)
  refs hms x := (h'.refs (h.foreign hms) x).trans (h.refs hms x)
  clean hD hms := h'.clean hD (h.clean hD hms)
  settled hms := h'.settled (h.settled hms)
  traced hD hms := h'.traced hD (h.traced hD hms)

theorem append (h : Wraps D ms ks) (h' : Wraps D ms' ks') : Wraps D (ms ++ ms') (ks ++ ks') where
  foreign := by simpa using And.imp h.foreign h'.foreign
  nodes t ht := by
    rw [nodesOf_append, List.mem_append] at ht ⊢
    exact ht.imp (h.nodes t) (h'.nodes t)
  refs hms x := by
    obtain ⟨hms, hms'⟩ := allMaterial_append.mp hms
    rw [refsOf_append, refsOf_append, List.mem_append, List.mem_append, h.refs hms, h'.refs hms']
  clean hD := by simpa using And.imp (h.clean hD) (h'.clean hD)
  settled := by simpa using And.imp h.settled h'.settled
  traced hD := by simpa using And.imp (h.traced hD) (h'.traced hD)

theorem of_mem_iff (h : ∀ m, m ∈ ms ↔ m ∈ ks) : Wraps D ms ks where
  foreign hms m hm := hms m ((h m).mpr hm)
  nodes t ht := by
    obtain ⟨m, hm, ht⟩ := List.mem_flatMap.mp ht
    exact List.mem_flatMap.mpr ⟨m, (h m).mp hm, ht⟩
  refs _ x := by simp [refsOf, List.mem_flatMap, h]
  clean _ hms m hm := hms m ((h m).mpr hm)
  settled hms m hm := hms m ((h m).mpr hm)
  traced _ hms m hm := hms m ((h m).mpr hm)

theorem swap (ms ks : List Material) : Wraps D (ms ++ ks) (ks ++ ms) :=
  of_mem_iff fun m => by simp [or_comm]

theorem operand (j : Js) : Wraps D [.tree j] [.operand j] := by
  constructor <;> simp

theorem aparts (js : List Js) : Wraps D (js.map .stmt) (js.map .apart) := by
  constructor <;> simp +contextual

theorem block {o : Origin} (ho : D.placed → D.origin o) {js : List Js} (h : Wraps D ms (js.map .apart))
    (hfirst : MaterialSettled ms → Script.ValuesFirst js) : Wraps D ms [.apart (.statements o js)] where
  foreign _ := by simp
  nodes t ht := by simpa using .inr (by simpa using h.nodes t ht)
  refs hms x := by simpa using h.refs hms x
  clean hD hms := by simpa using h.clean hD hms
  settled hms := by simpa using ⟨hfirst hms, by simpa using h.settled hms⟩
  traced hD hms := by simpa [ho hD] using h.traced hD hms

theorem free {js : List Js} (h : ∀ j ∈ js, Wraps D [] [.operand j]) : Wraps D [] (js.map .operand) := by
  induction js with
  | nil => exact .refl []
  | cons j _ ih => exact (h j (by simp)).append (ih fun k hk => h k (by simp [hk]))

end Wraps

/-! ### The material of tasks -/

/-- The reference that goes with the use of a run-time function. Output that is mapped to one node of
the source holds no references. -/
def Snippet.material (cfg : Config) (f : Snippet) : List Material :=
  if cfg.remap.isNone then [.ref f.name] else []

section

variable (f : Snippet)

@[simp]
theorem Snippet.nodesOf_material : nodesOf (f.material cfg) = [] := by
  unfold material
  split <;> rfl

@[simp]
theorem Snippet.refsOf_material : refsOf (f.material cfg) = if cfg.remap.isNone then [f.name] else [] := by
  unfold material
  split <;> rfl

@[simp]
theorem Snippet.allMaterial_material {P : Material → Prop} :
    AllMaterial P (f.material cfg) ↔ (cfg.remap.isNone = true → P (.ref f.name)) := by
  unfold material
  split <;> simp_all

end

def Task.material (cfg : Config) : Task → Value → List Material
  | act (.use f), _ => f.material cfg
  | act .draw, .text s => [.drawn s]
  | act (.scope ..), .names ns => ns.map .noted
  | act .caught, .caught c => c.toList.map .noted
  | expr .., .tree j => [.tree j]
  | stmt .., .tree j | decorators .., .tree j => [.stmt j]
  | _, _ => []

def materials (cfg : Config) (ts : List Task) (vs : List Value) : List Material :=
  (List.zipWith (Task.material cfg) ts vs).flatten

@[simp]
theorem materials_nil : materials cfg [] [] = [] :=
  rfl

@[simp]
theorem materials_cons (u : Task) (us : List Task) (v : Value) (vs : List Value) :
    materials cfg (u :: us) (v :: vs) = u.material cfg v ++ materials cfg us vs :=
  rfl

theorem materials_append {ts us : List Task} {vs ws : List Value} (h : ts.length = vs.length) :
    materials cfg (ts ++ us) (vs ++ ws) = materials cfg ts vs ++ materials cfg us ws := by
  rw [materials, List.zipWith_append h, List.flatten_append]
  rfl

/-! ### Steps -/

/-- The results of a step and of the same step of the other compilation. The first belongs to material, and the
second is lowered to it if `H` holds. -/
structure Makes (D : Demands templates cfg) (H : Prop) (ms : List Material) {α : Type} [Lowerable α] (a a' : α)
    (ks : List Material) : Prop where
  foreign : AllForeign ms → AllForeign ks
  nodes : ∀ t ∈ nodesOf ms, t ∈ nodesOf ks
  refs : AllForeign ms → ∀ x, x ∈ refsOf ks ↔ x ∈ refsOf ms
  clean : D.words → MaterialClean ms → MaterialClean ks
  settled : MaterialSettled ms → MaterialSettled ks
  traced : D.placed → MaterialTraced D.origin ms → MaterialTraced D.origin ks
  lowers : H → lower D.lowering a' = a

section

variable {H : Prop} {ms ks : List Material} {α : Type} [Lowerable α] {a a' : α}

theorem Makes.wraps (h : Makes D H ms a a' ks) : Wraps D ms ks :=
  ⟨h.foreign, h.nodes, h.refs, h.clean, h.settled, h.traced⟩

theorem Makes.refl (h : H → lower D.lowering a' = a) : Makes D H ms a a' ms :=
  ⟨id, fun _ => id, fun _ _ => .rfl, fun _ => id, id, fun _ => id, h⟩

theorem Wraps.makes (h : Wraps D ms ks) (hlower : H → lower D.lowering a' = a) : Makes D H ms a a' ks :=
  ⟨h.foreign, h.nodes, h.refs, h.clean, h.settled, h.traced, hlower⟩

end

instance : Lowerable Value := ⟨fun
  | c, .tree j => .tree (j.lower c)
  | _, v => v⟩

def Task.Lowers (D : Demands templates cfg) (u : Task) : Prop :=
  (∀ a, u ≠ .act a) → Compile.Lowers D.lowering (u.run templates cfg) (u.run templates D.other)

theorem Lowers.checkOf {β : Type} [Lowerable β] {c : Lowering} {x : Run γ} {k k' : γ → Run β}
    (hx : Does templates cfg x []) (hR : Yields x R) (hk : ∀ a, R a → Lowers c (k a) (k' a)) :
    Lowers c (x >>= k) (x >>= k') := by
  intro _ t hst b s' hb
  obtain ⟨a, _, ha, hka⟩ := bind_eq_ok_iff.mp hb
  obtain rfl := hx.session_eq ha
  obtain ⟨b', t', hb', hlower⟩ := hk a (hR _ a _ ha) _ t hst b s' hka
  exact ⟨b', t', bind_eq_ok_iff.mpr ⟨a, t, hx.run_eq_ok ha t, hb'⟩, hlower⟩

/-- A check that passes does the same in the other compilation. -/
def Repeats (x y : Run γ) : Prop :=
  (∃ e, x = throw e) ∨ y = x

namespace Repeats

variable {x x' y y' : Run γ} {k k' : Unit → Run γ} {node : Ref}

theorem refl (x : Run γ) : Repeats x x :=
  .inr rfl

theorem ite (hx : Repeats x x') (hy : Repeats y y') : Repeats (if cond then x else y) (if cond then x' else y') := by
  cases cond <;> assumption

theorem guard (hon : on = true → on' = true) (hk : Repeats (k ()) (k' ())) :
    Repeats (guardFeature on node what >>= k) (guardFeature on' node what >>= k') := by
  cases on with
  | false => exact .inl ⟨_, rfl⟩
  | true =>
    rw [hon rfl]
    exact hk

theorem refuse {why : Refusal} (hk : Repeats (k ()) (k' ())) :
    Repeats (refuseIf cond node why >>= k) (refuseIf cond node why >>= k') := by
  cases cond with
  | true => exact .inl ⟨_, rfl⟩
  | false => exact hk

end Repeats

/-- A step does tasks, and what it gives wraps the material that it has and the material that they give. If the
tasks give the same in the other compilation, so does the step where `H` holds. -/
structure Collects (D : Demands templates cfg) (H : Prop) (ms : List Material) {α : Type} [Lowerable α]
    (x y : Run α) (ts : List Task) (out : α → List Material) : Prop where
  does : Does templates cfg x ts
  wraps : ∀ s a s', x s = .ok a s' → ∃ vs, RunsTo templates cfg ts s vs s' ∧ Wraps D (ms ++ materials cfg ts vs) (out a)
  lowers : H → (∀ u ∈ ts, u.Lowers D) → Lowers D.lowering x y

abbrev CollectsIn (D : Demands templates cfg) (ms : List Material) {α : Type} [Lowerable α] (x : Config → Run α)
    (ts : List Task) (out : α → List Material) : Prop :=
  Collects D True ms (x cfg) (x D.other) ts out

namespace Collects

variable {α β : Type} [Lowerable α] [Lowerable β] {H : Prop} {ms : List Material} {x y : Run α}
  {f f' : α → Run β} {ts us : List Task} {mid : α → List Material} {out : β → List Material}

theorem pure {a a' : α} (h : Makes D H ms a a' (mid a)) : Collects D H ms (pure a) (pure a') [] mid := by
  refine ⟨.pure a, fun s b _ hb => ?_, fun hH _ => .pure (h.lowers hH)⟩
  obtain ⟨rfl, rfl⟩ := pure_eq_ok_iff.mp hb
  exact ⟨[], by simp, by simpa using h.wraps⟩

theorem throw (e : Fault) (y : Run α) (ts : List Task) : Collects D H ms (MonadExcept.throw e) y ts mid :=
  ⟨.throw e ts, by rintro s a s' ⟨⟩, fun _ _ => .throw e y⟩

theorem throwBind {f : γ → Run β} (e : Fault) (y : Run β) (ts : List Task) :
    Collects D H ms ((MonadExcept.throw e : Run γ) >>= f) y ts out :=
  throw e y ts

theorem imp (h : Collects D H ms x y ts mid) {mid' : α → List Material}
    (hmid : ∀ a, Wraps D (mid a) (mid' a)) : Collects D H ms x y ts mid' := by
  refine ⟨h.does, fun s a s' ha => ?_, h.lowers⟩
  obtain ⟨vs, hvs, hwraps⟩ := h.wraps s a s' ha
  exact ⟨vs, hvs, hwraps.trans (hmid a)⟩

theorem under (h : Collects D True ms x y ts mid) : Collects D H ms x y ts mid :=
  ⟨h.does, h.wraps, fun _ => h.lowers trivial⟩

theorem against {z : Run α} (h : Collects D False ms x z ts mid)
    (hlowers : H → (∀ u ∈ ts, u.Lowers D) → Lowers D.lowering x y) : Collects D H ms x y ts mid :=
  ⟨h.does, h.wraps, hlowers⟩

theorem pre (h : Collects D H ms x y ts mid) {ks : List Material} (hks : Wraps D ks ms) :
    Collects D H ks x y ts mid := by
  refine ⟨h.does, fun s a s' ha => ?_, h.lowers⟩
  obtain ⟨vs, hvs, hwraps⟩ := h.wraps s a s' ha
  exact ⟨vs, hvs, (hks.append (.refl _)).trans hwraps⟩

theorem frame (h : Collects D H [] x y ts mid) (ks : List Material) : Collects D H ks x y ts fun a => ks ++ mid a := by
  refine ⟨h.does, fun s a s' ha => ?_, h.lowers⟩
  obtain ⟨vs, hvs, hwraps⟩ := h.wraps s a s' ha
  exact ⟨vs, hvs, (Wraps.refl ks).append hwraps⟩

theorem bindOfWith {R : α → Prop} {ks : List Material} (hx : Collects D True ks x y ts mid) (hR : Yields x R)
    (hf : ∀ a a', R a → Collects D (H ∧ lower D.lowering a' = a) (ms ++ mid a) (f a) (f' a') us out) :
    Collects D H (ms ++ ks) (x >>= f) (y >>= f') (ts ++ us) out := by
  refine ⟨hx.does.bindOf hR fun a ha => (hf a a ha).does, fun s b s' hb => ?_, fun hH hts => ?_⟩
  · obtain ⟨a, t, ha, hb⟩ := bind_eq_ok_iff.mp hb
    obtain ⟨vs, hvs, hwraps⟩ := hx.wraps s a t ha
    obtain ⟨ws, hws, hwraps'⟩ := (hf a a (hR s a t ha)).wraps t b s' hb
    refine ⟨vs ++ ws, runsTo_append.mpr ⟨vs, t, ws, hvs, hws, rfl⟩, ?_⟩
    rw [materials_append hvs.length_eq.symm, ← List.append_assoc, List.append_assoc ms]
    exact (((Wraps.refl ms).append hwraps).append (.refl _)).trans hwraps'
  · obtain ⟨hts, hus⟩ := List.forall_mem_append.mp hts
    exact (hx.lowers trivial hts).bindOf hR fun a a' ha hlower => (hf a a' ha).lowers ⟨hH, hlower⟩ hus

theorem bindWith {ks : List Material} (hx : Collects D True ks x y ts mid)
    (hf : ∀ a a', Collects D (H ∧ lower D.lowering a' = a) (ms ++ mid a) (f a) (f' a') us out) :
    Collects D H (ms ++ ks) (x >>= f) (y >>= f') (ts ++ us) out :=
  hx.bindOfWith (.any x) fun a a' _ => hf a a'

theorem bindOf {R : α → Prop} (hx : Collects D True [] x y ts mid) (hR : Yields x R)
    (hf : ∀ a a', R a → Collects D (H ∧ lower D.lowering a' = a) (ms ++ mid a) (f a) (f' a') us out) :
    Collects D H ms (x >>= f) (y >>= f') (ts ++ us) out := by
  rw [← List.append_nil ms]
  exact hx.bindOfWith hR hf

theorem bind (hx : Collects D True [] x y ts mid)
    (hf : ∀ a a', Collects D (H ∧ lower D.lowering a' = a) (ms ++ mid a) (f a) (f' a') us out) :
    Collects D H ms (x >>= f) (y >>= f') (ts ++ us) out :=
  hx.bindOf (.any x) fun a a' _ => hf a a'

theorem bindNamesOf {R : α → Prop} (hx : Collects D True [] x y ts mid) (hR : Yields x R)
    (hid : ∀ a : α, lower D.lowering a = a) (hf : ∀ a, R a → Collects D H (ms ++ mid a) (f a) (f' a) us out) :
    Collects D H ms (x >>= f) (y >>= f') (ts ++ us) out := by
  refine hx.bindOf hR fun a _ ha => ⟨(hf a ha).does, (hf a ha).wraps, fun ⟨hH, heq⟩ hus => ?_⟩
  rw [hid] at heq
  rw [heq]
  exact (hf a ha).lowers hH hus

theorem bindNames (hx : Collects D True [] x y ts mid) (hid : ∀ a : α, lower D.lowering a = a)
    (hf : ∀ a, Collects D H (ms ++ mid a) (f a) (f' a) us out) :
    Collects D H ms (x >>= f) (y >>= f') (ts ++ us) out :=
  hx.bindNamesOf (.any x) hid fun a _ => hf a

theorem map {g g' : α → β} (hx : Collects D H ms x y ts fun a => out (g a))
    (hg : ∀ a, lower D.lowering (g' a) = g (lower D.lowering a)) : Collects D H ms (g <$> x) (g' <$> y) ts out := by
  refine ⟨hx.does.map g, fun s b s' hb => ?_, fun hH hts => (hx.lowers hH hts).map hg⟩
  obtain ⟨a, ha, rfl⟩ := map_eq_ok_iff.mp hb
  exact hx.wraps s a s' ha

theorem checkOf {x : Run γ} {f f' : γ → Run β} (hx : Does templates cfg x [])
    (hR : Yields x R) (hf : ∀ a, R a → Collects D H ms (f a) (f' a) us out) :
    Collects D H ms (x >>= f) (x >>= f') us out := by
  refine ⟨hx.bindOf hR fun a ha => (hf a ha).does, fun s b s' hb => ?_, fun hH hus => .checkOf hx hR fun a ha =>
    (hf a ha).lowers hH hus⟩
  obtain ⟨a, _, ha, hfa⟩ := bind_eq_ok_iff.mp hb
  obtain rfl := hx.session_eq ha
  exact (hf a (hR _ a _ ha)).wraps _ b s' hfa

theorem check {x : Run γ} {f f' : γ → Run β} (hx : Does templates cfg x [])
    (hf : ∀ a, Collects D H ms (f a) (f' a) us out) : Collects D H ms (x >>= f) (x >>= f') us out :=
  checkOf hx (.any x) fun a _ => hf a

theorem checkIn {x y : Run γ} {f f' : γ → Run β} (hxy : Repeats x y) (hx : Does templates cfg x []) (hR : Yields x R)
    (hf : ∀ a, R a → Collects D H ms (f a) (f' a) us out) : Collects D H ms (x >>= f) (y >>= f') us out := by
  obtain ⟨e, rfl⟩ | rfl := hxy
  · exact throwBind e _ us
  · exact checkOf hx hR hf

theorem guard (hon : on = true → on' = true) {node : Ref}
    {f f' : Unit → Run β} (hf : on = true → Collects D H ms (f ()) (f' ()) us out) :
    Collects D H ms (guardFeature on node what >>= f) (guardFeature on' node what >>= f') us out := by
  cases on with
  | false => exact throw _ _ us
  | true =>
    rw [hon rfl]
    exact hf rfl

theorem andPureWith {ks : List Material} (hx : Collects D True ks x y ts mid) {g g' : α → β}
    (h : ∀ a a', Makes D (H ∧ lower D.lowering a' = a) (ms ++ mid a) (g a) (g' a') (out (g a))) :
    Collects D H (ms ++ ks) (x >>= fun a => Pure.pure (g a)) (y >>= fun a => Pure.pure (g' a)) ts out := by
  rw [← List.append_nil ts]
  exact hx.bindWith fun a a' => .pure (h a a')

theorem andPure (hx : Collects D True [] x y ts mid) {g g' : α → β}
    (h : ∀ a a', Makes D (H ∧ lower D.lowering a' = a) (ms ++ mid a) (g a) (g' a') (out (g a))) :
    Collects D H ms (x >>= fun a => Pure.pure (g a)) (y >>= fun a => Pure.pure (g' a)) ts out := by
  rw [← List.append_nil ms]
  exact hx.andPureWith h

theorem wrapped (hx : Collects D H ms x y ts mid) {g g' : α → β}
    (h : ∀ a a', Makes D (lower D.lowering a' = a) (mid a) (g a) (g' a') (out (g a))) :
    Collects D H ms (x >>= fun a => Pure.pure (g a)) (y >>= fun a => Pure.pure (g' a)) ts out := by
  rw [bind_pure_comp, bind_pure_comp]
  exact (hx.imp fun a => (h a a).wraps).map fun a => (h _ a).lowers rfl

theorem task {u : Task} (hx : Does templates cfg x [u]) (g : α → Value)
    (hrun : u.run templates cfg = g <$> x) (hlowers : u.Lowers D → Lowers D.lowering x y) :
    Collects D True [] x y [u] fun a => u.material cfg (g a) := by
  refine ⟨hx, fun s a s' ha => ⟨[g a], runsTo_cons.mpr ⟨g a, s', [], ?_, by simp, rfl⟩, ?_⟩,
    fun _ hu => hlowers (hu u (by simp))⟩
  · rw [hrun]
    exact map_eq_ok_iff.mpr ⟨a, ha, rfl⟩
  · simpa using Wraps.refl _

theorem lowers_of_tree {x y : Run Js} (h : Lowers D.lowering (Value.tree <$> x) (Value.tree <$> y)) :
    Lowers D.lowering x y := by
  intro s t hst j s' hj
  obtain ⟨_, t', hrun, hlower, hst'⟩ := h s t hst (.tree j) s' (map_eq_ok_iff.mpr ⟨j, hj, rfl⟩)
  obtain ⟨j', hj', rfl⟩ := map_eq_ok_iff.mp hrun
  exact ⟨j', t', hj', Value.tree.inj hlower, hst'⟩

theorem expr (site : Site) (e : Expr) :
    CollectsIn D [] (fun cfg => compileExpr cfg (site.place cfg) e) [.expr site e] fun j => [.tree j] :=
  task (.expr site e) .tree rfl fun h => lowers_of_tree (h (by simp))

theorem stmt (site : Site) (s : Stmt) :
    CollectsIn D [] (fun cfg => compileStmt templates cfg (site.place cfg) s) [.stmt site s] fun j => [.stmt j] :=
  task (.stmt site s) .tree rfl fun h => lowers_of_tree (h (by simp))

theorem decorators (site : Site) (h : ClassHeader) :
    CollectsIn D [] (fun cfg => compileClassDecorators cfg (site.place cfg) h) [.decorators site h]
      fun j => [.stmt j] :=
  task (.decorators site h) .tree rfl fun h => lowers_of_tree (h (by simp))

theorem newName : CollectsIn D [] (fun _ => newName) [.act .draw] fun name => [.drawn name] :=
  task .newName .text rfl fun _ => lowers_newName

theorem openScope (taken : List String) (body : List Stmt) :
    CollectsIn D [] (fun _ => openScope taken body) [.act (.scope taken body)] fun names => names.map .noted :=
  task (.openScope taken body) .names rfl fun _ => lowers_openScope taken body

theorem useSnippet {f g : Snippet} (h : SnippetLowers D.lowering f g) :
    Collects D True [] (useSnippet f) (useSnippet g) [.act (.use f)] fun _ => f.material cfg :=
  task (.useSnippet f) (fun _ => .done) rfl fun _ => lowers_useSnippet h

theorem addGlobals (names : List String) :
    CollectsIn D [] (fun _ => addGlobals names) [.act (.imports names)] fun _ => [] :=
  task (.addGlobals names) (fun _ => .done) rfl fun _ => lowers_addGlobals names

theorem warn (node : Ref) (text : String) :
    CollectsIn D [] (fun _ => warn node text) [.act (.remark node text)] fun _ => [] :=
  task (.warn node text) (fun _ => .done) rfl fun _ => lowers_warn node text

theorem setCaught (name : String) :
    CollectsIn D [] (fun _ => setEntry Context.exceptionKey (.name name)) [.act (.catching name)] fun _ => [] :=
  task (.setCaught name) (fun _ => .done) rfl fun _ => lowers_setEntry _ _

theorem mapM {x y : ι → Run α} {ts : ι → List Task} {m : α → List Material}
    (h : ∀ i ∈ is, Collects D True [] (x i) (y i) (ts i) m) :
    Collects D True [] (is.mapM x) (is.mapM y) (is.flatMap ts) fun as => as.flatMap m := by
  induction is with
  | nil => exact pure (Wraps.makes (.refl []) fun _ => rfl)
  | cons i _ ih =>
    rw [List.mapM_cons, List.mapM_cons, List.flatMap_cons]
    refine (h i (by simp)).bind fun a _ => (ih fun j hj => h j (by simp [hj])).andPure fun _ _ => ?_
    exact Wraps.makes (.refl _) fun ⟨⟨_, ha⟩, has⟩ => congrArg₂ List.cons ha has

theorem forM {x y : ι → Run Unit} {ts : ι → List Task}
    (h : ∀ i ∈ is, Collects D True [] (x i) (y i) (ts i) fun _ => []) :
    Collects D True [] (is.forM x) (is.forM y) (is.flatMap ts) fun _ => [] := by
  induction is with
  | nil => exact pure (Wraps.makes (.refl []) fun _ => rfl)
  | cons i rest ih =>
    show Collects D True [] (x i >>= fun _ => rest.forM x) (y i >>= fun _ => rest.forM y) (ts i ++ rest.flatMap ts) _
    exact (h i (by simp)).bind fun _ _ => (ih fun j hj => h j (by simp [hj])).under

theorem getCaught {bound bound' : String → Run α} {absent absent' : Run α}
    (hbound : ∀ name, Collects D True [.noted name] (bound name) (bound' name) us mid)
    (habsent : Collects D True [] absent absent' us mid) :
    Collects D True [] (get >>= fun s => match s.context.exception? with
      | some name => bound name
      | none => absent) (get >>= fun s => match s.context.exception? with
      | some name => bound' name
      | none => absent') (.act .caught :: us) mid := by
  have hget : Collects D True [] ((fun s => s.context.exception?) <$> (get : Run Session))
      ((fun s => s.context.exception?) <$> (get : Run Session)) [.act .caught] fun c => c.toList.map .noted := by
    refine task .caught .caught (by rw [Functor.map_map]; rfl) fun _ => ?_
    rintro _ _ ⟨gs, rfl, hgs⟩ _ _ ⟨⟩
    exact ⟨_, _, rfl, rfl, gs, rfl, hgs⟩
  have hread (c c' : Option String) : Collects D (True ∧ lower D.lowering c' = c) (c.toList.map .noted)
      (c.elim absent bound) (c'.elim absent' bound') us mid := by
    have hsame : Collects D True (c.toList.map .noted) (c.elim absent bound) (c.elim absent' bound') us mid := by
      cases c with
      | none => exact habsent
      | some name => exact hbound name
    refine ⟨hsame.does, hsame.wraps, ?_⟩
    rintro ⟨_, rfl⟩
    exact hsame.lowers trivial
  have hboth : Collects D True [] _ _ (.act .caught :: us) mid := hget.bind hread
  rw [bind_map_left, bind_map_left] at hboth
  convert hboth using 2
  all_goals
    funext s
    cases s.context.exception? <;> rfl

end Collects

end Transpiler.Compile
