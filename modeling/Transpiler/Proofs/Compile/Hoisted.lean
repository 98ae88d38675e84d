import Transpiler.Proofs.Compile.Kept
import Transpiler.Proofs.Compile.Prologue

/-!
# Declarations that move in front

The statements of a block change places when it is written (`Script.arranged_hoisted`). In the blocks of a
script this changes nothing for the declarations that give values: they pass imports and comments only
(`arranged_hoisted_and_keepsOrder`). Of all that is compiled to such a declaration, one kind moves: the one
that names the exception in a clause that takes every exception, and it is the first of its block.
-/

namespace Transpiler.Compile

open Script (AllSettled Arranged Js Origin flattenOnce hoisted writtenOrder)
open Source (Expr Handler Stmt)

/-- No declaration with values is written before a statement that it came after, imports and comments
apart. -/
def KeepsOrder (items : List Js) : Prop :=
  ∀ i j x y, i < j → (flattenOnce items)[i]? = some x → (flattenOnce items)[j]? = some y →
    y.initialises = true → x.slot ≠ .importing → x.slot ≠ .comment → [i, j].Sublist (writtenOrder items)

theorem keepsOrder_of_allSettled {ts : List Js} (h : AllSettled ts) {o : Origin} {items : List Js}
    (hitems : .statements o items ∈ ts) : KeepsOrder items := by
  intro _ _ _ _ hij hx hy
  exact Script.ValuesFirst.sublist (h _ hitems) hij hx hy

theorem settled_compileScript {r : Request} {body : List Stmt} {script : Js}
    (h : compileScript r body = .ok script) : AllSettled script.nodes := by
  obtain ⟨⟨_, _⟩, hselect, _, hcompiled, hscript⟩ := by
    simpa only [compileScript, bind_eq_ok] using h
  obtain ⟨_, rfl, -⟩ := exists_site_of_selectBody hselect
  obtain ⟨_, _, hitems, hstill⟩ := settled_compileBody templatesFit_compileTemplate
    (compileBody_of_compileModule hcompiled)
  rcases withLibrary_eq_ok_iff.mp hscript with ⟨-, rfl⟩ | ⟨-, _, hlibrary, rfl⟩
  · simp +contextual [hitems, hstill]
  · obtain ⟨_, hbody⟩ := result_eq_ok.mp hlibrary
    rw [← Site.place_top] at hbody
    obtain ⟨_, _, rfl, hfront⟩ := settled_compileBody templatesFit_compileTemplate hbody
    simp +contextual [before, hitems, or_imp, hfront, hstill]

theorem settled_compileExpr {cfg : Config} {site : Site} {e : Expr} {s s' : Session} {j : Js}
    (h : compileExpr cfg (site.place cfg) e s = .ok j s') : AllSettled j.nodes := by
  have hrun : (Task.expr site e).run compileTemplate cfg s = .ok (.tree j) s' :=
    map_eq_ok_iff.mpr ⟨j, h, rfl⟩
  have hsettled := Task.settled_run templatesFit_compileTemplate hrun
  simp only [Task.material, allMaterial_cons, Material.Settled] at hsettled
  exact hsettled.1.2

/-- A block is written in the order of its slots, and this moves no declaration with values before a statement
that is no import or comment, in a script or in a tree that a formatted string writes into its text. -/
theorem arranged_hoisted_and_keepsOrder :
    (∀ (o : Origin) (items : List Js), Arranged (flattenOnce items) (hoisted items) ∧
      hoisted items = (writtenOrder items).filterMap ((flattenOnce items)[·]?) ∧
      (writtenOrder items).Perm (List.range (flattenOnce items).length) ∧
      (Js.statements o items).items = (hoisted items).flatMap fun j => j.items.map (o.toLine 0 true)) ∧
    (∀ r body script, compileScript r body = .ok script →
      ∀ o items, .statements o items ∈ script.nodes → KeepsOrder items) ∧
    ∀ cfg (site : Site) e s j s', compileExpr cfg (site.place cfg) e s = .ok j s' →
      ∀ o items, .statements o items ∈ j.nodes → KeepsOrder items := by
  refine ⟨fun o items => ⟨Script.arranged_hoisted items, Script.hoisted_eq_writtenOrder items,
    Script.writtenOrder_perm items, items_statements o items⟩, ?_, ?_⟩
  · intro r body script h o items hitems
    exact keepsOrder_of_allSettled (settled_compileScript h) hitems
  · intro cfg site e s j s' h o items hitems
    exact keepsOrder_of_allSettled (settled_compileExpr h) hitems

/-- Clauses of which the second takes every exception, under a name that is not that of the last. -/
def renamingHandlers : List Handler :=
  [.mk none (.name none "A") none [callStmt "b"],
    .mk none (.name none "Exception") (some "d") [.importNames none [⟨none, "m", none⟩], callStmt "c"],
    .mk none (.name none "B") (some "e") [.pass none]]

def renamingTry : Stmt :=
  .tryBlock none false [callStmt "a"] renamingHandlers [] []

def hasMovingValue : Js → Bool
  | .statements _ items => (flattenOnce items).any Js.movesValue
  | _ => false

theorem keepsOrder_renamingTry : ∃ script o items,
    compileScript (.standard true false) [renamingTry] = .ok script ∧ .statements o items ∈ script.nodes ∧
      hasMovingValue (.statements o items) = true ∧ KeepsOrder items := by
  obtain ⟨script, h, hany⟩ : ∃ script, compileScript (.standard true false) [renamingTry] = .ok script ∧
      script.nodes.any hasMovingValue = true := ⟨_, rfl, by decide +kernel⟩
  obtain ⟨j, hj, hmoving⟩ := List.any_eq_true.mp hany
  unfold hasMovingValue at hmoving
  split at hmoving
  next o items =>
    have hkeeps := arranged_hoisted_and_keepsOrder.2.1 _ _ _ h o items hj
    exact ⟨script, o, items, h, hj, hmoving, hkeeps⟩
  next => cases hmoving

end Transpiler.Compile
