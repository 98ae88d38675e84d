import Transpiler.Proofs.Script.Brackets
import Transpiler.Proofs.Source.Every
import Transpiler.Proofs.Source.Within

/-!
# Sources whose words hold no brackets

The names and the numbers of a source are words: they hold no bracket, and a definition has a name
(`unbracketedBlock`). Texts may hold any characters.
-/

namespace Transpiler.Source

open Script (bracketFree)

variable {body : List Stmt} {e : Expr} {s : Stmt}

def Expr.hasWords : Expr → Bool
  | .name _ id => bracketFree id
  | .constant _ (.number digits) => bracketFree digits
  | .attr _ _ field => bracketFree field
  | .lambda _ params _ _ _ => params.args.all fun a => bracketFree a.name
  | _ => true

def Expr.unbracketed (e : Expr) : Bool :=
  e.every Expr.hasWords

def Params.unbracketed (ps : Params) : Bool :=
  (ps.args ++ ps.kwOnly ++ ps.vararg.toList ++ ps.kwarg.toList).all (fun a => bracketFree a.name) &&
    (ps.defaults ++ ps.kwDefaults).all Expr.unbracketed

def isWord (name : String) : Bool :=
  name != "" && bracketFree name

def Alias.unbracketed (a : Alias) : Bool :=
  bracketFree a.name && a.asName.toList.all bracketFree

mutual
/-- Whether the words of a statement hold no bracket. An expression in the place of a statement is
none. -/
def Stmt.unbracketed : Stmt → Bool
  | .functionDef _ _ name params body decorators _ =>
    isWord name && params.unbracketed && unbracketedBlock body && decorators.all Expr.unbracketed
  | .classDef _ name bases _ body decorators =>
    isWord name && bases.all Expr.unbracketed && unbracketedBlock body && decorators.all Expr.unbracketed
  | .ret _ value | .expr _ value => value.unbracketed
  | .delete _ targets => targets.all Expr.unbracketed
  | .assign _ targets value => targets.all Expr.unbracketed && value.unbracketed
  | .augAssign _ target _ value | .annAssign _ target _ value =>
    target.unbracketed && value.unbracketed
  | .forLoop _ _ target iter body orelse =>
    target.unbracketed && iter.unbracketed && unbracketedBlock body && unbracketedBlock orelse
  | .whileLoop _ test body orelse | .ifElse _ test body orelse =>
    test.unbracketed && unbracketedBlock body && unbracketedBlock orelse
  | .withBlock _ _ items body =>
    items.all (fun i => i.context.unbracketed && i.target.unbracketed) && unbracketedBlock body
  | .raise _ exc cause => exc.unbracketed && cause.unbracketed
  | .tryBlock _ _ body handlers orelse finalbody =>
    unbracketedBlock body && unbracketedHandlers handlers && unbracketedBlock orelse && unbracketedBlock finalbody
  | .assertion _ test msg => test.unbracketed && msg.unbracketed
  | .matchBlock _ subject cases => subject.unbracketed && unbracketedCases cases
  | .importNames _ names | .importFrom _ _ names _ => names.all Alias.unbracketed
  | .global .. | .nonlocal .. | .pass _ | .breakLoop _ | .continueLoop _ => true
  | .bare _ => false

def unbracketedBlock : List Stmt → Bool
  | [] => true
  | s :: rest => s.unbracketed && unbracketedBlock rest

def unbracketedHandlers : List Handler → Bool
  | [] => true
  | .mk _ type name body :: rest =>
    type.unbracketed && name.toList.all bracketFree && unbracketedBlock body && unbracketedHandlers rest

def unbracketedCases : List MatchCase → Bool
  | [] => true
  | .mk _ value guard body :: rest =>
    value.unbracketed && guard.unbracketed && unbracketedBlock body && unbracketedCases rest
end

attribute [local simp] Stmt.unbracketed unbracketedBlock in
theorem unbracketedBlock_iff : unbracketedBlock body = true ↔ ∀ s ∈ body, s.unbracketed = true := by
  induction body with
  | nil => simp
  | cons _ _ ih => simp [ih]

theorem unbracketedHandlers_iff {handlers : List Handler} : unbracketedHandlers handlers = true ↔
    ∀ h ∈ handlers, h.type.unbracketed = true ∧ (∀ name ∈ h.name, bracketFree name = true) ∧
      unbracketedBlock h.body = true := by
  induction handlers with
  | nil => simp [unbracketedHandlers]
  | cons h _ ih =>
    obtain ⟨_, _, _, _⟩ := h
    simp [unbracketedHandlers, ih, Handler.type, Handler.name, Handler.body, and_assoc]

/-! ### The words of parts -/

theorem Expr.hasWords_of_unbracketed (h : e.unbracketed = true) : e.hasWords = true :=
  (Expr.every_iff.mp h).1

theorem Expr.unbracketed_part {part : Expr} (hpart : part ∈ e.evaluated ++ e.deferred)
    (h : e.unbracketed = true) : part.unbracketed = true :=
  (Expr.every_iff.mp h).2 part hpart

theorem Stmt.unbracketed_operand (he : e ∈ s.operands) (h : s.unbracketed = true) : e.unbracketed = true := by
  cases s <;>
  simp only [Stmt.unbracketed, Params.unbracketed, Bool.and_eq_true, List.all_eq_true] at h <;>
  grind [Stmt.operands, unbracketedHandlers_iff]

theorem Stmt.unbracketed_body (hbody : body ∈ s.bodies) (h : s.unbracketed = true) : unbracketedBlock body = true := by
  cases s <;>
  simp only [Stmt.unbracketed, Bool.and_eq_true] at h <;>
  grind [Stmt.bodies, unbracketedHandlers_iff]

/-! ### The variables of a scope -/

theorem unbracketedCases_body {cases : List MatchCase} (h : unbracketedCases cases = true) :
    ∀ c ∈ cases, unbracketedBlock c.body = true := by
  induction cases with
  | nil => simp
  | cons c _ ih =>
    obtain ⟨_, _, _, _⟩ := c
    simp only [unbracketedCases, Bool.and_eq_true] at h
    exact List.forall_mem_cons.mpr ⟨h.1.2, ih h.2⟩

theorem Stmt.unbracketed_block {block : List Stmt} (hblock : block ∈ s.blocks)
    (h : s.unbracketed = true) : unbracketedBlock block = true := by
  cases s <;>
  simp only [Stmt.unbracketed, Bool.and_eq_true] at h <;>
  grind [Stmt.blocks, unbracketedHandlers_iff, unbracketedCases_body]

theorem Within.unbracketed (hs : Within s body) (h : unbracketedBlock body = true) : s.unbracketed = true := by
  induction hs with
  | among hs => exact unbracketedBlock_iff.mp h _ hs
  | inside houter hblock _ ih =>
    exact ih (Stmt.unbracketed_block hblock (unbracketedBlock_iff.mp h _ houter))

theorem Stmt.unbracketed_targets {t : Expr} (ht : t ∈ s.targets) (h : s.unbracketed = true) : t.unbracketed = true := by
  cases s <;> simp_all [Stmt.targets, Stmt.unbracketed]

theorem bracketFree_of_mem_localNames (h : unbracketedBlock body = true)
    {x : String} (hx : x ∈ localNames body) : bracketFree x = true := by
  obtain ⟨-, t, ht, hbinds⟩ := mem_localNames_iff_bindsDirectly.mp hx
  obtain ⟨_, hs, ht⟩ := (mem_scopeTargets body).mp ht
  have hfree := Stmt.unbracketed_targets ht (hs.unbracketed h)
  cases t with
  | name _ id =>
    obtain rfl : id = x := hbinds
    simpa [Expr.unbracketed, Expr.every, Expr.hasWords] using hfree
  | tuple =>
    obtain ⟨_, hq⟩ := hbinds
    simp only [Expr.unbracketed, Expr.every, Bool.and_eq_true, everyExpr_iff] at hfree
    simpa [Expr.every, Expr.hasWords] using hfree.2 _ hq
  | _ => exact hbinds.elim

end Transpiler.Source
