import Transpiler.Compile.Module
import Transpiler.Proofs.Outcome
import Transpiler.Proofs.Source.Within

/-!
# How a `try` statement begins

Before its parts are compiled, a `try` statement is looked at as a whole. One remark is noted for every clause
whose type is doubtful (`forM_warn_eq`). A clause that raises while the last block returns (`Masked`) ends the
compilation with an error, and every other statement without an `else` block goes on to its parts
(`compileStmt_tryBlock_eq`).
-/

namespace Transpiler.Compile

open Script (Js)
open Source (Expr Handler Ref Stmt Within)

def isDoubtful (h : Handler) : Bool :=
  h.type.kind ∉ ["NoneType", "Name", "Attribute", "Tuple", "List"]

def doubt : String :=
  "Exception type expression might not evaluate to a valid type or sequence of types."

def Masked (handlers : List Handler) (finalbody : List Stmt) : Prop :=
  (∃ h ∈ handlers, ∃ s, Within s h.body ∧ s.kind = "Raise") ∧ ∃ s, Within s finalbody ∧ s.kind = "Return"

variable {handlers : List Handler} {finalbody : List Stmt}

theorem isStmtKind_raise : Source.IsStmtKind "Raise" :=
  ⟨fun e => by cases e <;> simp [Expr.kind], by decide⟩

theorem isStmtKind_return : Source.IsStmtKind "Return" :=
  ⟨fun e => by cases e <;> simp [Expr.kind], by decide⟩

theorem masked_iff : Masked handlers finalbody ↔ (Source.Tree.scopeHas (· == "Raise") (Source.handlerTrees handlers) &&
    Source.Tree.scopeHas (· == "Return") (Source.stmtTrees finalbody)) = true := by
  rw [Bool.and_eq_true, Source.scopeHas_handlers_iff isStmtKind_raise, Source.scopeHas_iff_within isStmtKind_return]
  rfl

instance : Decidable (Masked handlers finalbody) :=
  decidable_of_iff _ masked_iff.symm

namespace Session

variable (s : Session)

def noting (node : Ref) (text : String) (n : Nat) : Session :=
  { s with warnings := s.warnings ++ List.replicate n ⟨node, text⟩ }

def catching (handlers : List Handler) : Session :=
  if handlers.isEmpty then s
  else { s with context := s.context.set Context.exceptionKey (.name (caughtName handlers)) }

theorem noting_zero (node : Ref) (text : String) : s.noting node text 0 = s := by
  simp [noting]

theorem noting_noting (node : Ref) (text : String) (m n : Nat) :
    (s.noting node text m).noting node text n = s.noting node text (m + n) := by
  simp [noting]

end Session

theorem mayBeType_eq (h : Handler) : mayBeType h.type = !isDoubtful h := by
  unfold isDoubtful
  cases h.type <;> rfl

theorem forM_warn_eq (node : Ref) (handlers : List Handler) (s : Session) :
    (handlers.forM fun h => if mayBeType h.type then pure () else warn node doubt) s =
      .ok () (s.noting node doubt (handlers.countP isDoubtful)) := by
  induction handlers generalizing s with
  | nil => exact congrArg (EStateM.Result.ok ()) (s.noting_zero node doubt).symm
  | cons h rest ih =>
    show ((if mayBeType h.type then pure () else warn node doubt) >>= fun _ =>
      rest.forM fun h => if mayBeType h.type then pure () else warn node doubt : Run Unit) s = _
    rw [mayBeType_eq]
    cases hdoubt : isDoubtful h with
    | false =>
      rw [List.countP_cons_of_neg (by simp [hdoubt])]
      exact ih s
    | true =>
      rw [List.countP_cons_of_pos hdoubt, Nat.add_comm, ← s.noting_noting]
      exact ih (s.noting node doubt 1)

theorem beginTry_eq (node : Ref) (handlers : List Handler) (orelse finalbody : List Stmt) (s : Session) :
    beginTry node handlers orelse finalbody s =
      if orelse ≠ [] then .error (.unsupported (some node) .tryElse) s
      else if Masked handlers finalbody then
        .error (.undefinedName "node") (s.noting node doubt (handlers.countP isDoubtful))
      else .ok (caughtName handlers) ((s.noting node doubt (handlers.countP isDoubtful)).catching handlers) := by
  unfold beginTry
  by_cases horelse : orelse = []
  · have hrefuse : refuseIf (!orelse.isEmpty) node .tryElse s = .ok () s := by
      rw [horelse]
      rfl
    rw [if_neg (not_not_intro horelse)]
    refine (bind_of_ok hrefuse).trans ((bind_of_ok (forM_warn_eq node handlers s)).trans ?_)
    by_cases hmasked : Masked handlers finalbody
    · rw [if_pos hmasked, if_pos (masked_iff.mp hmasked)]
      rfl
    · rw [if_neg hmasked, if_neg (mt masked_iff.mpr hmasked)]
      cases handlers <;> rfl
  · have hrefuse : refuseIf (!orelse.isEmpty) node .tryElse s = .error (.unsupported (some node) .tryElse) s := by
      cases orelse with
      | nil => exact (horelse rfl).elim
      | cons => rfl
    rw [if_pos horelse]
    exact bind_of_error hrefuse

def compileTryParts (templates : Templates) (cfg : Config) (here : Place) (node : Ref) (body : List Stmt)
    (handlers : List Handler) (finalbody : List Stmt) : Run Js := do
  let body ← compileBlock templates cfg here.inner body
  let catching ← compileHandlers templates cfg here.inner (caughtName handlers) handlers
  let finishing ← compileBlock templates cfg here.inner finalbody
  return .tryStmt (cfg.origin (some node)) body (if handlers.isEmpty then .absent else .text (caughtName handlers))
    (if handlers.isEmpty then [] else catching) finishing

/-- A `try` statement is refused if it has an `else` block. Without one it notes a remark for every clause whose
type is doubtful. It then fails if what a clause raises may be masked, since the rule that remarks on this reads a
name without a value, and is made of its parts in all other cases. -/
theorem compileStmt_tryBlock_eq (templates : Templates) (cfg : Config) (here : Place) (p : Source.At)
    (body : List Stmt) (handlers : List Handler) (orelse finalbody : List Stmt) :
    compileStmt templates cfg here (.tryBlock p false body handlers orelse finalbody) = inFrame fun s =>
        let node := (Stmt.tryBlock p false body handlers orelse finalbody).ref
        let noted := s.noting node doubt (handlers.countP isDoubtful)
        if orelse ≠ [] then .error (.unsupported (some node) .tryElse) s
        else if Masked handlers finalbody then .error (.undefinedName "node") noted
        else compileTryParts templates cfg here node body handlers finalbody (noted.catching handlers) := by
  rw [compileStmt]
  congr 1
  funext s
  have hbegin := beginTry_eq (Stmt.tryBlock p false body handlers orelse finalbody).ref handlers orelse finalbody s
  dsimp only
  by_cases horelse : orelse ≠ []
  · rw [if_pos horelse] at hbegin ⊢
    exact bind_of_error hbegin
  · rw [if_neg horelse] at hbegin ⊢
    by_cases hmasked : Masked handlers finalbody
    · rw [if_pos hmasked] at hbegin ⊢
      exact bind_of_error hbegin
    · rw [if_neg hmasked] at hbegin ⊢
      refine (bind_of_ok hbegin).trans ?_
      cases handlers <;> rfl

def maskedTry : Stmt :=
  .tryBlock none false [.expr none (.call none (.name none "a") [] [])]
    [.mk none (.name none "A") none [.raise none .absent .absent]] [] [.ret none (.constant none (.number "1"))]

/-- The statement has no `else` block, and there is no node for it and no remark. -/
theorem compileStmt_maskedTry : ∃ s',
    compileStmt compileTemplate (.standard false false) .top maskedTry .start = .error (.undefinedName "node") s' ∧
      (Fault.undefinedName "node").kind = "NameError" ∧ s'.warnings = [] :=
  ⟨_, rfl, rfl, rfl⟩

end Transpiler.Compile
