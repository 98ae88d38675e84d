import Transpiler.Source.Stmt

/-!
# References to source nodes

What a piece of output remembers of the source node it was made from: how an error cites the node,
and the place in the source text that the output maps to.
-/

namespace Transpiler.Source

structure Ref where
  kind : String
  pos : At
  /-- Whether errors give the place of the node: they do for expressions and statements. -/
  cited : Bool
  /-- The source line that output made from the node maps to. -/
  line : Option Int
  deriving Inhabited, Repr, DecidableEq

namespace Ref

def col (r : Ref) : Int :=
  match r.pos with
  | some p => max p.col 0
  | none => 0

/-- A reference to a node of some kind that errors cite without its place. -/
def uncited (kind : String) (pos : At) : Ref :=
  ⟨kind, pos, false, pos.map (·.line)⟩

def citation : Option Ref → String
  | some ⟨kind, some p, true, _⟩ =>
    "Node type '" ++ kind ++ "': Line: " ++ toString p.line ++ ", column: " ++ toString p.col
  | r =>
    "Node type '" ++ (r.map (·.kind)).getD "NoneType" ++ "': Line: n. a., column: n. a."

end Ref

def Expr.ref (e : Expr) : Ref :=
  ⟨e.kind, e.pos, true, e.pos.map (·.line)⟩

/-- A reference to a statement. A definition with decorators is mapped to the line after its last
decorator. -/
def Stmt.ref (s : Stmt) : Ref :=
  let line := match s.decorators.getLast? with
    | some d => d.pos.map (·.line + 1)
    | none => s.pos.map (·.line)
  ⟨s.kind, s.pos, true, line⟩

def Alias.ref (a : Alias) : Ref :=
  .uncited "alias" a.pos

end Transpiler.Source
