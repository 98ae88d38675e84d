import Transpiler.Source.Tree

/-!
# Names of a scope

Which names a statement or a body of statements brings into its scope. The names are listed without
repetition in the order of code points.
-/

namespace Transpiler.Source

def insertName (n : String) : List String → List String
  | [] => [n]
  | m :: rest =>
    if n < m then n :: m :: rest else if n = m then m :: rest else m :: insertName n rest

def sortNames (names : List String) : List String :=
  names.foldr insertName []

/-- The names that one statement brings into the scope around it: those it assigns, or the one it
defines. -/
def Stmt.names : Stmt → List String
  | .assign _ targets _ => sortNames (targets.flatMap targetNames)
  | .annAssign _ target _ _ => sortNames (targetNames target)
  | .functionDef _ false name .. => [name]
  | .classDef _ name .. => [name]
  | _ => []

/-- The names that the statements of a body bring into its scope, one level deep. -/
def topNames (body : List Stmt) : List String :=
  sortNames (body.flatMap Stmt.names)

/-- The names that are assigned anywhere in a body, nested functions and classes apart. -/
def localNames (body : List Stmt) : List String :=
  sortNames <| (stmtTrees body).flatMap fun t => (Tree.walkScope [t]).flatMap (·.info.assigned)

def Stmt.targets? : Stmt → Option (List Expr)
  | .assign _ targets _ => some targets
  | .annAssign _ target _ _ => some [target]
  | _ => none

end Transpiler.Source
