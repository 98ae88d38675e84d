import Transpiler.Source.Stmt

/-!
# The tree under the syntax

A view of syntax trees that forgets what each part is for: a node has a kind, a place, the names
it binds in the scope around it, and its parts in order. The questions that are asked of every
kind of node alike are asked of this view: which nodes lie below one (`Tree.walk`,
`Tree.walkScope`) and which lie above it (`Tree.ancestry`). Operators are no nodes of the view.

A walk keeps a stack. It takes the node on top and may then put the parts of it on the stack, the
last one on top, so the nodes come in the order of a traversal from right to left.
-/

namespace Transpiler.Source

structure Info where
  kind : String
  pos : At
  /-- The names that an assignment binds in the scope it stands in. -/
  assigned : List String
  deriving Inhabited, Repr, DecidableEq

inductive Tree where
  | node (info : Info) (parts : List Tree)
  deriving Inhabited

namespace Tree

def info : Tree → Info
  | node i _ => i

def parts : Tree → List Tree
  | node _ ps => ps

def kind (t : Tree) : String :=
  t.info.kind

def plain (kind : String) (pos : At) (parts : List Tree) : Tree :=
  node ⟨kind, pos, []⟩ parts

end Tree

/-! ### Names bound by an assignment -/

def isDirective (name : String) : Bool :=
  name == "__all__" || name == "__default__"

/-- The names that one target of an assignment binds: its own, or those of a tuple that directly
holds them. -/
def targetNames : Expr → List String
  | .name _ id => if isDirective id then [] else [id]
  | .tuple _ elts => elts.filterMap fun
    | .name _ id => if isDirective id then none else some id
    | _ => none
  | _ => []

/-! ### From syntax to the view -/

mutual
def Expr.trees : Expr → List Tree
  | .absent => []
  | .name p _ => [.plain "Name" p []]
  | .constant p _ => [.plain "Constant" p []]
  | .attr p v _ => [.plain "Attribute" p v.trees]
  | .subscript p v s => [.plain "Subscript" p (v.trees ++ s.trees)]
  | .call p f args kws => [.plain "Call" p (f.trees ++ exprTrees args ++ keywordTrees kws)]
  | .boolOp p _ vs => [.plain "BoolOp" p (exprTrees vs)]
  | .binOp p l _ r => [.plain "BinOp" p (l.trees ++ r.trees)]
  | .unaryOp p _ e => [.plain "UnaryOp" p e.trees]
  | .compare p l _ cs => [.plain "Compare" p (l.trees ++ exprTrees cs)]
  | .ifExp p t b o => [.plain "IfExp" p (t.trees ++ b.trees ++ o.trees)]
  | .lambda p bs kwDefaults defaults body =>
    let arg (b : Binder) : Tree := .plain "arg" b.pos []
    let args := bs.posOnly.map arg ++ bs.args.map arg ++ (bs.vararg.map arg).toList ++
      bs.kwOnly.map arg ++ exprTrees kwDefaults ++ (bs.kwarg.map arg).toList ++ exprTrees defaults
    [.plain "Lambda" p (.plain "arguments" none args :: body.trees)]
  | .list p es => [.plain "List" p (exprTrees es)]
  | .tuple p es => [.plain "Tuple" p (exprTrees es)]
  | .set p es => [.plain "Set" p (exprTrees es)]
  | .dict p ks vs => [.plain "Dict" p (exprTrees ks ++ exprTrees vs)]
  | .listComp p e gs => [.plain "ListComp" p (e.trees ++ generatorTrees gs)]
  | .setComp p e gs => [.plain "SetComp" p (e.trees ++ generatorTrees gs)]
  | .generatorExp p e gs => [.plain "GeneratorExp" p (e.trees ++ generatorTrees gs)]
  | .dictComp p k v gs => [.plain "DictComp" p (k.trees ++ v.trees ++ generatorTrees gs)]
  | .await p e => [.plain "Await" p e.trees]
  | .yield p e => [.plain "Yield" p e.trees]
  | .yieldFrom p e => [.plain "YieldFrom" p e.trees]
  | .starred p e => [.plain "Starred" p e.trees]
  | .namedExpr p t v => [.plain "NamedExpr" p (t.trees ++ v.trees)]
  | .joinedStr p vs => [.plain "JoinedStr" p (exprTrees vs)]
  | .formattedValue p v _ s => [.plain "FormattedValue" p (v.trees ++ s.trees)]
  | .slice p l u s => [.plain "Slice" p (l.trees ++ u.trees ++ s.trees)]
  | .index v => [.plain "Index" none v.trees]
  | .extSlice ds => [.plain "ExtSlice" none (exprTrees ds)]

def exprTrees : List Expr → List Tree
  | [] => []
  | e :: rest => e.trees ++ exprTrees rest

def keywordTrees : List Keyword → List Tree
  | [] => []
  | .mk p _ v :: rest => .plain "keyword" p v.trees :: keywordTrees rest

def generatorTrees : List Generator → List Tree
  | [] => []
  | .mk t i ifs :: rest =>
    .plain "comprehension" none (t.trees ++ i.trees ++ exprTrees ifs) :: generatorTrees rest
end

def Param.tree (a : Param) : Tree :=
  .plain "arg" a.pos a.annotation.trees

def Params.tree (ps : Params) : Tree :=
  .plain "arguments" none
    (ps.posOnly.map Param.tree ++ ps.args.map Param.tree ++ (ps.vararg.map Param.tree).toList ++
      ps.kwOnly.map Param.tree ++ exprTrees ps.kwDefaults ++ (ps.kwarg.map Param.tree).toList ++
      exprTrees ps.defaults)

def Alias.tree (a : Alias) : Tree :=
  .plain "alias" a.pos []

def WithItem.tree (w : WithItem) : Tree :=
  .plain "withitem" none (w.context.trees ++ w.target.trees)

mutual
/-- The nodes of a statement: one, or none for an absent expression in its place. -/
def Stmt.trees : Stmt → List Tree
  | .functionDef p isAsync _ params body ds returns =>
    [.plain (if isAsync then "AsyncFunctionDef" else "FunctionDef") p
      (params.tree :: (stmtTrees body ++ exprTrees ds ++ returns.trees))]
  | .classDef p _ bases kws body ds =>
    [.plain "ClassDef" p (exprTrees bases ++ keywordTrees kws ++ stmtTrees body ++ exprTrees ds)]
  | .ret p v => [.plain "Return" p v.trees]
  | .delete p ts => [.plain "Delete" p (exprTrees ts)]
  | .assign p ts v => [.node ⟨"Assign", p, ts.flatMap targetNames⟩ (exprTrees ts ++ v.trees)]
  | .augAssign p t _ v => [.plain "AugAssign" p (t.trees ++ v.trees)]
  | .annAssign p t a v =>
    [.node ⟨"AnnAssign", p, targetNames t⟩ (t.trees ++ a.trees ++ v.trees)]
  | .forLoop p isAsync t i body orelse =>
    [.plain (if isAsync then "AsyncFor" else "For") p
      (t.trees ++ i.trees ++ stmtTrees body ++ stmtTrees orelse)]
  | .whileLoop p t body orelse =>
    [.plain "While" p (t.trees ++ stmtTrees body ++ stmtTrees orelse)]
  | .ifElse p t body orelse => [.plain "If" p (t.trees ++ stmtTrees body ++ stmtTrees orelse)]
  | .withBlock p isAsync items body =>
    [.plain (if isAsync then "AsyncWith" else "With") p (items.map WithItem.tree ++ stmtTrees body)]
  | .raise p e c => [.plain "Raise" p (e.trees ++ c.trees)]
  | .tryBlock p star body handlers orelse finalbody =>
    [.plain (if star then "TryStar" else "Try") p
      (stmtTrees body ++ handlerTrees handlers ++ stmtTrees orelse ++ stmtTrees finalbody)]
  | .assertion p t m => [.plain "Assert" p (t.trees ++ m.trees)]
  | .importNames p names => [.plain "Import" p (names.map Alias.tree)]
  | .importFrom p _ names _ => [.plain "ImportFrom" p (names.map Alias.tree)]
  | .global p _ => [.plain "Global" p []]
  | .nonlocal p _ => [.plain "Nonlocal" p []]
  | .expr p v => [.plain "Expr" p v.trees]
  | .pass p => [.plain "Pass" p []]
  | .breakLoop p => [.plain "Break" p []]
  | .continueLoop p => [.plain "Continue" p []]
  | .matchBlock p s cases => [.plain "Match" p (s.trees ++ caseTrees cases)]
  | .bare e => e.trees

def stmtTrees : List Stmt → List Tree
  | [] => []
  | s :: rest => s.trees ++ stmtTrees rest

def handlerTrees : List Handler → List Tree
  | [] => []
  | .mk p t _ body :: rest =>
    .plain "ExceptHandler" p (t.trees ++ stmtTrees body) :: handlerTrees rest

def caseTrees : List MatchCase → List Tree
  | [] => []
  | .mk p v g body :: rest =>
    .plain "match_case" none (.plain "MatchValue" p v.trees :: (g.trees ++ stmtTrees body)) ::
      caseTrees rest
end

def moduleTree (body : List Stmt) : Tree :=
  .plain "Module" none (stmtTrees body)

namespace Tree

/-! ### Downwards -/

mutual
def size : Tree → Nat
  | node _ ps => sizeAll ps + 1

def sizeAll : List Tree → Nat
  | [] => 0
  | t :: rest => t.size + sizeAll rest
end

/-- Runs a walk from the stack `stack`, whose top is its head. Every step takes one node off, so
the number of nodes on the stack and below bounds the steps. -/
def walkFrom (descend : Info → Bool) : Nat → List Tree → List Tree
  | 0, _ => []
  | _, [] => []
  | fuel + 1, t :: stack =>
    t :: walkFrom descend fuel (if descend t.info then t.parts.reverse ++ stack else stack)

/-- Walks a list of trees from its last one, going below the nodes that `descend` accepts. -/
def walk (descend : Info → Bool) (ts : List Tree) : List Tree :=
  walkFrom descend (sizeAll ts) ts.reverse

def opensScope (kind : String) : Bool :=
  kind == "FunctionDef" || kind == "ClassDef" || kind == "AsyncFunctionDef"

/-- Walks what belongs to one scope: nodes that open another are met but not entered. -/
def walkScope (ts : List Tree) : List Tree :=
  walk (fun i => !opensScope i.kind) ts

/-- Whether a node that `wanted` accepts lies in the scope of one of the trees. -/
def scopeHas (wanted : String → Bool) (ts : List Tree) : Bool :=
  ts.any fun t => (walkScope [t]).any fun u => wanted u.kind

/-! ### Upwards -/

mutual
/-- Every node of a tree, each with the nodes above it, the nearest first. -/
def ancestry (above : List Info) : Tree → List (Tree × List Info)
  | node i ps => (node i ps, above) :: ancestryAll (i :: above) ps

def ancestryAll (above : List Info) : List Tree → List (Tree × List Info)
  | [] => []
  | t :: rest => t.ancestry above ++ ancestryAll above rest
end

def upTo (stop : Info → Bool) : List Info → List Info
  | [] => []
  | i :: rest => if stop i then [i] else i :: upTo stop rest

end Tree

end Transpiler.Source
