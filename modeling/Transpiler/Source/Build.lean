import Transpiler.Source.Stmt

/-!
# Building source trees

Short constructors of source trees without positions, for the sources that the compiler brings
along.
-/

namespace Transpiler.Source.Build

def var (id : String) : Expr := .name none id

def text (s : String) : Expr := .constant none (.str s)

def truth (b : Bool) : Expr := .constant none (.bool b)

def field (e : Expr) (name : String) : Expr := .attr none e name

def item (e key : Expr) : Expr := .subscript none e (.index key)

def call (f : Expr) (args : List Expr) : Expr := .call none f args []

def method (e : Expr) (name : String) (args : List Expr) : Expr := call (field e name) args

def allOf (tests : List Expr) : Expr := .boolOp none .and tests

def anyOf (tests : List Expr) : Expr := .boolOp none .or tests

def neg (test : Expr) : Expr := .unaryOp none .not test

def test (left : Expr) (op : CmpOp) (right : Expr) : Expr := .compare none left [op] [right]

def isA (e : Expr) (classes : List String) : Expr :=
  call (var "isinstance") [e, match classes with
    | [c] => var c
    | cs => .tuple none (cs.map var)]

def set (target value : Expr) : Stmt := .assign none [target] value

def run (e : Expr) : Stmt := .expr none e

def branch (test : Expr) (body orelse : List Stmt) : Stmt := .ifElse none test body orelse

def give (e : Expr) : Stmt := .ret none e

def each (name : String) (iter : Expr) (body : List Stmt) : Stmt :=
  .forLoop none false (var name) iter body []

def globals (names : List String) : Stmt :=
  .importFrom none (some "__globals__") (names.map fun n => ⟨none, n, none⟩) (some 0)

def define (name : String) (params : List String) (body : List Stmt) : Stmt :=
  .functionDef none false name ⟨[], params.map fun p => ⟨none, p, .absent⟩, none, [], [], none, []⟩ body [] .absent

end Transpiler.Source.Build
