/-!
# Python expressions

The syntax trees of Python expressions, as the parser of Python 3.8 gives them: an index in a
subscript is wrapped in `index`, and constants of every type share one node. Every node that has a
place in the text carries it; a tree that was built and not parsed has no places.

One node, `absent`, stands for an optional part that was left out, so that every part of a node is
again an expression.
-/

namespace Transpiler.Source

/-- A place in a source text: the line counts from one, the column is a count of UTF-8 octets
from zero. -/
structure Pos where
  line : Int
  col : Int
  deriving Inhabited, Repr, DecidableEq

abbrev At := Option Pos

/-! ### Operators -/

inductive BoolOp where
  | and | or
  deriving Inhabited, Repr, DecidableEq

inductive BinOp where
  | add | sub | mult | matMult | div | mod | pow | lShift | rShift | bitOr | bitXor | bitAnd
  | floorDiv
  deriving Inhabited, Repr, DecidableEq

inductive UnaryOp where
  | invert | not | uAdd | uSub
  deriving Inhabited, Repr, DecidableEq

inductive CmpOp where
  | eq | notEq | lt | ltE | gt | gtE | is | isNot | isIn | notIn
  deriving Inhabited, Repr, DecidableEq

def BoolOp.kind : BoolOp → String
  | .and => "And"
  | .or => "Or"

def BinOp.kind : BinOp → String
  | .add => "Add"
  | .sub => "Sub"
  | .mult => "Mult"
  | .matMult => "MatMult"
  | .div => "Div"
  | .mod => "Mod"
  | .pow => "Pow"
  | .lShift => "LShift"
  | .rShift => "RShift"
  | .bitOr => "BitOr"
  | .bitXor => "BitXor"
  | .bitAnd => "BitAnd"
  | .floorDiv => "FloorDiv"

def UnaryOp.kind : UnaryOp → String
  | .invert => "Invert"
  | .not => "Not"
  | .uAdd => "UAdd"
  | .uSub => "USub"

def CmpOp.kind : CmpOp → String
  | .eq => "Eq"
  | .notEq => "NotEq"
  | .lt => "Lt"
  | .ltE => "LtE"
  | .gt => "Gt"
  | .gtE => "GtE"
  | .is => "Is"
  | .isNot => "IsNot"
  | .isIn => "In"
  | .notIn => "NotIn"

/-! ### Trees -/

/-- The value of a constant. A number is held by the text that it prints as. -/
inductive Constant where
  | none
  | bool (b : Bool)
  | number (digits : String)
  | str (s : String)
  | ellipsis
  | bytes
  deriving Inhabited, Repr, DecidableEq

structure Binder where
  pos : At
  name : String
  deriving Inhabited, Repr, DecidableEq

/-- The parameters of a lambda by their place in the list; their defaults stand with the lambda,
where they are expressions. -/
structure Binders where
  posOnly : List Binder
  args : List Binder
  vararg : Option Binder
  kwOnly : List Binder
  kwarg : Option Binder
  deriving Inhabited, Repr, DecidableEq

mutual
/-- An expression, or a piece of one that the grammar treats as a node. -/
inductive Expr where
  | absent
  | name (p : At) (id : String)
  | constant (p : At) (value : Constant)
  | attr (p : At) (value : Expr) (field : String)
  | subscript (p : At) (value slice : Expr)
  | call (p : At) (func : Expr) (args : List Expr) (keywords : List Keyword)
  | boolOp (p : At) (op : BoolOp) (values : List Expr)
  | binOp (p : At) (left : Expr) (op : BinOp) (right : Expr)
  | unaryOp (p : At) (op : UnaryOp) (operand : Expr)
  | compare (p : At) (left : Expr) (ops : List CmpOp) (comparators : List Expr)
  | ifExp (p : At) (test body orelse : Expr)
  | lambda (p : At) (params : Binders) (kwDefaults defaults : List Expr) (body : Expr)
  | list (p : At) (elts : List Expr)
  | tuple (p : At) (elts : List Expr)
  | set (p : At) (elts : List Expr)
  | dict (p : At) (keys values : List Expr)
  | listComp (p : At) (elt : Expr) (generators : List Generator)
  | setComp (p : At) (elt : Expr) (generators : List Generator)
  | generatorExp (p : At) (elt : Expr) (generators : List Generator)
  | dictComp (p : At) (key value : Expr) (generators : List Generator)
  | await (p : At) (value : Expr)
  | yield (p : At) (value : Expr)
  | yieldFrom (p : At) (value : Expr)
  | starred (p : At) (value : Expr)
  | namedExpr (p : At) (target value : Expr)
  | joinedStr (p : At) (values : List Expr)
  | formattedValue (p : At) (value : Expr) (conversion : Int) (formatSpec : Expr)
  | slice (p : At) (lower upper step : Expr)
  /-- A single index between the brackets of a subscript. -/
  | index (value : Expr)
  /-- Several indices between the brackets of a subscript, one of them a slice. -/
  | extSlice (dims : List Expr)

/-- A keyword argument of a call; without a name it spreads its value. -/
inductive Keyword where
  | mk (p : At) (arg : Option String) (value : Expr)

/-- A clause `for … in … if …` of a comprehension. -/
inductive Generator where
  | mk (target iter : Expr) (ifs : List Expr)
end

instance : Inhabited Expr := ⟨.absent⟩

instance : Inhabited Keyword := ⟨.mk none none .absent⟩

instance : Inhabited Generator := ⟨.mk .absent .absent []⟩

def Keyword.arg : Keyword → Option String
  | .mk _ arg _ => arg

def Keyword.value : Keyword → Expr
  | .mk _ _ value => value

namespace Expr

def pos : Expr → At
  | absent | index _ | extSlice _ => none
  | name p _ | constant p _ | attr p _ _ | subscript p _ _ | call p _ _ _ | boolOp p _ _
  | binOp p _ _ _ | unaryOp p _ _ | compare p _ _ _ | ifExp p _ _ _ | lambda p _ _ _ _
  | list p _ | tuple p _ | set p _ | dict p _ _ | listComp p _ _ | setComp p _ _
  | generatorExp p _ _ | dictComp p _ _ _ | await p _ | yield p _ | yieldFrom p _ | starred p _
  | namedExpr p _ _ | joinedStr p _ | formattedValue p _ _ _ | slice p _ _ _ => p

def kind : Expr → String
  | absent => "NoneType"
  | name .. => "Name"
  | constant .. => "Constant"
  | attr .. => "Attribute"
  | subscript .. => "Subscript"
  | call .. => "Call"
  | boolOp .. => "BoolOp"
  | binOp .. => "BinOp"
  | unaryOp .. => "UnaryOp"
  | compare .. => "Compare"
  | ifExp .. => "IfExp"
  | lambda .. => "Lambda"
  | list .. => "List"
  | tuple .. => "Tuple"
  | set .. => "Set"
  | dict .. => "Dict"
  | listComp .. => "ListComp"
  | setComp .. => "SetComp"
  | generatorExp .. => "GeneratorExp"
  | dictComp .. => "DictComp"
  | await .. => "Await"
  | yield .. => "Yield"
  | yieldFrom .. => "YieldFrom"
  | starred .. => "Starred"
  | namedExpr .. => "NamedExpr"
  | joinedStr .. => "JoinedStr"
  | formattedValue .. => "FormattedValue"
  | slice .. => "Slice"
  | index .. => "Index"
  | extSlice .. => "ExtSlice"

def isAbsent : Expr → Bool
  | absent => true
  | _ => false

def str? : Expr → Option String
  | constant _ (.str s) => some s
  | _ => none

def name? : Expr → Option String
  | name _ id => some id
  | _ => none

end Expr

end Transpiler.Source
