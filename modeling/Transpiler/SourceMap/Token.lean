import Transpiler.Script.Mapping

/-!
# Tokens of a source map

A token ties a place of the output to a place of a source. Tokens are ordered like tuples, field by
field; a field that one token has and the other lacks makes them incomparable.
-/

namespace Transpiler.SourceMap

structure Token where
  dstLine : Int
  dstCol : Int
  src : Option String
  srcLine : Int
  srcCol : Int
  name : Option String
  mapping : Option Script.Mapping
  deriving Inhabited, Repr, DecidableEq

namespace Token

def plain (dstLine dstCol : Int) (src : Option String) (srcLine srcCol : Int) (name : Option String) : Token :=
  ⟨dstLine, dstCol, src, srcLine, srcCol, name, none⟩

def ofMapping (src : String) (m : Script.Mapping) : Token :=
  ⟨m.dstLine - 1, m.dstCol, some src, m.srcLine - 1, m.srcCol, m.name, some m⟩

/-- A token further down and to the right, in the output and in its source. -/
def shift (dstLine dstCol srcLine srcCol : Int) (t : Token) : Token :=
  { t with
    dstLine := t.dstLine + dstLine
    dstCol := t.dstCol + dstCol
    srcLine := t.srcLine + srcLine
    srcCol := t.srcCol + srcCol }

def isAfter (t u : Token) : Bool :=
  u.dstLine < t.dstLine || (u.dstLine == t.dstLine && u.dstCol < t.dstCol)

def samePlace (t u : Token) : Bool :=
  t.dstLine == u.dstLine && t.dstCol == u.dstCol

def compareTexts : Option String → Option String → Except Fault Ordering
  | none, none => .ok .eq
  | some a, some b => .ok (compare a b)
  | none, some _ => .error (.wrongType "'<' not supported between instances of 'NoneType' and 'str'")
  | some _, none => .error (.wrongType "'<' not supported between instances of 'str' and 'NoneType'")

/-- The order of two tokens by all of their fields. Two mappings are never the same and have no
order. -/
def compareFields (t u : Token) : Except Fault Ordering := do
  let place := (compare t.dstLine u.dstLine).then (compare t.dstCol u.dstCol)
  if place != .eq then return place
  let src ← compareTexts t.src u.src
  if src != .eq then return src
  let srcPlace := (compare t.srcLine u.srcLine).then (compare t.srcCol u.srcCol)
  if srcPlace != .eq then return srcPlace
  let name ← compareTexts t.name u.name
  if name != .eq then return name
  match t.mapping, u.mapping with
  | none, none => return .eq
  | _, _ => .error (.wrongType "'<' not supported between instances of 'dict' and 'dict'")

end Token

end Transpiler.SourceMap
