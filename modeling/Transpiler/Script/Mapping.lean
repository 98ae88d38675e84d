import Transpiler.Fault
import Transpiler.Script.Layout

/-!
# From output back to the source

Which source place each fragment of laid-out text comes from. A group maps the runs of its own text
to the place of its node and leaves the groups inside it to themselves; columns count characters
from the start of the item.
-/

namespace Transpiler.Script

/-- A fragment of an item with the source place it maps to. -/
structure Fragment where
  col : Nat
  text : String
  name : Option String
  srcLine : Int
  srcCol : Int
  deriving Inhabited, Repr, DecidableEq

def Fragment.shift (n : Nat) (f : Fragment) : Fragment :=
  { f with col := f.col + n }

namespace Origin

def isMapped (o : Origin) : Bool :=
  (o.settings.map (·.mapped)).getD false

def line? (o : Origin) : Option Int :=
  match o.source with
  | some r => if r.line == some 0 then none else r.line
  | none => none

def fragment (o : Origin) (name : Option String) (col : Nat) (text : String) : List Fragment :=
  match o.line? with
  | some line => [⟨col, text, name, line, (o.source.map (·.col)).getD 0⟩]
  | none => []

end Origin

def Label.nameFor (text : String) : Label → Option String
  | none => Option.none
  | own => some text
  | named s => some s

namespace Piece

mutual
def fragments : Piece → List Fragment
  | text _ => []
  | group o label parts =>
    if o.isMapped then runs o (label.nameFor (joinAll parts)) "" 0 parts else []

/-- The fragments of the parts of a group. `run` is the text of the group itself since the last
group inside it, and `col` the column where it starts. -/
def runs (o : Origin) (name : Option String) (run : String) (col : Nat) : List Piece → List Fragment
  | [] => if run == "" then [] else o.fragment name col run
  | text s :: rest => runs o name (run ++ s) col rest
  | group o' label parts :: rest =>
    let start := col + run.length
    (if run == "" then [] else o.fragment name col run) ++
      (fragments (group o' label parts)).map (Fragment.shift start) ++
      runs o name "" (start + (joinAll parts).length) rest
end

def findFrom (needle : List Char) (at_ : Nat) : List Char → Option Nat
  | [] => if needle.isEmpty then some at_ else none
  | c :: rest => if needle.isPrefixOf (c :: rest) then some at_ else findFrom needle (at_ + 1) rest

/-- The columns of the fragments of a group inside a piece, when it is sought by its text. -/
def soughtCols (outer inner : Piece) : List Int :=
  let start : Int := match findFrom inner.toString.toList 0 outer.toString.toList with
    | some n => n
    | none => -1
  inner.fragments.map fun f => f.col + start

end Piece

/-- The fragments of an item that is written. A line with a bare value cannot be mapped. -/
def Item.fragments? : Item → Except Fault (List Fragment)
  | .piece p => .ok p.fragments
  | .bare _ => .error (.noPart "'str' object has no attribute 'src_mappings'")
  | .line l =>
    if l.origin.isMapped then
      let margin := indentStep * l.indent
      match l.content with
      | .piece (.text s) => .ok (l.origin.fragment none margin s)
      | .piece p => .ok (p.fragments.map (Fragment.shift margin))
      | .bare _ => .error (.unmet "")
    else .ok []

/-- A fragment in the output as a whole. Lines count from one. -/
structure Mapping where
  dstLine : Int
  dstCol : Int
  srcLine : Int
  srcCol : Int
  name : Option String
  text : String
  deriving Inhabited, Repr, DecidableEq

structure Offset where
  line : Int
  col : Int
  deriving Inhabited, Repr, DecidableEq

def Offset.zero : Offset := ⟨0, 0⟩

/-- Pairs each item with the number of the line it starts on, counting from `line`. -/
def numberLines (toText : α → String) (line : Int) : List α → List (Int × α)
  | [] => []
  | i :: rest => (line, i) :: numberLines toText (line + Text.lineFeeds (toText i)) rest

/-- A fragment of an item that starts on a line, in the output as a whole. -/
def Fragment.toMapping (src dst : Offset) (line : Int) (f : Fragment) : Mapping where
  dstLine := line + dst.line
  dstCol := f.col + dst.col
  srcLine := f.srcLine + src.line
  srcCol := f.srcCol + src.col
  name := f.name
  text := f.text

def mappings? (src dst : Offset) (items : List Item) : Except Fault (List Mapping) := do
  let each ← (numberLines Item.toString 1 items).mapM fun (line, i) => do
    return (← i.fragments?).map (Fragment.toMapping src dst line)
  return each.flatten

end Transpiler.Script
