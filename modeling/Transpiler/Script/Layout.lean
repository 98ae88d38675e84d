import Transpiler.Script.Tree
import Transpiler.Text.Lines

/-!
# Laid-out text

What a tree becomes before it is text. A `Piece` is text, or a group of pieces made by one node; a
`Line` is a piece on a line of its own, with an indentation and maybe a semicolon; an `Item` is what
a node contributes to the node around it. Pieces and lines remember the node that made them, which
is what the source map is read off.
-/

namespace Transpiler.Script

/-- The name that the source map gives to a group. -/
inductive Label where
  | none
  | own
  | named (s : String)
  deriving Inhabited, Repr, DecidableEq

/-- Text, or pieces grouped by the node that made them. -/
inductive Piece where
  | text (s : String)
  | group (o : Origin) (label : Label) (parts : List Piece)
  deriving Inhabited

namespace Piece

mutual
def toString : Piece → String
  | text s => s
  | group _ _ parts => joinAll parts

def joinAll : List Piece → String
  | [] => ""
  | p :: rest => p.toString ++ joinAll rest
end

def isGroup : Piece → Bool
  | group .. => true
  | text _ => false

def parts : Piece → List Piece
  | group _ _ ps => ps
  | text _ => []

end Piece

inductive Content where
  | piece (p : Piece)
  | bare (v : Scalar)
  deriving Inhabited

def Content.toString : Content → String
  | .piece p => p.toString
  | .bare v => v.text

structure Line where
  origin : Origin
  indent : Nat
  delim : Bool
  content : Content
  deriving Inhabited

def indentStep : Nat := 4

def margin (indent : Nat) : String :=
  String.ofList (List.replicate (indentStep * indent) ' ')

/-- The text of a line with its indentation, semicolon and line feed. A blank line is not
indented. -/
def Line.toString (l : Line) : String :=
  let text := l.content.toString ++ (if l.delim then ";" else "")
  (if Text.allBlank text then "" else margin l.indent) ++ text ++ "\n"

/-- What a tree contributes to the node around it. -/
inductive Item where
  | line (l : Line)
  | piece (p : Piece)
  | bare (v : Scalar)
  deriving Inhabited

namespace Item

def toString : Item → String
  | line l => l.toString
  | piece p => p.toString
  | bare v => v.text

def toPiece : Item → Piece
  | piece p => p
  | i => .text i.toString

def toContent : Item → Content
  | line l => l.content
  | piece p => .piece p
  | bare v => .bare v

def ofContent : Content → Item
  | .piece p => piece p
  | .bare v => bare v

def joinAll (items : List Item) : String :=
  String.join (items.map toString)

/-- Whether an item can stand on its own in the output: lines and groups can. -/
def isOutput : Item → Bool
  | line _ => true
  | piece p => p.isGroup
  | bare _ => false

def describe : Item → String
  | line l => "<Line indent: " ++ Nat.repr l.indent ++ ", \"" ++ l.toString ++ "\">"
  | i => "<Part, \"" ++ i.toString ++ "\">"

end Item

namespace Origin

def part (o : Origin) (label : Label) (items : List Item) : Item :=
  match items with
  | [.line l] => .ofContent l.content
  | _ => .piece (.group o label (items.map Item.toPiece))

def lineOf (o : Origin) (delim : Bool) (items : List Item) : Item :=
  .line ⟨o, 0, delim, .piece (.group o .none (items.map Item.toPiece))⟩

def textLine (o : Origin) (delim : Bool) (s : String) : Item :=
  .line ⟨o, 0, delim, .piece (.text s)⟩

/-- An item on a line of its own. A line stays as it is but for the indentation. -/
def toLine (o : Origin) (indent : Nat) (delim : Bool) : Item → Item
  | .line l => .line { l with indent := l.indent + indent }
  | i => .line ⟨o, indent, delim, i.toContent⟩

def block (o : Origin) (items : List Item) : List Item :=
  items.map (o.toLine 1 true)

/-- The lines of a text between two delimiters. A text of one line is a group with `pad` inside
each delimiter; the lines of a longer one lose the blanks at their ends. -/
def multiLine (o : Origin) (opening closing pad : String) (value : String) : List Item :=
  let str (s : String) : Item := .piece (.text s)
  let closing := if opening != "" && closing == "" then opening else closing
  match Text.splitLines value with
  | first :: second :: rest =>
    let middle := (second :: rest).dropLast
    let last := (second :: rest).getLastD ""
    let onLine (i : Item) : Item := o.toLine 0 false i
    onLine (o.part .none [str opening, str (Text.strip first)]) ::
      (middle.map fun l => o.textLine false (Text.strip l)) ++
      [onLine (o.part .none [str (Text.strip last), str closing])]
  | _ => [o.part .none [str opening, str pad, str value, str pad, str closing]]

end Origin

def separated (sep : List α) : List (List α) → List α
  | [] => []
  | [x] => x
  | x :: rest => x ++ sep ++ separated sep rest

def delimited (sep : α) (atEnd : Bool) (items : List α) : List α :=
  separated [sep] (items.map ([·])) ++ if atEnd then [sep] else []

end Transpiler.Script
