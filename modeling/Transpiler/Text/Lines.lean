import Transpiler.Text.Blank

/-!
# Lines

Two ways to cut a text into lines: at every line separator of Unicode (`splitLines`, no empty line
after a final separator) and at one chosen character (`splitOn`, which keeps every piece). With
them come the margin operations: the longest indentation that all lines with content share, and
the text without it.
-/

namespace Transpiler.Text

/-- The characters that end a line. A carriage return and the line feed after it are one end. -/
def isLineEnd (c : Char) : Bool :=
  let n := c.toNat
  (0x0a ≤ n && n ≤ 0x0d) || (0x1c ≤ n && n ≤ 0x1e) || n == 0x85 || n == 0x2028 || n == 0x2029

def splitLinesFrom (current : List Char) : List Char → List (List Char)
  | [] => if current.isEmpty then [] else [current.reverse]
  | '\r' :: '\n' :: rest => current.reverse :: splitLinesFrom [] rest
  | c :: rest =>
    if isLineEnd c then current.reverse :: splitLinesFrom [] rest
    else splitLinesFrom (c :: current) rest

/-- The lines of a text, without their ends. A final line end opens no further line. -/
def splitLines (s : String) : List String :=
  (splitLinesFrom [] s.toList).map String.ofList

def splitChars (sep : Char) : List Char → List (List Char)
  | [] => [[]]
  | c :: rest =>
    if c = sep then [] :: splitChars sep rest
    else match splitChars sep rest with
      | [] => [[c]]
      | piece :: pieces => (c :: piece) :: pieces

/-- Cuts a text at every `sep`; the pieces are one more than the separators. -/
def splitOn (sep : Char) (s : String) : List String :=
  (splitChars sep s.toList).map String.ofList

def keepLines : List Char → List (List Char)
  | [] => []
  | c :: rest =>
    if c = '\n' then [c] :: keepLines rest
    else match keepLines rest with
      | [] => [[c]]
      | line :: lines => (c :: line) :: lines

def lineFeeds (s : String) : Nat :=
  s.toList.count '\n'

/-- The text with every line ending in a line feed: a carriage return ends a line too, alone or with
a line feed after it. -/
def unifyEnds : List Char → List Char
  | [] => []
  | '\r' :: '\n' :: rest => '\n' :: unifyEnds rest
  | c :: rest => (if c = '\r' then '\n' else c) :: unifyEnds rest

/-! ### Margins -/

def isIndent (c : Char) : Bool :=
  c == ' ' || c == '\t'

def commonStart : List Char → List Char → List Char
  | a :: as, b :: bs => if a = b then a :: commonStart as bs else []
  | _, _ => []

/-- The indentation of a line, or nothing if the line has no other character. -/
def indentOf? (line : List Char) : Option (List Char) :=
  if line.all isIndent then none else some (line.takeWhile isIndent)

def marginOf (lines : List (List Char)) : List Char :=
  match lines.filterMap indentOf? with
  | [] => []
  | first :: rest => rest.foldl commonStart first

def hasMargin (s : String) : Bool :=
  !(marginOf (splitChars '\n' s.toList)).isEmpty

/-- The text with the common margin of its lines removed and its blank lines emptied. -/
def dedent (s : String) : String :=
  let lines := splitChars '\n' s.toList
  let width := (marginOf lines).length
  let cut := lines.map fun line => if line.all isIndent then [] else line.drop width
  String.ofList (['\n'].intercalate cut)

end Transpiler.Text
