import Transpiler.SourceMap.Basic

/-!
# The map of a text onto itself

Tokens at the places of a text where statements may start or end: the first column and the first
character that is no blank of each line, and the brackets and semicolons that are not in a comment.
-/

namespace Transpiler.SourceMap

/-- The marks that the tokens of a line depend on. -/
inductive Punctuation where
  | lineComment | commentStart | commentEnd | delimiter
  deriving Inhabited, Repr, DecidableEq

def isDelimiter (c : Char) : Bool :=
  "\x7b\x7d[]();".toList.contains c

def punctuation (col : Nat) : List Char → List (Punctuation × Nat)
  | '/' :: '/' :: rest => (.lineComment, col) :: punctuation (col + 2) rest
  | '/' :: '*' :: rest => (.commentStart, col) :: punctuation (col + 2) rest
  | '*' :: '/' :: rest => (.commentEnd, col) :: punctuation (col + 2) rest
  | c :: rest =>
    if isDelimiter c then (.delimiter, col) :: punctuation (col + 1) rest
    else punctuation (col + 1) rest
  | [] => []

/-- The columns of the delimiters outside comments, and whether a comment is open at the end. -/
def delimiterCols (inComment : Bool) : List (Punctuation × Nat) → List Nat × Bool
  | [] => ([], inComment)
  | (kind, col) :: rest =>
    if inComment then delimiterCols (kind != .commentEnd) rest
    else match kind with
      | .commentStart => delimiterCols true rest
      | .lineComment => ([], false)
      | .commentEnd => delimiterCols false rest
      | .delimiter =>
        let (cols, open_) := delimiterCols false rest
        (col :: cols, open_)

/-- The columns of the tokens of a line, and whether a comment is open at its end. -/
def tokenCols (inComment : Bool) (line : List Char) : List Nat × Bool :=
  let (cols, open_) := delimiterCols inComment (punctuation 0 line)
  if line.all Text.isBlank then ([], open_)
  else
    let start := Text.indentWidth line
    let first := if start = 0 then [0] else [0, start]
    (first ++ cols.filter (start < ·), open_)

def identityFrom (src : Option String) (n : Nat) (inComment : Bool) : List (List Char) → List Token
  | [] => []
  | line :: rest =>
    let (cols, open_) := tokenCols inComment line
    (cols.map fun (col : Nat) => Token.plain n col src n col none) ++ identityFrom src (n + 1) open_ rest

def identityTokens (content : String) (src : Option String) : List Token :=
  identityFrom src 0 false (Text.splitLinesFrom [] content.toList)

def identityMap (content : String) (src : String) : SourceMap :=
  make (identityTokens content (some src)) [(src, .str content)] [] false

end Transpiler.SourceMap
