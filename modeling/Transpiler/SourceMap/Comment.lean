import Transpiler.Text.Lines

/-!
# Comments that name a source map

A comment such as `//# sourceMappingURL=name` ties a text to its map. It may be a line comment or a
block comment, and `@` may stand for `#`.
-/

namespace Transpiler.SourceMap

def isAddress (c : Char) : Bool :=
  !Text.isBlank c && c != '*'

def afterPrefix? : List Char → List Char → Option (List Char)
  | [], cs => some cs
  | w :: ws, c :: cs => if w = c then afterPrefix? ws cs else none
  | _ :: _, [] => none

/-- The address in a comment at the start of a text, and the text after the comment and the blanks
that follow the address. -/
def comment? : List Char → Option (List Char × List Char)
  | '/' :: kind :: sign :: rest =>
    if (kind == '*' || kind == '/') && (sign == '#' || sign == '@') then
      match afterPrefix? "sourceMappingURL=".toList (rest.dropWhile Text.isBlank) with
      | some cs =>
        let address := cs.takeWhile isAddress
        let after := (cs.dropWhile isAddress).dropWhile Text.isBlank
        if address.isEmpty then none
        else some (address, (afterPrefix? ['*', '/'] after).getD after)
      | none => none
    else none
  | _ => none

def address? : List Char → Option (List Char)
  | [] => none
  | c :: rest =>
    match comment? (c :: rest) with
    | some (address, _) => some address
    | none => address? rest

/-- The lines in which the comment is looked for: the first five and the last five of a long text. -/
def candidateLines (lines : List (List Char)) : List (List Char) :=
  if lines.length > 10 then lines.take 5 ++ lines.drop (lines.length - 5) else lines

def discover (text : String) : Option String :=
  ((candidateLines (Text.splitLinesFrom [] text.toList)).findSome? address?).map String.ofList

def stripFrom : Nat → List Char → List Char
  | 0, cs => cs
  | _, [] => []
  | fuel + 1, c :: rest =>
    match comment? (c :: rest) with
    | some (_, after) => stripFrom fuel after
    | none => c :: stripFrom fuel rest

def stripComments (text : String) : String :=
  let cs := text.toList
  String.ofList (stripFrom cs.length cs)

end Transpiler.SourceMap
