/-!
# Words of JavaScript

The reserved words, which no name may be, and the texts that may follow a dot.
-/

namespace Transpiler.Script

def reservedWords : List String :=
  ["break", "case", "catch", "continue", "default", "delete", "do", "else", "finally", "for",
    "function", "if", "in", "instanceof", "new", "return", "switch", "this", "throw", "try",
    "typeof", "var", "void", "while", "with", "abstract", "boolean", "byte", "char", "class",
    "const", "double", "enum", "export", "extends", "final", "float", "goto", "implements",
    "import", "int", "interface", "long", "native", "package", "private", "protected", "public",
    "short", "static", "super", "synchronized", "throws", "transient", "volatile"]

def isReserved (es6 : Bool) (word : String) : Bool :=
  reservedWords.contains word && !(es6 && word == "delete")

def isFieldStart (c : Char) : Bool :=
  c.isAlpha || c == '$' || c == '_'

/-- Whether a text is made of the characters of a name after a dot. One line feed at its end is
let through. -/
def isField (s : String) : Bool :=
  let cs := s.toList
  let cs := if cs.getLast? == some '\n' then cs.dropLast else cs
  match cs with
  | [] => false
  | c :: rest => isFieldStart c && rest.all fun d => isFieldStart d || d.isDigit

end Transpiler.Script
