/-!
# Blanks

The characters that count as white space, and the operations that look at them at the two ends of
a text. The table is that of the Unicode property *White_Space* with the four information
separators U+001C to U+001F added.
-/

namespace Transpiler.Text

/-- White space: the Unicode spaces and line ends, and the information separators. -/
def isBlank (c : Char) : Bool :=
  let n := c.toNat
  (0x09 ≤ n && n ≤ 0x0d) || (0x1c ≤ n && n ≤ 0x20) || n == 0x85 || n == 0xa0 || n == 0x1680 ||
    (0x2000 ≤ n && n ≤ 0x200a) || n == 0x2028 || n == 0x2029 || n == 0x202f || n == 0x205f ||
    n == 0x3000

def stripLeft (cs : List Char) : List Char :=
  cs.dropWhile isBlank

def stripChars (cs : List Char) : List Char :=
  (stripLeft (stripLeft cs).reverse).reverse

def strip (s : String) : String :=
  String.ofList (stripChars s.toList)

def allBlank (s : String) : Bool :=
  s.toList.all isBlank

def indentWidth (cs : List Char) : Nat :=
  (cs.takeWhile isBlank).length

end Transpiler.Text
