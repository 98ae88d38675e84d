/-!
# Names

How names of the source are spelled in the output. A name may carry a mark for a character that
Python does not allow in names: `d_` and `dd_` at its start for dollar signs, and an underscore at
its end for a word that is reserved in Python. In the path of a module, a double underscore stands
for `@` at the start and for a dash between two words, and the leading words that name a character
stand for it.
-/

namespace Transpiler.Compile

/-- Replaces every occurrence of `old`, from the left, by `new`; `fuel` is at least the length. -/
def replaceChars (old new : List Char) : Nat → List Char → List Char
  | 0, cs => cs
  | _, [] => []
  | fuel + 1, c :: cs =>
    if old.isPrefixOf (c :: cs) then new ++ replaceChars old new fuel ((c :: cs).drop old.length)
    else c :: replaceChars old new fuel cs

def normalizeChars (cs : List Char) : List Char :=
  if ['d', '_'].isPrefixOf cs then replaceChars ['d', '_'] ['$'] cs.length cs
  else if ['d', 'd', '_'].isPrefixOf cs then replaceChars ['d', 'd', '_'] ['$', '$'] cs.length cs
  else if cs.head? != some '_' && cs.getLast? == some '_' then cs.dropLast
  else cs

def normalizeName (s : String) : String :=
  String.ofList (normalizeChars s.toList)

/-! ### Paths of modules -/

def isWordChar (c : Char) : Bool :=
  c.isAlphanum

/-- A double underscore at the start, before a letter or a digit, is an `@`. -/
def atSign : List Char → List Char
  | '_' :: '_' :: c :: rest => if isWordChar c then '@' :: c :: rest else '_' :: '_' :: c :: rest
  | cs => cs

/-- A double underscore between two letters or digits is a dash. The characters around one are not
looked at again for the next. -/
def dashes : List Char → List Char
  | [] => []
  | a :: tail =>
    let keep (_ : Unit) : List Char := a :: dashes tail
    match tail with
    | '_' :: '_' :: b :: rest =>
      if isWordChar a && isWordChar b then a :: '-' :: b :: dashes rest else keep ()
    | _ => keep ()

def characterNames : List (String × Char) :=
  [("tilde", '~'), ("asterisk", '*'), ("solidus", '/'), ("snowman", '☃'), ("ampersand", '&'),
    ("hyphen", '‐'), ("dollar sign", '$'), ("number sign", '#'), ("percent sign", '%'),
    ("plus sign", '+'), ("low line", '_'), ("full stop", '.'), ("circumflex accent", '^'),
    ("exclamation mark", '!'), ("commercial at", '@'), ("greek small letter alpha", 'α')]

def shortNames : List (String × Char) :=
  [("at", '@')]

def capitalWords : List Char → List (List Char)
  | [] => []
  | c :: rest =>
    match capitalWords rest with
    | [] => [[c]]
    | word :: words =>
      if (word.head?.map Char.isUpper).getD false then [c] :: word :: words
      else (c :: word) :: words

/-- The words that a text starts with, up to an underscore, and the text after it. Every word has
two letters or more, and all but the first of them are small. -/
def leadingWords? (cs : List Char) : Option (List (List Char) × List Char) :=
  let run := cs.takeWhile Char.isAlpha
  match cs.dropWhile Char.isAlpha with
  | '_' :: rest =>
    let words := capitalWords run
    if words.isEmpty || words.any (·.length < 2) then none else some (words, rest)
  | _ => none

def characterOf? (words : List (List Char)) : Option Char :=
  let lower := words.map fun w => String.ofList (w.map Char.toLower)
  let find (table : List (String × Char)) (name : String) : Option Char :=
    (table.find? (·.1 == name)).map (·.2)
  (find shortNames (String.join lower)).or (find characterNames (" ".intercalate lower))

/-- Replaces the words at the start that name a character; `character?` knows the names, and `fuel` is at
least the length. -/
def leadingCharacters (character? : List (List Char) → Option Char) : Nat → List Char → List Char
  | 0, cs => cs
  | fuel + 1, cs =>
    match leadingWords? cs with
    | none => cs
    | some (words, rest) =>
      (match character? words with
        | some c => [c]
        | none => words.flatten ++ ['_']) ++ leadingCharacters character? fuel rest

/-- The double underscores of a path as the characters that they stand for. -/
def dunders (cs : List Char) : List Char :=
  dashes (atSign cs)

/-- A path with the characters that its double underscores and its leading words stand for. -/
def pathChars (character? : List (List Char) → Option Char) (cs : List Char) : List Char :=
  leadingCharacters character? (dunders cs).length (dunders cs)

def modulePath (s : String) : String :=
  String.ofList (pathChars characterOf? s.toList)

end Transpiler.Compile
