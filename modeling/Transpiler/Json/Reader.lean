import Transpiler.Json.Basic

/-!
# Reading JSON

`Json.parse?` reads one value with blanks around it and refuses everything else: leading zeros,
raw control characters in strings, commas without an item. A key that occurs twice keeps its last
value. The readers work on the characters that are left and return the rest with what they read.
-/

namespace Transpiler.Json

def skipBlanks (cs : List Char) : List Char :=
  cs.dropWhile fun c => c == ' ' || c == '\n' || c == '\t' || c == '\r'

def hexValue? (c : Char) : Option Nat :=
  let n := c.toNat
  if 0x30 ≤ n && n ≤ 0x39 then some (n - 0x30)
  else if 0x61 ≤ n && n ≤ 0x66 then some (n - 0x57)
  else if 0x41 ≤ n && n ≤ 0x46 then some (n - 0x37)
  else none

def readUnit? : List Char → Option (Nat × List Char)
  | a :: b :: c :: d :: rest => do
    let a ← hexValue? a
    let b ← hexValue? b
    let c ← hexValue? c
    let d ← hexValue? d
    some (((a * 16 + b) * 16 + c) * 16 + d, rest)
  | _ => none

def shortEscape? : Char → Option Char
  | '"' => some '"'
  | '\\' => some '\\'
  | '/' => some '/'
  | 'b' => some '\x08'
  | 'f' => some '\x0c'
  | 'n' => some '\n'
  | 'r' => some '\r'
  | 't' => some '\t'
  | _ => none

/-- Reads a character written by UTF-16 units: one, or two that form a pair. A unit that is half
a pair stands for no character and gives the replacement character. -/
def readUnits? (cs : List Char) : Option (Char × List Char) := do
  let (hi, rest) ← readUnit? cs
  if 0xd800 ≤ hi && hi < 0xdc00 then
    match rest with
    | '\\' :: 'u' :: more =>
      let (lo, after) ← readUnit? more
      if 0xdc00 ≤ lo && lo < 0xe000 then
        some (Char.ofNat (0x10000 + (hi - 0xd800) * 1024 + (lo - 0xdc00)), after)
      else some (Char.ofNat 0xfffd, rest)
    | _ => some (Char.ofNat 0xfffd, rest)
  else if 0xdc00 ≤ hi && hi < 0xe000 then some (Char.ofNat 0xfffd, rest)
  else some (Char.ofNat hi, rest)

/-- Reads a string after its opening quote; `acc` is what was read, reversed. Each step takes a
character, so the length of the text is enough fuel. -/
def readString? : Nat → List Char → List Char → Option (String × List Char)
  | 0, _, _ => none
  | _ + 1, _, [] => none
  | _ + 1, acc, '"' :: rest => some (String.ofList acc.reverse, rest)
  | fuel + 1, acc, '\\' :: 'u' :: rest => do
    let (c, rest) ← readUnits? rest
    readString? fuel (c :: acc) rest
  | fuel + 1, acc, '\\' :: c :: rest => do
    let c ← shortEscape? c
    readString? fuel (c :: acc) rest
  | fuel + 1, acc, c :: rest =>
    if c.toNat < 0x20 || c == '\\' then none else readString? fuel (c :: acc) rest

def digitsValue (cs : List Char) : Nat :=
  cs.foldl (fun n c => n * 10 + (c.toNat - 0x30)) 0

/-- Reads the digits of a fraction or an exponent after `mark`; none there is no fault. -/
def readTail (mark : List Char) (cs : List Char) : List Char × List Char :=
  match cs.takeWhile Char.isDigit with
  | [] => ([], [])
  | ds => (mark ++ ds, cs.dropWhile Char.isDigit)

/-- Reads the optional fraction of a number: what it is written as, and the rest. -/
def readFraction : List Char → List Char × List Char
  | '.' :: rest =>
    match readTail ['.'] rest with
    | ([], _) => ([], '.' :: rest)
    | found => found
  | cs => ([], cs)

/-- Reads the optional exponent of a number: what it is written as, and the rest. -/
def readExponent (cs : List Char) : List Char × List Char :=
  let found := match cs with
    | e :: '+' :: rest => if e == 'e' || e == 'E' then readTail [e, '+'] rest else ([], [])
    | e :: '-' :: rest => if e == 'e' || e == 'E' then readTail [e, '-'] rest else ([], [])
    | e :: rest => if e == 'e' || e == 'E' then readTail [e] rest else ([], [])
    | [] => ([], [])
  if found.1.isEmpty then ([], cs) else found

/-- Reads a number that starts with a digit; `sign` is the minus before it, if there is one. -/
def readNumber? (sign : List Char) (cs : List Char) : Option (Json × List Char) :=
  let digits := match cs with
    | '0' :: _ => ['0']
    | _ => cs.takeWhile Char.isDigit
  if digits.isEmpty then none
  else
    let (fraction, rest) := readFraction (cs.drop digits.length)
    let (exponent, rest) := readExponent rest
    if fraction.isEmpty && exponent.isEmpty then
      let n : Int := digitsValue digits
      some (.int (if sign.isEmpty then n else -n), rest)
    else some (.decimal (String.ofList (sign ++ digits ++ fraction ++ exponent)), rest)

def afterWord? (word : String) (cs : List Char) : Option (List Char) :=
  if word.toList.isPrefixOf cs then some (cs.drop word.length) else none

def readWord? (cs : List Char) : Option (Json × List Char) :=
  let words := [("null", Json.null), ("true", .bool true), ("false", .bool false),
    ("NaN", .decimal "NaN"), ("Infinity", .decimal "Infinity"),
    ("-Infinity", .decimal "-Infinity")]
  words.findSome? fun (word, v) => (afterWord? word cs).map fun rest => (v, rest)

mutual
def readValue? : Nat → List Char → Option (Json × List Char)
  | 0, _ => none
  | fuel + 1, cs =>
    match cs with
    | '"' :: rest => do
      let (s, rest) ← readString? (fuel + 1) [] rest
      some (.str s, rest)
    | '[' :: rest =>
      match skipBlanks rest with
      | ']' :: rest => some (.arr [], rest)
      | rest => do
        let (vs, rest) ← readItems? fuel rest
        some (.arr vs, rest)
    | '\x7b' :: rest =>
      match skipBlanks rest with
      | '\x7d' :: rest => some (.obj [], rest)
      | rest => do
        let (fs, rest) ← readFields? fuel [] rest
        some (.obj fs, rest)
    | '-' :: rest => (readNumber? ['-'] rest).or (readWord? cs)
    | _ => (readNumber? [] cs).or (readWord? cs)

def readItems? : Nat → List Char → Option (List Json × List Char)
  | 0, _ => none
  | fuel + 1, cs => do
    let (v, rest) ← readValue? fuel cs
    match skipBlanks rest with
    | ']' :: rest => some ([v], rest)
    | ',' :: rest =>
      let (vs, rest) ← readItems? fuel (skipBlanks rest)
      some (v :: vs, rest)
    | _ => none

/-- Reads the fields of an object up to its closing brace, after those in `acc`. -/
def readFields? : Nat → List (String × Json) → List Char → Option (List (String × Json) × List Char)
  | 0, _, _ => none
  | fuel + 1, acc, cs =>
    match cs with
    | '"' :: rest => do
      let (key, rest) ← readString? (fuel + 1) [] rest
      match skipBlanks rest with
      | ':' :: rest =>
        let (v, rest) ← readValue? fuel (skipBlanks rest)
        let acc := setField key v acc
        match skipBlanks rest with
        | '\x7d' :: rest => some (acc, rest)
        | ',' :: rest => readFields? fuel acc (skipBlanks rest)
        | _ => none
      | _ => none
    | _ => none
end

def parse? (s : String) : Option Json :=
  let cs := s.toList
  match readValue? (2 * cs.length + 1) (skipBlanks cs) with
  | some (v, rest) => if (skipBlanks rest).isEmpty then some v else none
  | none => none

end Transpiler.Json
