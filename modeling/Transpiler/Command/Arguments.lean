/-!
# Arguments of the command

How the words of a command line are read. A word that starts with a dash is an option if it is the
name of one, a name with a value after an equals sign, the unambiguous start of a long name, or a
letter with more letters or a value directly after it. Files are taken from one unbroken row of words
only.
-/

namespace Transpiler.Command

inductive Flag where
  | help | noEs6 | noStage3 | es5 | runtime | output | debug | postMortem | string | eval | dumpTree
  | inlineMap | sourceName
  deriving Inhabited, Repr, DecidableEq

def Flag.names : List (String × Flag) :=
  [("-h", .help), ("--help", .help), ("--disable-es6", .noEs6), ("--disable-stage3", .noStage3),
    ("-5", .es5), ("--es5", .es5), ("--transform-runtime", .runtime), ("-o", .output),
    ("--output", .output), ("-d", .debug), ("--debug", .debug), ("--pdb", .postMortem),
    ("-s", .string), ("--string", .string), ("-e", .eval), ("--eval", .eval),
    ("--dump-ast", .dumpTree), ("--inline-map", .inlineMap), ("--source-name", .sourceName)]

def Flag.ofName? (name : String) : Option Flag :=
  (Flag.names.find? (·.1 == name)).map (·.2)

def Flag.takesValue : Flag → Bool
  | .output | .string | .sourceName => true
  | _ => false

structure Options where
  files : List String
  es6 : Bool
  stage3 : Bool
  es5 : Bool
  runtime : Bool
  output : Option String
  debug : Bool
  string : Option String
  eval : Bool
  dumpTree : Bool
  inlineMap : Bool
  sourceName : Option String
  deriving Inhabited, Repr, DecidableEq

def Options.start : Options :=
  ⟨[], true, true, false, false, none, false, none, false, false, false, none⟩

def Options.apply (o : Options) (value : String) : Flag → Options
  | .help | .postMortem => o
  | .noEs6 => { o with es6 := false }
  | .noStage3 => { o with stage3 := false }
  | .es5 => { o with es5 := true }
  | .runtime => { o with runtime := true }
  | .output => { o with output := some value }
  | .debug => { o with debug := true }
  | .string => { o with string := some value }
  | .eval => { o with eval := true }
  | .dumpTree => { o with dumpTree := true }
  | .inlineMap => { o with inlineMap := true }
  | .sourceName => { o with sourceName := some value }

/-! ### Words -/

inductive Word where
  | plain (s : String)
  | mark
  /-- An option by its name, with a value attached to it. -/
  | option (name : String) (f : Flag) (value : Option String)
  | unknown
  deriving Inhabited, Repr, DecidableEq

inductive Rejection where
  | usage
  | help
  deriving Inhabited, Repr, DecidableEq

/-- The part of a word before its first equals sign and the part after it. -/
def splitValue (cs : List Char) : String × Option String :=
  let name := cs.takeWhile (· != '=')
  match cs.dropWhile (· != '=') with
  | [] => (String.ofList name, none)
  | _ :: value => (String.ofList name, some (String.ofList value))

/-- The options that a word may abbreviate, with the values attached to them. -/
def abbreviated (cs : List Char) : List Word :=
  match cs with
  | '-' :: '-' :: _ =>
    let (start, value) := splitValue cs
    Flag.names.filterMap fun (name, f) =>
      if start.toList.isPrefixOf name.toList then some (.option name f value) else none
  | _ =>
    let letter := String.ofList (cs.take 2)
    Flag.names.filterMap fun (name, f) =>
      if name == letter then some (.option name f (some (String.ofList (cs.drop 2)))) else none

def Word.ofString (s : String) : Except Rejection Word :=
  let cs := s.toList
  match cs with
  | '-' :: _ :: _ =>
    match Flag.ofName? s, splitValue cs with
    | some f, _ => .ok (.option s f none)
    | none, (name, value) =>
      match value, Flag.ofName? name with
      | some value, some f => .ok (.option name f (some value))
      | _, _ =>
        match abbreviated cs with
        | [w] => .ok w
        | _ :: _ :: _ => .error .usage
        | [] => .ok (if cs.contains ' ' then .plain s else .unknown)
  | _ => .ok (.plain s)

def classify : List String → Except Rejection (List Word)
  | [] => .ok []
  | "--" :: rest => .ok (.mark :: rest.map .plain)
  | s :: rest => do
    let w ← Word.ofString s
    return w :: (← classify rest)

/-! ### Reading -/

structure Reading where
  options : Options
  hasFiles : Bool
  /-- Whether the words read last are a row of files that is still open. -/
  inRow : Bool
  /-- Whether there was a word that is not understood. -/
  isWrong : Bool
  wantsHelp : Bool

def Reading.set (r : Reading) (value : String) (f : Flag) : Reading :=
  { r with options := r.options.apply value f, wantsHelp := r.wantsHelp || f == .help }

def Reading.takeFile (r : Reading) (s : String) : Reading :=
  if r.inRow then { r with options := { r.options with files := r.options.files ++ [s] } }
  else if r.hasFiles then { r with isWrong := true }
  else { r with
    hasFiles := true
    inRow := true
    options := { r.options with files := [s] } }

def Reading.takeMark (r : Reading) : Reading :=
  if r.inRow then r
  else if r.hasFiles then { r with isWrong := true }
  else { r with hasFiles := true, inRow := true }

/-- Takes an option with the characters attached to it: its value, or further letters after a
letter. The result says which option waits for the next word. -/
def Reading.takeOption (r : Reading) (isLong : Bool) (f : Flag) :
    Option (List Char) → Except Rejection (Reading × Option Flag)
  | none => .ok (if f.takesValue then (r, some f) else (r.set "" f, none))
  | some cs =>
    if f.takesValue then .ok (r.set (String.ofList cs) f, none)
    else if isLong then .error .usage
    else match cs with
      | [] => .error .usage
      | c :: rest =>
        match Flag.ofName? (String.ofList ['-', c]) with
        | none => .error .usage
        | some g => (r.set "" f).takeOption false g (if rest.isEmpty then none else some rest)
termination_by cs => (cs.map (·.length + 1)).getD 0
decreasing_by cases rest <;> simp_all

def readWords (r : Reading) : List Word → Except Rejection Reading
  | [] => .ok r
  | .plain s :: rest => readWords (r.takeFile s) rest
  | .mark :: rest => readWords r.takeMark rest
  | .unknown :: rest => readWords { r with inRow := false, isWrong := true } rest
  | .option name f value :: rest => do
    let isLong := ['-', '-'].isPrefixOf name.toList
    let (r, waiting) ← { r with inRow := false }.takeOption isLong f (value.map String.toList)
    match waiting, rest with
    | none, rest => if r.wantsHelp then .error .help else readWords r rest
    | some f, .plain s :: rest =>
      if r.wantsHelp then .error .help else readWords (r.set s f) rest
    | some _, _ => .error .usage

def parseArguments (argv : List String) : Except Rejection Options := do
  let r ← readWords ⟨.start, false, false, false, false⟩ (← classify argv)
  if r.isWrong then throw .usage
  return r.options

end Transpiler.Command
