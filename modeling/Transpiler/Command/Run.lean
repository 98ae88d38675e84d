import Transpiler.Command.World

/-!
# Running the command

A command line either compiles a text that it holds, or files and whole directories. A fault ends the
command with a report, or, if debugging is on, as itself.
-/

namespace Transpiler.Command

open Compile (SourceText)
open Act

structure Failure where
  fault : Fault
  file : Option String

abbrev Job (α : Type) := EStateM Failure World α

def concerning (file : Option String) (step : Act α) : Job α := fun w =>
  match step w with
  | .ok a w => .ok a w
  | .error fault w => .error ⟨fault, file⟩ w

/-- The line that reports a fault. A mistake in the source has no wording. -/
def report (fault : Fault) : String :=
  match fault with
  | .notSource => fault.kind
  | _ => fault.kind ++ ": " ++ fault.message

/-! ### Files -/

def compileReported (o : Options) (src : String) (dst : Option String) : Job Unit :=
  concerning (some src) do
    compileAs o src dst
    printLine ("Compiled file " ++ src)

def sortEntries (disk : Disk) (dir : String) : List String × List String :=
  let names := (disk.list dir).filter fun n => n != "__pycache__" && n != "__init__.py"
  let paths := names.map fun n => (n, Path.within dir n)
  let dirs := paths.filter fun (_, p) => disk.isDir p
  let files := paths.filter fun (n, p) => !disk.isDir p && Path.suffix n == ".py"
  (files.map (·.2), dirs.map (·.2))

def prepareDir (dst : String) : Act Unit := do
  if Path.isTooLong dst then throw (.nameTooLong dst)
  if !(← get).disk.hasAny dst then onDisk (·.makeDir dst)

/-- Compiles the files of some directories and of those inside them, nearer ones first. A directory
is given with the one that its output goes to. `fuel` bounds how many there are. -/
def compileDirs (o : Options) : Nat → List (String × Option String) → Job Unit
  | 0, _ => pure ()
  | _, [] => pure ()
  | fuel + 1, (dir, dst) :: rest => do
    concerning none (dst.forM prepareDir)
    let (files, dirs) := sortEntries (← get).disk dir
    files.forM fun f => compileReported o f dst
    let inner := dirs.map fun d => (d, dst.map (Path.within · (Path.basename d)))
    compileDirs o fuel (rest ++ inner)

/-- How many directories can be visited. Output that goes into a directory under the source is itself
visited, with a longer name each time, until no name can be longer. -/
def dirLimit (disk : Disk) : Nat :=
  (disk.root.dirCount + 2) * (Path.maxOctets + 1)

def compileDir (o : Options) (src : String) : Job Bool := do
  let dst := match o.output with
    | some "" | none => none
    | some d => some (Path.tidy d)
  let disk := (← get).disk
  let isTaken := match dst with
    | some d => src != d && disk.hasAny d && !disk.isDir d
    | none => false
  if isTaken then
    concerning none (printError "Source is a directory but output exists and it isn't")
    return false
  compileDirs o (dirLimit disk) [(src, dst)]
  return true

/-- Compiles what the command line names, up to the first that cannot be. The result is the exit
code. -/
def compileFiles (o : Options) (exit : Nat) : List String → Job Nat
  | [] => pure exit
  | name :: rest => do
    let disk := (← get).disk
    if !disk.hasAny name then
      concerning none (printError ("Skipping non existent file '" ++ Path.tidy name ++ "'"))
      compileFiles o exit rest
    else if disk.isDir name then
      if ← compileDir o (Path.tidy name) then compileFiles o exit rest else return 1
    else
      compileReported o name o.output
      compileFiles o exit rest

/-! ### Texts -/

def compileGiven (o : Options) (s : SourceText) : Act Unit := do
  let code ← compileString o s
  let result ← if o.eval then ofEngine (Engine.runScript (.ofJson code) true []) else pure code
  printLine (match result with
    | .str text => text
    | v => v.render)

/-- Prints what is shown of the tree of a text. A text with a margin has no tree. -/
def dumpTree (s : SourceText) : Act Unit :=
  match s.tree with
  | none => throw .notSource
  | some body =>
    if !body.isEmpty && Text.hasMargin s.text then throw .notSource else printLine ""

/-! ### The command -/

inductive Ending where
  | exit (code : Nat)
  | fault (f : Fault)
  deriving Inhabited

def finish (o : Options) (what : Failure → String) (job : Job Nat) (w : World) : Ending × World :=
  match job w with
  | .ok code w => (.exit code, w)
  | .error f w =>
    if o.debug then (.fault f.fault, w)
    else (.exit 1, (w.complain (what f)).complain (report f.fault))

def Failure.context (f : Failure) : String :=
  match f.file with
  | some file => "An error occurred while compiling source file '" ++ file ++ "'"
  | none => "An error occurred during processing."

def runText (o : Options) (s : SourceText) (w : World) : Ending × World :=
  match (if o.dumpTree then dumpTree s else pure ()) w with
  | .error fault w => (.fault fault, w)
  | .ok _ w =>
    finish o (fun _ => "An error occurred while compiling source from string")
      (concerning none ((fun _ => 0) <$> compileGiven o s)) w

/-- Runs the command with options. `given` is the text that goes with the option for it. -/
def runOptions (o : Options) (given : SourceText) (w : World) : Ending × World :=
  let named (s : Option String) : Bool := s.isSome && s != some ""
  let idle := o.files.isEmpty && !named o.string
  let exit := if idle then 3 else 0
  let w := if idle then
      w.complain "Error: You have to supply either a string with -s or a filename"
    else w
  if o.eval && !named o.string then
    (.exit exit, w.complain "Error: You have to supply a string with -s when using evaluation")
  else if named o.string then runText o given w
  else if named o.output && o.files.length > 1 then
    (.exit 2, w.complain "Error: only one source file is allowed when --output is specified.")
  else finish o Failure.context (compileFiles o exit o.files) w

/-- Runs the command. `stdin` is the standard input, and `tree` the tree of the text that is given
on the command line or there. -/
def run (argv : List String) (stdin : String) (tree : Option (List Source.Stmt)) (w : World) : Ending × World :=
  match parseArguments argv with
  | .error .usage => (.exit 2, w)
  | .error .help => (.exit 0, w)
  | .ok o =>
    let text := if o.string == some "-" then stdin else o.string.getD ""
    runOptions o (.ofText text tree) w

end Transpiler.Command
