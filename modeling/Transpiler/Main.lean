import Transpiler.Command.Bundle

/-!
# The command line

The command reads a bundle from the standard input: the field `files` has the files with their trees,
`dirs` the directories without files, `stdin` the text for `-s -`, and `ast` the tree of a text that
is given by `-s`. It prints what it has to say, and then, as one line, the files that it wrote. No
engine is attached, so that a conversion to ES5 gets no answer.
-/

namespace Transpiler.Command

/-- What a run of the command prints, and its exit code. -/
structure Report where
  out : String
  err : String
  code : Nat

def runBundle (argv : List String) (bundle : Json) : Report :=
  let disk := Disk.ofJson "/" (bundle.getD "files") (bundle.getD "dirs")
  let stdin := ((bundle.getD "stdin").str?).getD ""
  let (ending, w) := run argv stdin (treeOf (bundle.getD "ast")) ⟨disk, .start "" "" [], "", ""⟩
  let out := w.out ++ (disk.changesJson w.disk).render ++ "\n"
  match ending with
  | .exit code => ⟨out, w.err, code⟩
  | .fault f => ⟨out, (w.complain (report f)).err, 1⟩

end Transpiler.Command

def main (argv : List String) : IO UInt32 := do
  let input ← (← IO.getStdin).readToEnd
  let r := Transpiler.Command.runBundle argv ((Transpiler.Json.parse? input).getD .null)
  (← IO.getStdout).putStr r.out
  (← IO.getStderr).putStr r.err
  return r.code.toUInt32
