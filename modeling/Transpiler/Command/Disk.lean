import Transpiler.Fault
import Transpiler.Path
import Transpiler.Source.Names

/-!
# Files and directories

The files that the command sees, as a value. A directory is a list of names, each with the file or
the directory that it stands for; what is inside is reached by following a row of names from the
root (`FileTree.find?`) and changed in the same way (`FileTree.put?`). A file name of the command is
turned into such a row first (`Disk.locate?`).
-/

namespace Transpiler.Command

/-- A file with a text and, if it is well-formed source, its statements without the margin. -/
structure Document where
  text : String
  tree : Option (List Source.Stmt)
  deriving Inhabited

inductive FileTree where
  | file (doc : Document)
  | dir (entries : List (String × FileTree))
  deriving Inhabited

namespace FileTree

def isDir : FileTree → Bool
  | dir _ => true
  | file _ => false

def document? : FileTree → Option Document
  | file doc => some doc
  | dir _ => none

def entries : FileTree → List (String × FileTree)
  | dir es => es
  | file _ => []

def child? (name : String) (t : FileTree) : Option FileTree :=
  (t.entries.find? (·.1 == name)).map (·.2)

def find? : List String → FileTree → Option FileTree
  | [], t => some t
  | name :: rest, t => (t.child? name).bind (find? rest)

/-- Entries with one of them set: in its place if the name is there, at the end if not. -/
def setEntry (name : String) (t : FileTree) : List (String × FileTree) → List (String × FileTree)
  | [] => [(name, t)]
  | (n, u) :: rest => if n = name then (n, t) :: rest else (n, u) :: setEntry name t rest

/-- Puts something under the last of a row of names. The names before it must lead to a
directory. -/
def put? (new : FileTree) : List String → FileTree → Option FileTree
  | _, file _ | [], _ => none
  | [name], dir es => some (dir (setEntry name new es))
  | name :: rest, dir es => do
    let inner ← (dir es).child? name
    return dir (setEntry name (← put? new rest inner) es)

/-- Whether a file stands on the way along a row of names, or at its end. -/
def meetsFile : List String → FileTree → Bool
  | _, file _ => true
  | [], dir _ => false
  | name :: rest, dir es => (((dir es).child? name).map (meetsFile rest)).getD false

def ensure : List String → FileTree → FileTree
  | _, file doc => file doc
  | [], t => t
  | name :: rest, dir es =>
    dir (setEntry name (ensure rest (((dir es).child? name).getD (dir []))) es)

mutual
/-- The files in a tree, each with the row of names that leads to it. `above` is the row that leads
to the tree, in reverse. -/
def files (above : List String) : FileTree → List (List String × Document)
  | file doc => [(above.reverse, doc)]
  | dir es => filesOf above es

def filesOf (above : List String) : List (String × FileTree) → List (List String × Document)
  | [] => []
  | (name, t) :: rest => files (name :: above) t ++ filesOf above rest
end

mutual
def dirCount : FileTree → Nat
  | file _ => 0
  | dir es => dirCountOf es + 1

def dirCountOf : List (String × FileTree) → Nat
  | [] => 0
  | (_, t) :: rest => dirCount t + dirCountOf rest
end

end FileTree

/-- Files and directories, and where the command stands in them. -/
structure Disk where
  cwd : String
  root : FileTree
  deriving Inhabited

namespace Disk

/-- Follows the components of a name. `back` is the row of names that was followed, in reverse.
Only a directory can be left again. -/
def follow (root : FileTree) (back : List String) : List String → Option (List String)
  | [] => some back.reverse
  | c :: rest =>
    if c = ".." then
      if ((root.find? back.reverse).map FileTree.isDir).getD false then
        follow root (back.drop 1) rest
      else none
    else follow root (c :: back) rest

/-- The row of names that a file name stands for, whether or not there is such a file. -/
def locate? (d : Disk) (path : String) : Option (List String) :=
  let start := if Path.rootSlashes path > 0 then [] else Path.components d.cwd
  follow d.root start.reverse (Path.components path)

def lookup? (d : Disk) (path : String) : Option FileTree :=
  (d.locate? path).bind fun names => d.root.find? names

def document? (d : Disk) (path : String) : Option Document :=
  (d.lookup? path).bind FileTree.document?

def isDir (d : Disk) (path : String) : Bool :=
  ((d.lookup? path).map FileTree.isDir).getD false

def hasAny (d : Disk) (path : String) : Bool :=
  (d.lookup? path).isSome

/-- Puts something where a file name says. The directory must be there, and no file may stand in
its place. -/
def put (d : Disk) (path : String) (t : FileTree) : Except Fault Disk :=
  match d.locate? path with
  | none => .error (.missingFile path)
  | some names => match FileTree.put? t names d.root with
    | some root => .ok { d with root := root }
    | none =>
      if FileTree.meetsFile names.dropLast d.root then .error (.notDirectory path)
      else .error (.missingFile path)

def makeDir (d : Disk) (path : String) : Except Fault Disk :=
  d.put path (.dir [])

/-- Writes a text to a file in a directory that is there. A directory is not written over. -/
def write (d : Disk) (path text : String) : Except Fault Disk :=
  if d.isDir path then .error (.isDirectory path) else d.put path (.file ⟨text, none⟩)

def list (d : Disk) (path : String) : List String :=
  match d.lookup? path with
  | some t => Source.sortNames (t.entries.map (·.1))
  | none => []

/-- The files of `d` that are new or have another text than in `before`, under their absolute
names. -/
def changes (before d : Disk) : List (String × String) :=
  (d.root.files []).filterMap fun (names, doc) =>
    let old := (before.root.find? names).bind FileTree.document?
    if (old.map (·.text)) == some doc.text then none
    else some ("/" ++ "/".intercalate names, doc.text)

end Disk

end Transpiler.Command
