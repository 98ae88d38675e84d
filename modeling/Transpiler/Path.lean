import Transpiler.Text.Lines

/-!
# File names

A file name is a list of components between slashes. A name is put into normal form on its
components, where `..` takes back the component before it.
-/

namespace Transpiler.Path

/-- The number of slashes that a name in normal form starts with: two at the start are kept. -/
def rootSlashes (path : String) : Nat :=
  match path.toList with
  | '/' :: '/' :: '/' :: _ => 1
  | '/' :: '/' :: _ => 2
  | '/' :: _ => 1
  | _ => 0

def components (path : String) : List String :=
  (Text.splitOn '/' path).filter fun c => c != "" && c != "."

def addComponent (rooted : Bool) (before : List String) (c : String) : List String :=
  if c != ".." then c :: before
  else match before with
    | [] => if rooted then [] else [".."]
    | ".." :: _ => ".." :: before
    | _ :: rest => rest

def slashes (n : Nat) : String := String.ofList (List.replicate n '/')

def normalize (path : String) : String :=
  let root := rootSlashes path
  let cs := ((components path).foldl (addComponent (root > 0)) []).reverse
  let text := slashes root ++ "/".intercalate cs
  if text == "" then "." else text

def join (dir path : String) : String :=
  if path.toList.head? == some '/' then path
  else if dir == "" || dir.toList.getLast? == some '/' then dir ++ path
  else dir ++ "/" ++ path

def splitLast (path : String) : List Char × String :=
  let tail := path.toList.reverse.takeWhile (· != '/')
  let head := path.toList.reverse.dropWhile (· != '/')
  (head.reverse, String.ofList tail.reverse)

/-- The directory of a name: what stands before its last component. A root stays as it is. -/
def dirname (path : String) : String :=
  let head := (splitLast path).1
  let bare := (head.reverse.dropWhile (· == '/')).reverse
  String.ofList (if bare.isEmpty then head else bare)

def basename (path : String) : String := (splitLast path).2

def parent (path : String) : String := dirname (normalize path)

/-- A name and its extension. Dots at the start of the last component do not begin one. -/
def splitExtension (path : String) : String × String :=
  let (head, base) := splitLast path
  let dots := base.toList.takeWhile (· == '.')
  let rest := base.toList.dropWhile (· == '.')
  if rest.contains '.' then
    let back := rest.reverse
    let extension := '.' :: (back.takeWhile (· != '.')).reverse
    let stem := (back.dropWhile (· != '.')).drop 1
    (String.ofList (head ++ dots ++ stem.reverse), String.ofList extension)
  else (path, "")

/-- A name without empty components and `.`; unlike the normal form it keeps every `..`. -/
def tidy (path : String) : String :=
  let text := slashes (rootSlashes path) ++ "/".intercalate (components path)
  if text == "" then "." else text

def within (dir name : String) : String :=
  if dir == "." then name else if name == "." then dir else join dir name

/-- The last extension of a component; dots at the start or the end do not begin one. -/
def suffix (name : String) : String :=
  let back := name.toList.reverse
  let tail := back.takeWhile (· != '.')
  let head := back.dropWhile (· != '.')
  if tail.isEmpty || head.length < 2 then "" else String.ofList ('.' :: tail.reverse)

def maxOctets : Nat := 4095

def maxComponentOctets : Nat := 255

/-- Whether no file can have a name, because it or a component of it is too long. -/
def isTooLong (path : String) : Bool :=
  path.utf8ByteSize > maxOctets || (components path).any (·.utf8ByteSize > maxComponentOctets)

def absolute (cwd path : String) : String := normalize (join cwd path)

/-- The components that two names start with in common are left out of both. -/
def dropCommon : List String → List String → List String × List String
  | a :: as, b :: bs => if a == b then dropCommon as bs else (a :: as, b :: bs)
  | as, bs => (as, bs)

/-- The name by which a file is reached from a directory, both given absolutely. -/
def relative (path start : String) : String :=
  let (up, down) := dropCommon (components start) (components path)
  let cs := up.map (fun _ => "..") ++ down
  if cs.isEmpty then "." else "/".intercalate cs

/-- The files that a compilation writes, and the names by which they refer to others. -/
structure Targets where
  script : String
  map : String
  source : String
  mapFromScript : String
  deriving Inhabited, Repr, DecidableEq

/-- The targets of a source file. The script stands beside the source, in the directory that is
given, or where it is told to; the map stands beside the script unless it is told otherwise. -/
def targets (cwd : String) (isDir : String → Bool) (src : String) (dst map : Option String) :
    Targets :=
  let src := absolute cwd src
  let name := basename (splitExtension src).1 ++ ".js"
  let (script, dir) := match dst with
    | some "" | none => (join (dirname src) name, dirname src)
    | some d =>
      if isDir d then (join (absolute cwd d) name, absolute cwd d)
      else (absolute cwd d, dirname (absolute cwd d))
  let map := match map with
    | some "" | none => script ++ ".map"
    | some m => absolute cwd m
  ⟨script, map, relative src (dirname map), relative map dir⟩

end Transpiler.Path
