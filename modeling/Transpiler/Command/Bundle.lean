import Transpiler.Command.Run
import Transpiler.Source.Decode

/-!
# Bundles of files

A source goes with its tree, so the files of a command travel as one JSON value, a bundle: the texts
and trees of the files under their names, and the directories that hold nothing. What the command
wrote goes back in the same form.
-/

namespace Transpiler.Command

def treeOf (j : Json) : Option (List Source.Stmt) :=
  if j.isNull then none else Source.moduleOfJson? j

def Document.ofJson (j : Json) : Document where
  text := ((j.getD "src").str?).getD ""
  tree := treeOf (j.getD "ast")

namespace Disk

def namesIn (cwd name : String) : List String :=
  Path.components (Path.absolute cwd name)

def addFile (cwd : String) (root : FileTree) (name : String) (doc : Document) : FileTree :=
  let names := namesIn cwd name
  let root := root.ensure names.dropLast
  (FileTree.put? (.file doc) names root).getD root

def ofJson (cwd : String) (files dirs : Json) : Disk :=
  let empty := FileTree.ensure (Path.components cwd) (.dir [])
  let bare := (dirs.items.filterMap Json.str?).foldl (fun t name => t.ensure (namesIn cwd name)) empty
  let root := match files with
    | .obj entries => entries.foldl (fun t (name, j) => addFile cwd t name (.ofJson j)) bare
    | _ => bare
  ⟨cwd, root⟩

/-- The texts that are in `d` and were not in `before`, under their names in the directory of the
command. -/
def changesJson (before d : Disk) : Json :=
  .obj ((changes before d).map fun (name, text) => (Path.relative name d.cwd, .str text))

end Disk

end Transpiler.Command
