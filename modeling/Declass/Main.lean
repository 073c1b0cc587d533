import Declass.Run

/-!
# The command line

**Input.** The words behind the program's name, and the files on disk.

**Algorithm.** The part of the disk that a run can look at is loaded into a file tree: the config
file, the input directory and the output directory, with the directories above them.  The run itself
works on that tree, and then the changes are carried out on the disk.
-/

namespace Declass
namespace Disk

/-- The tree with the entry that the disk has at a path. -/
def loadEntry (tree : FileTree) (path : Text) : IO FileTree := do
  let place := (← IO.currentDir) / String.ofList path
  match tree.locate path with
  | .error _ => return tree
  | .ok [] => return tree
  | .ok l =>
    if ← place.isDir then return tree.put l .directory
    if !(← place.pathExists) then return tree
    let bytes ← IO.FS.readBinFile place
    match String.fromUTF8? bytes with
    | some content => return tree.put l (.file (.text content.toList))
    | none => return tree.put l (.file (.raw bytes.toList))

/-- The tree with the entries on the way to a path. -/
def loadPath (tree : FileTree) (path : Text) : IO FileTree :=
  let pieces := Text.splitOn '/' path
  (List.range pieces.length).foldlM
    (fun tree n => loadEntry tree (Text.join "/" (pieces.take (n + 1)))) tree

/-- The tree with all entries below a path. -/
partial def loadBelow (tree : FileTree) (path : Text) : IO FileTree := do
  let place := (← IO.currentDir) / String.ofList path
  if !(← place.isDir) then return tree
  let mut tree := tree
  for entry in ← place.readDir do
    let inside := Path.join path entry.fileName.toList
    tree ← loadEntry tree inside
    tree ← loadBelow tree inside
  return tree

/-- The part of the disk that a run with the given arguments can look at. -/
def load (started : Text) (args : Arguments) : IO FileTree := do
  let workspace := Run.workspaceOf started args
  let tree ← loadPath (← loadPath .empty started) (Run.configPath workspace args)
  match Run.settingsOf started args tree with
  | .error _ => return tree
  | .ok s =>
    let tree ← loadBelow (← loadPath tree s.input) s.input
    loadBelow (← loadPath tree s.output) s.output

def pathOf (l : Location) : String := String.ofList ("/" ++ Path.ofNames l)

def apply (changes : FileTree.Changes) : IO Unit := do
  for l in changes.removed do
    IO.FS.removeFile (pathOf l)
  for l in changes.madeDirectories do
    IO.FS.createDir (pathOf l)
  for (l, content) in changes.written do
    match content with
    | .text t => IO.FS.writeFile (pathOf l) (String.ofList t)
    | .raw bytes => IO.FS.writeBinFile (pathOf l) ⟨bytes.toArray⟩

/-- Runs the program with the given words and gives its exit code. -/
def command (words : List Text) : IO UInt32 := do
  let started := (← IO.currentDir).toString.toList
  let tree ← match Arguments.parse words with
    | .ok args => load started args
    | .error _ => pure FileTree.empty
  let (exit, after) := Run.command started words tree
  apply (tree.changes after)
  IO.print (String.ofList exit.output)
  IO.eprint (String.ofList exit.complaint)
  return exit.code.toUInt32

end Disk
end Declass

def main (words : List String) : IO UInt32 := Declass.Disk.command (words.map String.toList)
