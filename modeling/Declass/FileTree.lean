import Declass.OsError
import Declass.Path

/-!
# File trees

**Input.** A tree of directories and files without links, and absolute paths into it.

**Algorithm.** A path is followed piece by piece: each piece needs a directory to start from, an
empty piece and a dot stay there, and two dots go up.  Making a directory makes those above it
first.

**Results.** The operations on files with the errors that an operating system gives, and the changes
between two trees.
-/

namespace Declass

/-- Where an entry lies: the names from the root down. -/
abbrev Location := List Text

/-- Whether `l` comes no later than `m` in the order name by name. -/
def Location.notAfter : Location → Location → Bool
  | [], _ => true
  | _ :: _, [] => false
  | a :: l, b :: m => if a == b then notAfter l m else Text.notAfter a b

/-- What a file holds: text, or bytes that are no text. -/
inductive Content where
  | text (t : Text)
  | raw (bytes : List UInt8)
  deriving DecidableEq, Repr

/-- A directory or a file. -/
inductive Entry where
  | directory
  | file (content : Content)
  deriving DecidableEq, Repr

/-- The entries of a tree below its root. -/
structure FileTree where
  entries : List (Location × Entry)
  deriving DecidableEq, Repr

namespace FileTree

def empty : FileTree := ⟨[]⟩

section Locations

def entry? (t : FileTree) (l : Location) : Option Entry :=
  if l.isEmpty then some .directory else t.entries.lookup l

def put (t : FileTree) (l : Location) (e : Entry) : FileTree :=
  if (t.entries.lookup l).isSome then
    ⟨t.entries.map fun entry => if entry.1 == l then (l, e) else entry⟩
  else ⟨t.entries ++ [(l, e)]⟩

/-- Without the entries at the locations with property `p`. -/
def eraseAll (t : FileTree) (p : Location → Bool) : FileTree :=
  ⟨t.entries.filter fun entry => !p entry.1⟩

/-- The location below `base`, if `l` lies there. -/
def below? (base l : Location) : Option Location :=
  if base.isPrefixOf l && base.length < l.length then some (l.drop base.length) else none

def fileAt? (t : FileTree) (l : Location) : Option Content :=
  match t.entry? l with
  | some (.file content) => some content
  | _ => none

/-- The files below a location, as locations seen from there, in the order of their names. -/
def filesBelow (t : FileTree) (base : Location) : List Location :=
  let files := t.entries.filterMap fun entry =>
    match entry.2 with
    | .file _ => below? base entry.1
    | .directory => none
  files.mergeSort Location.notAfter

end Locations

section Paths

/-- The location that the pieces of a path lead to. -/
def follow (t : FileTree) : Location → List Text → Except OsError Location
  | l, [] => .ok l
  | l, piece :: pieces =>
    match t.entry? l with
    | none => .error .notFound
    | some (.file _) => .error .notADirectory
    | some .directory =>
      if piece.isEmpty || piece == "." then follow t l pieces
      else if piece == ".." then follow t l.dropLast pieces
      else follow t (l ++ [piece]) pieces

/-- The location of a path, whether there is an entry or not. -/
def locate (t : FileTree) (path : Text) : Except OsError Location :=
  follow t [] (Text.splitOn '/' path)

def entryAt? (t : FileTree) (path : Text) : Option Entry :=
  match t.locate path with
  | .ok l => t.entry? l
  | .error _ => none

def isDirectory (t : FileTree) (path : Text) : Bool := t.entryAt? path == some .directory

def read (t : FileTree) (path : Text) : Except OsError Text := do
  match t.entry? (← t.locate path) with
  | none => throw .notFound
  | some .directory => throw .isADirectory
  | some (.file (.raw _)) => throw .invalidText
  | some (.file (.text content)) => return content

def write (t : FileTree) (path content : Text) : Except OsError FileTree := do
  let l ← t.locate path
  if t.entry? l == some .directory then throw .isADirectory
  return t.put l (.file (.text content))

/-- With a directory at a path, in a directory that is there.  Slashes at the end do not count. -/
def makeDirectory (t : FileTree) (path : Text) : Except OsError FileTree := do
  let l ← t.locate (path.reverse.dropWhile (· == '/')).reverse
  if (t.entry? l).isSome then throw .alreadyExists
  return t.put l .directory

/-- With a directory at a path that is a directory already or can be made. -/
def ensureDirectory (t : FileTree) (path : Text) : FileTree × Option OsError :=
  match t.makeDirectory path with
  | .ok t => (t, none)
  | .error e => (t, if t.isDirectory path then none else some e)

/-- With a directory at a path of at most `depth` parts, and the directories above it. -/
def makeDirectoriesTo : Nat → FileTree → Text → FileTree × Option OsError
  | 0, t, path => t.ensureDirectory path
  | depth + 1, t, path =>
    match t.makeDirectory path, Path.parent? path with
    | .error .notFound, some above =>
      match makeDirectoriesTo depth t above with
      | (t, none) => t.ensureDirectory path
      | (t, some e) => (t, some e)
    | _, _ => t.ensureDirectory path

/-- With a directory at a path, and the directories above it.  What could be made stays when a part
of it fails. -/
def makeDirectories (t : FileTree) (path : Text) : FileTree × Option OsError :=
  makeDirectoriesTo (Path.parts path).length t path

end Paths

section Changes

/-- What has become of a tree: the files with new content, the files that are gone, and the
directories that are new. -/
structure Changes where
  written : List (Location × Content)
  removed : List Location
  madeDirectories : List Location
  deriving DecidableEq, Repr

/-- What has become of the tree `before`. -/
def changes (before after : FileTree) : Changes where
  written := after.entries.filterMap fun (l, e) =>
    match e with
    | .file content => if before.fileAt? l == some content then none else some (l, content)
    | .directory => none
  removed := before.entries.filterMap fun (l, e) =>
    match e with
    | .file _ => if (after.fileAt? l).isNone then some l else none
    | .directory => none
  madeDirectories := after.entries.filterMap fun (l, e) =>
    match e with
    | .file _ => none
    | .directory => if before.entry? l == some .directory then none else some l

end Changes

end FileTree

end Declass
