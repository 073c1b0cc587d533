import Declass.Text

/-!
# Paths

**Input.** Paths as text with slashes between their parts.

**Results.** Paths are joined as text, and nothing in them is resolved.  They are compared by their
parts: repeated slashes, slashes at the end and dots that do not stand in front make no difference,
while two dots are a part of their own.  A file name splits into its stem and its extension.
-/

namespace Declass
namespace Path

/-- A part of a path: the root, a dot in front, two dots, or a name. -/
inductive Part where
  | root
  | here
  | up
  | name (n : Text)
  deriving DecidableEq, Repr

def isAbsolute (p : Text) : Bool := p.head? == some '/'

/-- The path `p` seen from the directory `base`. -/
def join (base p : Text) : Text :=
  if isAbsolute p then p
  else if base.isEmpty || base.getLast? == some '/' then base ++ p
  else base ++ "/" ++ p

/-- The names of a location below a directory, as a path. -/
def ofNames (names : List Text) : Text := Text.join "/" names

/-- The part that a piece between slashes stands for. -/
def partOf? (piece : Text) : Option Part :=
  if piece.isEmpty || piece == "." then none
  else if piece == ".." then some .up
  else some (.name piece)

def parts (p : Text) : List Part :=
  let pieces := Text.splitOn '/' p
  let front : List Part :=
    if isAbsolute p then [.root] else if pieces.head? == some "." then [.here] else []
  front ++ pieces.filterMap partOf?

def Part.text : Part → Text
  | .root => []
  | .here => "."
  | .up => ".."
  | .name n => n

def ofParts : List Part → Text
  | .root :: ps => "/" ++ Text.join "/" (ps.map Part.text)
  | ps => Text.join "/" (ps.map Part.text)

/-- Whether `p` lies in the directory `dir` or is that directory, going by their parts. -/
def isUnder (p dir : Text) : Bool := (parts dir).isPrefixOf (parts p)

def isSame (p q : Text) : Bool := parts p == parts q

/-- The name at the end of a path, if there is one. -/
def fileName? (p : Text) : Option Text :=
  match (parts p).getLast? with
  | some (.name n) => some n
  | _ => none

/-- The stem of a file name, and the extension behind its last dot.  A dot in front starts no
extension. -/
def splitName (name : Text) : Text × Option Text :=
  let back := name.reverse
  let extension := (back.takeWhile (· != '.')).reverse
  let stem := ((back.dropWhile (· != '.')).drop 1).reverse
  if stem.isEmpty then (name, none) else (stem, some extension)

/-- The extension of the name at the end of a path. -/
def extension? (p : Text) : Option Text := do (splitName (← fileName? p)).2

def stem (p : Text) : Text :=
  match fileName? p with
  | some name => (splitName name).1
  | none => []

/-- The path without its last part; nothing for the root and the empty path. -/
def parent? (p : Text) : Option Text :=
  match (parts p).reverse with
  | [] | [.root] => none
  | _ :: ps => some (ofParts ps.reverse)

end Path
end Declass
