import Declass.Text

/-!
# Globs

**Input.** A pattern, and paths.

**Algorithm.** A pattern is read into tokens once.  Against the bytes of a path the tokens are taken
from left to right, with a mark at each position up to which the path can have been matched so far;
each token moves all marks at once, so the work is bounded by tokens times bytes.  The pattern
matches when the end of the path is marked at last.

**Results.** `Glob.parse` reads a pattern or gives the first `Problem` with it, and `Glob.accepts`
is the match against a whole path.

* `?` is one byte and `*` any run of bytes, slashes among them.
* `**` between slashes stands for any number of directories.  In front it is nothing, a slash, or
  anything that ends in a slash; at the end it is a slash and anything; in between it is a slash,
  or anything between two slashes.  Neighbours count once, and anywhere else it is two `*`.
* `[ab]`, `[a-z]`, and `[!a]` or `[^a]` are one byte.
* Braces hold alternatives, and an empty alternative counts for nothing.
* A backslash takes the next character as it is.
-/

namespace Declass

/-- What is wrong with a pattern. -/
inductive Glob.Problem where
  | unclosedClass
  | invalidRange (low high : Char)
  | unclosedAlternates
  | unopenedAlternates
  | danglingEscape
  deriving DecidableEq, Repr

def Glob.Problem.message : Glob.Problem → Text
  | unclosedClass => "unclosed character class; missing ']'"
  | invalidRange low high => "invalid range; '" ++ [low] ++ "' > '" ++ [high] ++ "'"
  | unclosedAlternates =>
    "unclosed alternate group; missing '\x7d' (maybe escape '\x7b' with '[\x7b]'?)"
  | unopenedAlternates =>
    "unopened alternate group; missing '\x7b' (maybe escape '\x7d' with '[\x7d]'?)"
  | danglingEscape => "dangling '\\'"

/-- A piece of a pattern. -/
inductive Glob.Token where
  | literal (c : Char)
  | one
  | many
  | dirsBefore
  | dirsAfter
  | dirsBetween
  | oneOf (negated : Bool) (ranges : List (Char × Char))
  | alternates (branches : List (List Glob.Token))
  deriving Repr

/-- A pattern as its pieces. -/
structure Glob where
  tokens : List Glob.Token
  deriving Repr

namespace Glob

section Reading

/-- An open group: the tokens before it and the alternatives that are finished, latest first. -/
structure Group where
  before : List Token
  finished : List (List Token)
  deriving Repr

/-- What has been read: the tokens of the current alternative, latest first, and the open groups,
innermost first. -/
structure Reading where
  current : List Token
  groups : List Group
  deriving Repr

namespace Reading

def start : Reading := ⟨[], []⟩

def push (r : Reading) (t : Token) : Reading := { r with current := t :: r.current }

def openGroup (r : Reading) : Reading := ⟨[], ⟨r.current, []⟩ :: r.groups⟩

/-- At the comma between two alternatives; outside of groups it stands for itself. -/
def comma (r : Reading) : Reading :=
  match r.groups with
  | [] => r.push (.literal ',')
  | g :: groups => ⟨[], { g with finished := r.current.reverse :: g.finished } :: groups⟩

def closeGroup (r : Reading) : Except Problem Reading :=
  match r.groups with
  | [] => .error .unopenedAlternates
  | g :: groups =>
    .ok ⟨.alternates (g.finished.reverse ++ [r.current.reverse]) :: g.before, groups⟩

/-- With the latest token replaced by directories, unless it stands for directories in front or at
the end already. -/
def putDirs (r : Reading) (t : Token) : Reading :=
  match r.current with
  | .dirsBefore :: _ => r
  | .dirsAfter :: _ => r
  | _ :: tokens => { r with current := t :: tokens }
  | [] => r.push t

/-- Two stars in a row, with the character before them; gives the text that is left. -/
def twoStars (r : Reading) (before : Option Char) (rest : Text) : Reading × Text :=
  let plain := ((r.push .many).push .many, rest)
  let isSlash := before == some '/'
  let opensBranch := !r.groups.isEmpty && (before == some ',' || before == some '\x7b')
  if r.current.isEmpty then
    match rest with
    | [] => (r.push .dirsBefore, [])
    | '/' :: rest => (r.push .dirsBefore, rest)
    | _ => plain
  else if !isSlash && !opensBranch then plain
  else
    match rest with
    | [] => (r.putDirs .dirsAfter, [])
    | '/' :: rest => (r.putDirs .dirsBetween, rest)
    | c :: _ =>
      if !r.groups.isEmpty && (c == ',' || c == '\x7d') then (r.putDirs .dirsAfter, rest) else plain

end Reading

/-- The rest of a class of characters with the ranges so far, latest first.  A dash makes a range of
its neighbours, and one at the end stands for itself. -/
def classRest (ranges : List (Char × Char)) (inRange : Bool) :
    Text → Except Problem (List (Char × Char) × Text)
  | [] => .error .unclosedClass
  | c :: rest =>
    if c == ']' then
      .ok ((if inRange then ('-', '-') :: ranges else ranges).reverse, rest)
    else if inRange then
      match ranges with
      | (low, _) :: others =>
        if c < low then .error (.invalidRange low c) else classRest ((low, c) :: others) false rest
      | [] => classRest [(c, c)] false rest
    else if c == '-' then classRest ranges true rest
    else classRest ((c, c) :: ranges) false rest

/-- The class behind its opening bracket.  Its first character stands for itself. -/
def classToken (t : Text) : Except Problem (Token × Text) := do
  let negated := t.head? == some '!' || t.head? == some '^'
  match if negated then t.drop 1 else t with
  | [] => throw .unclosedClass
  | c :: rest =>
    let (ranges, rest) ← classRest [(c, c)] false rest
    return (.oneOf negated ranges, rest)

/-- Reads the text behind the character `before`, in at most `count` pieces. -/
def readFrom : Nat → Reading → Option Char → Text → Except Problem Reading
  | 0, r, _, _ => .ok r
  | _ + 1, r, _, [] => .ok r
  | count + 1, r, before, c :: rest =>
    if c == '?' then readFrom count (r.push .one) (some c) rest
    else if c == '*' then
      match rest with
      | '*' :: rest =>
        let (r, left) := r.twoStars before rest
        readFrom count r (some (if left.length < rest.length then '/' else '*')) left
      | _ => readFrom count (r.push .many) (some c) rest
    else if c == '[' then do
      let (token, rest) ← classToken rest
      readFrom count (r.push token) (some ']') rest
    else if c == '\x7b' then readFrom count r.openGroup (some c) rest
    else if c == '\x7d' then do readFrom count (← r.closeGroup) (some c) rest
    else if c == ',' then readFrom count r.comma (some c) rest
    else if c == '\\' then
      match rest with
      | [] => .error .danglingEscape
      | d :: rest => readFrom count (r.push (.literal d)) (some d) rest
    else readFrom count (r.push (.literal c)) (some c) rest

def parse (pattern : Text) : Except Problem Glob := do
  let r ← readFrom pattern.length Reading.start none pattern
  if r.groups.isEmpty then return ⟨r.current.reverse⟩ else throw .unclosedAlternates

end Reading

section Matching

def bytesOf (c : Char) : List UInt8 := String.utf8EncodeChar c

/-- The ranges of bytes that a range of characters stands for.  Of characters with several bytes
only the last byte of the low end and the first byte of the high end span a range. -/
def byteRanges (range : Char × Char) : List (UInt8 × UInt8) :=
  let low := bytesOf range.1
  let single (b : UInt8) : UInt8 × UInt8 := (b, b)
  if range.1 == range.2 then low.map single
  else
    match bytesOf range.2 with
    | [] => []
    | first :: others =>
      low.dropLast.map single ++ [(low.getLastD first, first)] ++ others.map single

def inByteRanges (ranges : List (Char × Char)) (b : UInt8) : Bool :=
  (ranges.flatMap byteRanges).any fun (low, high) => low ≤ b && b ≤ high

/-- For each position of a path, from its start to its end, whether the tokens so far can match up
to there. -/
abbrev Marks := List Bool

def Marks.start (path : List UInt8) : Marks := true :: path.map fun _ => false

/-- Each mark moved over one byte with property `p`. -/
def Marks.over (p : UInt8 → Bool) (path : List UInt8) (marks : Marks) : Marks :=
  false :: List.zipWith (fun b mark => mark && p b) path marks

def Marks.overBytes (path : List UInt8) : List UInt8 → Marks → Marks
  | [], marks => marks
  | b :: bytes, marks => overBytes path bytes (Marks.over (· == b) path marks)

/-- Each mark moved over any run of bytes, given whether a mark came before. -/
def Marks.onward : Bool → Marks → Marks
  | _, [] => []
  | seen, mark :: marks => (seen || mark) :: onward (seen || mark) marks

def Marks.union (marks others : Marks) : Marks := List.zipWith (· || ·) marks others

def Marks.overSlash (path : List UInt8) (marks : Marks) : Marks :=
  overBytes path (bytesOf '/') marks

mutual

/-- Whether a token stands for no text at all, as a group of empty alternatives does. -/
def isVoid : Token → Bool
  | .alternates branches => areVoidBranches branches
  | _ => false

def areVoid : List Token → Bool
  | [] => true
  | t :: ts => isVoid t && areVoid ts

/-- Whether all alternatives stand for no text at all. -/
def areVoidBranches : List (List Token) → Bool
  | [] => true
  | ts :: rest => areVoid ts && areVoidBranches rest

end

mutual

def tokenMarks (path : List UInt8) : Token → Marks → Marks
  | .literal c, marks => Marks.overBytes path (bytesOf c) marks
  | .one, marks => Marks.over (fun _ => true) path marks
  | .many, marks => Marks.onward false marks
  | .dirsBefore, marks => Marks.union marks (Marks.overSlash path (Marks.onward false marks))
  | .dirsAfter, marks => Marks.onward false (Marks.overSlash path marks)
  | .dirsBetween, marks =>
    let inside := Marks.overSlash path marks
    Marks.union inside (Marks.overSlash path (Marks.onward false inside))
  | .oneOf negated ranges, marks =>
    Marks.over (fun b => inByteRanges ranges b != negated) path marks
  | .alternates branches, marks =>
    if areVoidBranches branches then marks else branchMarks path branches marks

def tokensMarks (path : List UInt8) : List Token → Marks → Marks
  | [], marks => marks
  | token :: tokens, marks => tokensMarks path tokens (tokenMarks path token marks)

def branchMarks (path : List UInt8) : List (List Token) → Marks → Marks
  | [], marks => marks.map fun _ => false
  | tokens :: branches, marks =>
    let others := branchMarks path branches marks
    if areVoid tokens then others else Marks.union (tokensMarks path tokens marks) others

end

/-- Whether the pattern stands for directories in front and nothing else, which is every path. -/
def isUniversal (g : Glob) : Bool :=
  match g.tokens with
  | [.dirsBefore] => true
  | _ => false

def accepts (g : Glob) (path : Text) : Bool :=
  let bytes := path.flatMap bytesOf
  g.isUniversal || (tokensMarks bytes g.tokens (Marks.start bytes)).getLastD false

end Matching

end Glob

end Declass
