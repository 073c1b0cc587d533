import Declass.Character

/-!
# Text

**Input.** Text as a list of characters.  Positions in text count the bytes of its UTF-8 form,
so every character has a width from one to four.

**Algorithm.** Trimming, line splitting and comparison by recursion on the characters.

**Results.** The operations on text that know nothing of code: width, trimming of White_Space,
lines, identifiers, and the name of the function that sets a state entry.
-/

namespace Declass

/-- Text, character by character. -/
abbrev Text := List Char

instance : Coe String Text := ⟨String.toList⟩

namespace Text

def size : Text → Nat
  | [] => 0
  | c :: rest => c.utf8Size + size rest

/-- Without the characters that start in the first `n` bytes. -/
def dropBytes : Nat → Text → Text
  | _, [] => []
  | 0, t => t
  | n, c :: rest => dropBytes (n - c.utf8Size) rest

/-- The characters that end in the first `n` bytes. -/
def takeBytes : Nat → Text → Text
  | _, [] => []
  | n, c :: rest => if c.utf8Size ≤ n then c :: takeBytes (n - c.utf8Size) rest else []

def isBlank (t : Text) : Bool := t.all Character.isSpace

def trimStart (t : Text) : Text := t.dropWhile Character.isSpace

def trimEnd (t : Text) : Text := (t.reverse.dropWhile Character.isSpace).reverse

def trim (t : Text) : Text := trimEnd (trimStart t)

/-- Without the characters with property `p` at both ends. -/
def trimMatching (p : Char → Bool) (t : Text) : Text :=
  ((t.dropWhile p).reverse.dropWhile p).reverse

/-- The pieces between the characters that equal `sep`; there is always at least one. -/
def splitOn (sep : Char) : Text → List Text
  | [] => [[]]
  | c :: rest =>
    if c == sep then [] :: splitOn sep rest
    else
      match splitOn sep rest with
      | [] => [[c]]
      | piece :: pieces => (c :: piece) :: pieces

def dropReturn (t : Text) : Text :=
  if t.getLast? == some '\r' then t.dropLast else t

/-- The lines of a text that has been split at line feeds: each but the last loses one carriage
return at its end, and an empty last piece is no line. -/
def linesOfPieces : List Text → List Text
  | [] => []
  | [last] => if last.isEmpty then [] else [last]
  | piece :: pieces => dropReturn piece :: linesOfPieces pieces

/-- The lines of a text.  A line ends at a line feed; a carriage return before it belongs to the
end of the line, any other carriage return to the line itself. -/
def lines (t : Text) : List Text := linesOfPieces (splitOn '\n' t)

def firstLine (t : Text) : Text := (lines t).headD []

/-- Texts one after the other with `sep` between neighbours. -/
def join (sep : Text) : List Text → Text
  | [] => []
  | [t] => t
  | t :: ts => t ++ sep ++ join sep ts

/-- The text of the given lines, each closed by a line feed. -/
def unlines (ls : List Text) : Text := ls.flatMap (· ++ ['\n'])

def ofNat (n : Nat) : Text := Nat.toDigits 10 n

def isIdentifier : Text → Bool
  | [] => false
  | c :: rest => Character.isIdentStart c && rest.all Character.isIdentPart

/-- The number of bytes of the identifier that the text starts with, zero if there is none. -/
def identSize : Text → Nat
  | [] => 0
  | c :: rest =>
    if Character.isIdentStart c then size (c :: rest.takeWhile Character.isIdentPart) else 0

/-- Whether `needle` occurs somewhere. -/
def contains (needle : Text) : Text → Bool
  | [] => needle.isEmpty
  | c :: rest => needle.isPrefixOf (c :: rest) || contains needle rest

/-- Whether `t` comes no later than `u` in the order by code points. -/
def notAfter : Text → Text → Bool
  | [], _ => true
  | _ :: _, [] => false
  | a :: t, b :: u => if a == b then notAfter t u else a < b

end Text

/-- The name of the function that sets the state entry `name`: `set` and the name with its first
character in upper case. -/
def setterName : Text → Text
  | [] => "set"
  | c :: rest => "set" ++ Character.upper c ++ rest

end Declass
