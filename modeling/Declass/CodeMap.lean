import Declass.CodeMap.Scan
import Declass.Span

/-!
# Code maps

**Input.** A source text, scanned into one slot per byte.

**Algorithm.** Every question is answered by one walk over the positions, forwards or backwards from
the one asked about; a walk takes a number of steps that is fixed at its start.  Brackets count only
where they are code, and all three kinds are counted together.

**Results.** Bracket matching, splitting and searching outside brackets, whole words, identifiers
and trivia (comments and layout).  A slice that is reversed, too long or would cut a character in
two is a `Fault`.
-/

namespace Declass

/-- Asking for text that no range of whole characters gives. -/
inductive Fault where
  | badSlice (start stop : Nat)
  deriving DecidableEq, Repr

def Fault.message : Fault → Text
  | badSlice start stop =>
    "no whole characters from byte " ++ Text.ofNat start ++ " to byte " ++ Text.ofNat stop

namespace Slot

def isCode (s : Slot) : Bool := s.kind == .code

/-- Whether the byte is a comment, or layout in code. -/
def isTrivia (s : Slot) : Bool := s.kind == .comment || (s.isCode && s.isLayout)

/-- Whether the byte is the code character `c`. -/
def isCodeChar (c : Char) (s : Slot) : Bool := s.isCode && s.char? == some c

/-- Whether the byte is an opening bracket of code. -/
def opens (s : Slot) : Bool :=
  s.isCodeChar '(' || s.isCodeChar '[' || s.isCodeChar '\x7b'

/-- Whether the byte is a closing bracket of code. -/
def closes (s : Slot) : Bool :=
  s.isCodeChar ')' || s.isCodeChar ']' || s.isCodeChar '\x7d'

end Slot

/-- A source text with the kind of each of its bytes. -/
structure CodeMap where
  slots : Array Slot
  deriving DecidableEq, Repr

namespace CodeMap

/-- The map of a text.  If recognising markup leaves an element open, the text is scanned without
markup, so that a stray `<` does not swallow the code behind it. -/
def ofText (t : Text) : CodeMap :=
  match Scan.slots? true t with
  | some slots => ⟨slots.toArray⟩
  | none => ⟨((Scan.slots? false t).getD []).toArray⟩

section Positions

variable (m : CodeMap)

def size : Nat := m.slots.size

def text : Text := m.slots.toList.filterMap Slot.char?

/-- Whether there is a byte with property `p` at the position. -/
def has (p : Slot → Bool) (i : Nat) : Bool := m.slots[i]?.any p

/-- Whether a character starts at the position, or the text ends there. -/
def isBoundary (i : Nat) : Bool :=
  match m.slots[i]? with
  | some s => s.char?.isSome
  | none => i == m.size

def isCode (i : Nat) : Bool := m.has Slot.isCode i

/-- Whether the byte at the position is the code character `c`. -/
def isCodeChar (i : Nat) (c : Char) : Bool := m.has (Slot.isCodeChar c) i

def charAt? (i : Nat) : Option Char := m.slots[i]?.bind Slot.char?

def charBefore? : Nat → Option Char
  | 0 => none
  | i + 1 =>
    match m.charAt? i with
    | some c => some c
    | none => charBefore? i

/-- The bytes from position `i` on, at most `count` of them. -/
def bytesFrom : Nat → Nat → List Slot
  | 0, _ => []
  | count + 1, i =>
    match m.slots[i]? with
    | some s => s :: bytesFrom count (i + 1)
    | none => []

/-- The text of a range, if the range is one of whole characters. -/
def slice (start stop : Nat) : Except Fault Text :=
  if start ≤ stop && stop ≤ m.size && m.isBoundary start && m.isBoundary stop then
    .ok ((m.bytesFrom (stop - start) start).filterMap Slot.char?)
  else .error (.badSlice start stop)

/-- The position behind the bytes with property `p` from `i` on, at most `count` of them. -/
def skipWhile (p : Slot → Bool) : Nat → Nat → Nat
  | 0, i => i
  | count + 1, i => if m.has p i then skipWhile p count (i + 1) else i

/-- The position before the bytes with property `p` that end at `i`, at most `count` of them. -/
def skipBackWhile (p : Slot → Bool) : Nat → Nat → Nat
  | 0, i => i
  | count + 1, i => if m.has p (i - 1) then skipBackWhile p count (i - 1) else i

/-- The first position from `i` on, up to `stop`, that is no trivia. -/
def skipTrivia (i stop : Nat) : Nat := m.skipWhile Slot.isTrivia (stop - i) i

/-- The end of the range without the trivia at its end. -/
def trimTrivia (start stop : Nat) : Nat := m.skipBackWhile Slot.isTrivia (stop - start) stop

end Positions

section Brackets

variable (m : CodeMap)

/-- The position at which `depth` open brackets are closed again, among the `count` positions from
`i` on. -/
def matchFrom : Nat → Nat → Nat → Option Nat
  | 0, _, _ => none
  | count + 1, depth, i =>
    if m.has Slot.opens i then matchFrom count (depth + 1) (i + 1)
    else if m.has Slot.closes i then
      if depth ≤ 1 then some i else matchFrom count (depth - 1) (i + 1)
    else matchFrom count depth (i + 1)

/-- The bracket that closes the one at `i`; nothing if there is no opening bracket of code at `i`
or the text ends first. -/
def matching (i : Nat) : Option Nat :=
  if m.has Slot.opens i then m.matchFrom (m.size - i) 0 i else none

/-- Of the `count` positions from `i` on, those with property `p` that are no brackets and stand
outside all brackets, with `depth` brackets open at first.  A closing bracket too many does not
count. -/
def outerFrom (p : Nat → Bool) : Nat → Nat → Nat → List Nat
  | 0, _, _ => []
  | count + 1, depth, i =>
    if m.has Slot.opens i then outerFrom p count (depth + 1) (i + 1)
    else if m.has Slot.closes i then outerFrom p count (depth - 1) (i + 1)
    else if depth == 0 && p i then i :: outerFrom p count depth (i + 1)
    else outerFrom p count depth (i + 1)

/-- The positions in a range with property `p` outside all brackets. -/
def outer (p : Nat → Bool) (start stop : Nat) : List Nat := m.outerFrom p (stop - start) 0 start

/-- The first of the positions that `outerFrom` lists. -/
def firstOuterFrom? (p : Nat → Bool) : Nat → Nat → Nat → Option Nat
  | 0, _, _ => none
  | count + 1, depth, i =>
    if m.has Slot.opens i then firstOuterFrom? p count (depth + 1) (i + 1)
    else if m.has Slot.closes i then firstOuterFrom? p count (depth - 1) (i + 1)
    else if depth == 0 && p i then some i
    else firstOuterFrom? p count depth (i + 1)

/-- The first position in a range with property `p` outside all brackets. -/
def firstOuter? (p : Nat → Bool) (start stop : Nat) : Option Nat :=
  m.firstOuterFrom? p (stop - start) 0 start

def cut (start stop : Nat) : List Nat → List Span
  | [] => [⟨start, stop⟩]
  | i :: cuts => ⟨start, i⟩ :: cut (i + 1) stop cuts

/-- The parts of a range between the separators outside all brackets. -/
def splitTop (start stop : Nat) (sep : Char) : List Span :=
  cut start stop (m.outer (m.isCodeChar · sep) start stop)

/-- The first `c` of a range outside all brackets. -/
def findTop (start stop : Nat) (c : Char) : Option Nat :=
  m.firstOuter? (m.isCodeChar · c) start stop

end Brackets

section Words

variable (m : CodeMap)

/-- Whether the bytes from position `i` on spell the word, of whatever kind they are. -/
def spells : Text → Nat → Bool
  | [], _ => true
  | c :: word, i => m.charAt? i == some c && spells word (i + c.utf8Size)

/-- The first of the `count` positions from `i` on where `needle` starts in code. -/
def findCodeFrom (needle : Text) : Nat → Nat → Option Nat
  | 0, _ => none
  | count + 1, i =>
    if m.isCode i && m.spells needle i then some i else findCodeFrom needle count (i + 1)

/-- The first place in a range where `needle` starts in code. -/
def findCode (start stop : Nat) (needle : Text) : Option Nat :=
  m.findCodeFrom needle (min stop m.size + 1 - Text.size needle - start) start

/-- Whether `word` stands at the position as a whole word that is no property name: no identifier
character and no dot before it, and no identifier character after it.  The empty word stands at
every byte, and asking for it inside a character is a fault. -/
def wordAt (i : Nat) (word : Text) : Except Fault Bool :=
  if m.spells word i then
    if m.isBoundary i then
      .ok ((m.charBefore? i).all (fun c => !Character.isIdentPart c && c != '.')
        && (m.charAt? (i + Text.size word)).all fun c => !Character.isIdentPart c)
    else .error (.badSlice 0 i)
  else .ok false

/-- The positions in a range at which `word` stands as a whole word outside all brackets. -/
def keywords (start stop : Nat) (word : Text) : Except Fault (List Nat) :=
  (m.outer m.isCode start stop).filterM fun i => m.wordAt i word

/-- The end of the identifier at the position, which is the position itself if there is none. -/
def identEnd (i : Nat) : Except Fault Nat :=
  if m.isBoundary i then
    if (m.charAt? i).any Character.isIdentStart then
      .ok (m.skipWhile (fun s => s.char?.all Character.isIdentPart) (m.size - (i + 1)) (i + 1))
    else .ok i
  else .error (.badSlice i m.size)

end Words

end CodeMap

end Declass
