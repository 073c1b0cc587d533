import Declass.Text

/-!
# Patterns

**Input.** A text and a pattern of words, white space and identifiers.

**Algorithm.** A matcher sends a place in the text to the places where a match from there can end,
the preferred one first: a run of characters prefers to be long, a choice prefers its first
alternative.  Matchers in sequence are composed in that order, so the first end of the whole is the
one found by trying alternatives in order and backing up on failure.

**Results.** `Pattern.occurrences` lists the matches in a text from left to right; the next match
starts where the one before it ends, or later.
-/

namespace Declass

/-- A place in a text: the character before it, its byte offset, and the text from there on. -/
structure Cursor where
  before : Option Char
  offset : Nat
  rest : Text
  deriving DecidableEq, Repr

/-- The places where a match can end, in order of preference. -/
abbrev Matcher := Cursor → List Cursor

namespace Matcher

/-- Succeeds between a word character and none, and consumes nothing. -/
def edge : Matcher := fun c =>
  if c.before.any Character.isWord == c.rest.head?.any Character.isWord then [] else [c]

def skip : Matcher := fun c => [c]

/-- One character with property `p`. -/
def one (p : Char → Bool) : Matcher := fun c =>
  match c.rest with
  | [] => []
  | d :: rest => if p d then [⟨some d, c.offset + d.utf8Size, rest⟩] else []

/-- The ends of the runs of characters with property `p`, longest first, in front of `shorter`. -/
def runEnds (p : Char → Bool) (shorter : List Cursor) (before : Option Char) (offset : Nat) :
    Text → List Cursor
  | [] => ⟨before, offset, []⟩ :: shorter
  | d :: rest =>
    let here : Cursor := ⟨before, offset, d :: rest⟩
    if p d then runEnds p (here :: shorter) (some d) (offset + d.utf8Size) rest
    else here :: shorter

/-- Any number of characters with property `p`, as many as possible. -/
def many (p : Char → Bool) : Matcher := fun c => runEnds p [] c.before c.offset c.rest

def seq (ms : List Matcher) : Matcher := fun c => ms.foldl (fun cs m => cs.flatMap m) [c]

def oneOf (ms : List Matcher) : Matcher := fun c => ms.flatMap fun m => m c

def opt (m : Matcher) : Matcher := oneOf [m, skip]

def word (w : Text) : Matcher := seq (w.map fun d => one (· == d))

def spaces : Matcher := many Character.isSpace

def spaces1 : Matcher := seq [one Character.isSpace, spaces]

/-- A name that starts with an ASCII letter, underscore or dollar. -/
def name : Matcher :=
  seq [one (fun c => c.isAlpha || c == '_' || c == '$'),
    many (fun c => Character.isWord c || c == '$')]

def anyWord (ws : List Text) : Matcher :=
  if ws.isEmpty then skip else oneOf (ws.map word)

end Matcher

/-- A match: where it starts and stops, and the text that its middle part consumed. -/
structure Match where
  start : Nat
  stop : Nat
  group : Text
  deriving DecidableEq, Repr

/-- A pattern of three parts, the middle one of which is remembered. -/
structure Pattern where
  before : Matcher
  group : Matcher
  after : Matcher

namespace Pattern

def matchAt (p : Pattern) (c : Cursor) : Option Match :=
  ((p.before c).flatMap fun a => (p.group a).flatMap fun b => (p.after b).map fun e =>
    (⟨c.offset, e.offset, a.rest.take (a.rest.length - b.rest.length)⟩ : Match)).head?

/-- The matches that start at `resume` or later. -/
def matchesFrom (p : Pattern) (resume : Nat) (before : Option Char) (offset : Nat) :
    Text → List Match
  | [] => []
  | d :: rest =>
    let found := if offset < resume then none else p.matchAt ⟨before, offset, d :: rest⟩
    match found with
    | some m => m :: matchesFrom p m.stop (some d) (offset + d.utf8Size) rest
    | none => matchesFrom p resume (some d) (offset + d.utf8Size) rest

/-- The matches in a text, from left to right and without overlap. -/
def occurrences (p : Pattern) (t : Text) : List Match := p.matchesFrom 0 none 0 t

end Pattern

end Declass
