import Declass.Text

/-!
# Reading JSON values

**Input.** JSON text, and the kind of value that is wanted next.

**Algorithm.** Values are read one by one from the front of the text, and the first problem met
decides.  A value of another kind than the one wanted is still read far enough to tell whether it
is JSON at all; numbers are checked down to whether their size fits a binary floating-point number
of 53 bits and exponents up to 1023.

**Results.** Each reader gives the value and the text behind it, or a `Problem`.
-/

namespace Declass
namespace Json

/-- What is wrong with a text: it is no JSON, it is JSON of the wrong kind, or it ends too early. -/
inductive Problem where
  | malformed
  | mismatched
  | unfinished
  deriving DecidableEq, Repr

/-- Reads a value from the front of a text. -/
abbrev Reader (α : Type) := Text → Except Problem (α × Text)

def skipBlanks (t : Text) : Text :=
  t.dropWhile fun c => c == ' ' || c == '\n' || c == '\t' || c == '\r'

def expectWord : Text → Text → Except Problem Text
  | [], t => .ok t
  | _ :: _, [] => .error .unfinished
  | c :: word, d :: t => if c == d then expectWord word t else .error .malformed

section Strings

def hexValue? (c : Char) : Option Nat :=
  if c.isDigit then some (c.toNat - '0'.toNat)
  else if 'a' ≤ c && c ≤ 'f' then some (c.toNat - 'a'.toNat + 10)
  else if 'A' ≤ c && c ≤ 'F' then some (c.toNat - 'A'.toNat + 10)
  else none

/-- The number that four hexadecimal digits write.  Fewer than four bytes are an early end. -/
def readHex4 : Reader Nat := fun t =>
  if t.size < 4 then .error .unfinished
  else
    match (t.take 4).mapM hexValue? with
    | some digits => .ok (digits.foldl (fun n d => 16 * n + d) 0, t.drop 4)
    | none => .error .malformed

/-- Whether the number is the first half of a surrogate pair. -/
def isHighSurrogate (n : Nat) : Bool := 0xD800 ≤ n && n ≤ 0xDBFF

/-- Whether the number is the second half of a surrogate pair. -/
def isLowSurrogate (n : Nat) : Bool := 0xDC00 ≤ n && n ≤ 0xDFFF

/-- The character behind a backslash and `u`. -/
def readUnicode : Reader Char := fun t => do
  let (high, t) ← readHex4 t
  if isLowSurrogate high then throw .malformed
  if !isHighSurrogate high then return (Char.ofNat high, t)
  let (low, t) ← readHex4 (← expectWord "\\u" t)
  if !isLowSurrogate low then throw .malformed
  return (Char.ofNat (0x10000 + (high - 0xD800) * 0x400 + (low - 0xDC00)), t)

/-- The character that a letter stands for behind a backslash. -/
def simpleEscape? (c : Char) : Option Char :=
  if c == '\x22' || c == '\\' || c == '/' then some c
  else if c == 'b' then some '\x08'
  else if c == 'f' then some '\x0C'
  else if c == 'n' then some '\n'
  else if c == 'r' then some '\r'
  else if c == 't' then some '\t'
  else none

def readEscape : Reader Char
  | [] => .error .unfinished
  | 'u' :: t => readUnicode t
  | c :: t =>
    match simpleEscape? c with
    | some d => .ok (d, t)
    | none => .error .malformed

/-- The rest of a string of at most `count` characters, up to its closing quote. -/
def readCharacters : Nat → Reader Text
  | 0, _ => .error .unfinished
  | _ + 1, [] => .error .unfinished
  | count + 1, c :: t =>
    if c == '\x22' then .ok ([], t)
    else if c == '\\' then do
      let (d, t) ← readEscape t
      let (ds, t) ← readCharacters count t
      return (d :: ds, t)
    else if c.toNat < 0x20 then .error .malformed
    else do
      let (ds, t) ← readCharacters count t
      return (c :: ds, t)

/-- The rest of a string behind its opening quote. -/
def readStringRest : Reader Text := fun t => readCharacters (t.length + 1) t

end Strings

section Numbers

/-- The natural number rounded to 53 significant bits, ties to even. -/
def roundToBinary53 (n : Nat) : Nat :=
  let bits := n.log2 + 1
  if bits ≤ 53 then n
  else
    let unit := Nat.pow 2 (bits - 53)
    let q := n / unit
    let r := n % unit
    let up := unit < 2 * r || (2 * r == unit && q % 2 == 1)
    (if up then q + 1 else q) * unit

/-- The least number that rounds to something beyond the largest of 53 bits. -/
def overflowLimit : Nat := (Nat.pow 2 54 - 1) * Nat.pow 2 970

/-- The least number that does not fit a significand of 64 bits. -/
def significandLimit : Nat := Nat.pow 2 64

/-- The least number that does not fit an exponent of 32 bits with a sign. -/
def exponentLimit : Nat := Nat.pow 2 31

/-- Whether `significand` times ten to the `exponent` is too large once both factors are rounded. -/
def isTooLarge (significand exponent : Nat) : Bool :=
  0 < significand &&
    (308 < exponent ||
      overflowLimit ≤ roundToBinary53 significand * roundToBinary53 (Nat.pow 10 exponent))

/-- Digits taken into a significand of 64 bits, and the number of digits that no longer fit. -/
def absorb (significand : Nat) : Text → Nat × Nat
  | [] => (significand, 0)
  | d :: ds =>
    let next := significand * 10 + (d.toNat - '0'.toNat)
    if next < significandLimit then absorb next ds else (significand, ds.length + 1)

/-- The problem with a number of the given size, if it has one. -/
def sizeProblem? (significand : Nat) (exponent : Int) : Option Problem :=
  if 0 ≤ exponent && isTooLarge significand exponent.toNat then some .malformed else none

/-- The problem with an exponent behind its letter, if there is one. -/
def exponentProblem? (significand : Nat) (exponent : Int) (t : Text) : Option Problem :=
  let negative := t.head? == some '-'
  let t := if negative || t.head? == some '+' then t.drop 1 else t
  match t with
  | [] => some .unfinished
  | d :: _ =>
    if !d.isDigit then some .malformed
    else
      let (shift, dropped) := absorb 0 (t.takeWhile Char.isDigit)
      if exponentLimit ≤ shift || 0 < dropped then
        if 0 < significand && !negative then some .malformed else none
      else sizeProblem? significand (if negative then exponent - shift else exponent + shift)

/-- The problem with what follows the digits of a number, if there is one. -/
def tailProblem? (significand : Nat) (exponent : Int) : Text → Option Problem
  | [] => sizeProblem? significand exponent
  | c :: t =>
    if c == 'e' || c == 'E' then exponentProblem? significand exponent t
    else sizeProblem? significand exponent

/-- The problem with the fraction of a number behind its point, if there is one. -/
def fractionProblem? (significand : Nat) (exponent : Int) (t : Text) : Option Problem :=
  let digits := t.takeWhile Char.isDigit
  if digits.isEmpty then some (if t.isEmpty then .unfinished else .malformed)
  else
    let (significand, dropped) := absorb significand digits
    tailProblem? significand (exponent - (digits.length - dropped : Nat)) (t.dropWhile Char.isDigit)

/-- The problem with a number without its sign, if there is one. -/
def numberProblem? (t : Text) : Option Problem :=
  let digits := t.takeWhile Char.isDigit
  match digits with
  | [] => some (if t.isEmpty then .unfinished else .malformed)
  | d :: ds =>
    if d == '0' && !ds.isEmpty then some .malformed
    else
      let (significand, dropped) := absorb 0 digits
      match t.dropWhile Char.isDigit with
      | '.' :: t => fractionProblem? significand dropped t
      | t => tailProblem? significand dropped t

end Numbers

/-- The problem with a value that is not of the kind wanted. -/
def wrongValue : Text → Problem
  | [] => .unfinished
  | c :: t =>
    let afterWord (word : Text) : Problem :=
      match expectWord word t with
      | .ok _ => .mismatched
      | .error problem => problem
    if c == 'n' then afterWord "ull"
    else if c == 't' then afterWord "rue"
    else if c == 'f' then afterWord "alse"
    else if c == '-' then (numberProblem? t).getD .mismatched
    else if c.isDigit then (numberProblem? (c :: t)).getD .mismatched
    else if c == '\x22' then
      match readStringRest t with
      | .ok _ => .mismatched
      | .error problem => problem
    else if c == '[' || c == '\x7b' then .mismatched
    else .malformed

section Values

def readString : Reader Text := fun t =>
  match skipBlanks t with
  | '\x22' :: t => readStringRest t
  | t => .error (wrongValue t)

def readBool : Reader Bool := fun t =>
  match skipBlanks t with
  | 't' :: t => do return (true, ← expectWord "rue" t)
  | 'f' :: t => do return (false, ← expectWord "alse" t)
  | t => .error (wrongValue t)

def readOption {α : Type} (read : Reader α) : Reader (Option α) := fun t =>
  match skipBlanks t with
  | 'n' :: t => do return (none, ← expectWord "ull" t)
  | t => do
    let (value, t) ← read t
    return (some value, t)

/-- The text of the next item of a list; nothing at the closing bracket.  Items but the first stand
behind a comma. -/
def nextItem? (first : Bool) (t : Text) : Except Problem (Option Text) :=
  match skipBlanks t with
  | [] => .error .unfinished
  | ']' :: _ => .ok none
  | ',' :: rest =>
    if first then .ok (some (',' :: rest))
    else
      match skipBlanks rest with
      | [] => .error .unfinished
      | ']' :: _ => .error .malformed
      | t => .ok (some t)
  | t => if first then .ok (some t) else .error .malformed

/-- The text behind the closing bracket of a list. -/
def endList (t : Text) : Except Problem Text :=
  match skipBlanks t with
  | [] => .error .unfinished
  | ']' :: rest => .ok rest
  | _ => .error .malformed

/-- The items of a list of at most `count` strings. -/
def readItems : Nat → Bool → Reader (List Text)
  | 0, _, _ => .error .unfinished
  | count + 1, first, t => do
    match ← nextItem? first t with
    | none => return ([], t)
    | some t =>
      let (item, t) ← readString t
      let (items, t) ← readItems count false t
      return (item :: items, t)

def readStrings : Reader (List Text) := fun t =>
  match skipBlanks t with
  | '[' :: t => do
    let (items, t) ← readItems (t.length + 1) true t
    return (items, ← endList t)
  | t => .error (wrongValue t)

end Values

end Json
end Declass
