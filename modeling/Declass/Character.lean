import Declass.Character.Alphabetic
import Declass.Character.Numeric
import Declass.Character.Uppercase
import Declass.Character.Word

/-!
# Character classes

**Input.** A character.

**Algorithm.** Below 0x80 every class is decided by the letters and digits of ASCII; beyond, by
the range tables of the property.

**Results.** The classes that the component reader is built on: identifier characters, white
space in the wide sense (`isSpace`, property White_Space) and in the narrow sense of layout
(`isLayout`, five ASCII characters), and the word characters whose edges delimit keywords.
-/

namespace Declass
namespace Character

/-- Property Alphabetic. -/
def isAlphabetic (c : Char) : Bool :=
  if c.toNat < 0x80 then c.isAlpha else inRanges alphabeticRanges c.toNat

/-- Decimal digits of any script (Nd). -/
def isDecimalDigit (c : Char) : Bool :=
  if c.toNat < 0x80 then c.isDigit else inRanges decimalDigitRanges c.toNat

/-- Numbers of any kind (Nd, Nl, No). -/
def isNumeric (c : Char) : Bool :=
  isDecimalDigit c || (0x80 ≤ c.toNat && inRanges otherNumberRanges c.toNat)

def spaceRanges : List (Nat × Nat) :=
  [(0x9, 0xD), (0x20, 0x20), (0x85, 0x85), (0xA0, 0xA0), (0x1680, 0x1680), (0x2000, 0x200A),
   (0x2028, 0x2029), (0x202F, 0x202F), (0x205F, 0x205F), (0x3000, 0x3000)]

/-- Property White_Space. -/
def isSpace (c : Char) : Bool := inRanges spaceRanges c.toNat

/-- The layout characters between tokens: space, tab, line feed, form feed, carriage return.
A vertical tab is not one of them. -/
def isLayout (c : Char) : Bool :=
  c == ' ' || c == '\t' || c == '\n' || c == '\x0C' || c == '\r'

/-- Word characters: letters, marks, decimal digits, connectors and the two joiners. -/
def isWord (c : Char) : Bool :=
  if c.toNat < 0x80 then c.isAlphanum || c == '_' else inRanges wordRanges c.toNat

/-- Letters and digits of ASCII, underscore and dollar. -/
def isAsciiIdent (c : Char) : Bool :=
  c.isAlphanum || c == '_' || c == '$'

def isIdentStart (c : Char) : Bool :=
  isAlphabetic c || c == '_' || c == '$'

/-- Characters that may stand inside an identifier. -/
def isIdentPart (c : Char) : Bool :=
  isAlphabetic c || isNumeric c || c == '_' || c == '$'

end Character
end Declass
