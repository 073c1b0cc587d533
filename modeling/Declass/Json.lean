import Declass.Text

/-!
# JSON documents

**Results.** `Json.pretty` writes a document with two blanks of indentation per level, every item
and field on a line of its own, fields in the order given, and characters beyond ASCII as they
are.
-/

namespace Declass

/-- A document of numbers, strings, lists and records. -/
inductive Json where
  | num (n : Nat)
  | str (s : Text)
  | arr (items : List Json)
  | obj (fields : List (Text × Json))

namespace Json

def hexDigit (n : Nat) : Char := ("0123456789abcdef".toList).getD n '0'

def escape (c : Char) : Text :=
  if c == '\x22' then "\\\""
  else if c == '\\' then "\\\\"
  else if c == '\n' then "\\n"
  else if c == '\r' then "\\r"
  else if c == '\t' then "\\t"
  else if c == '\x08' then "\\b"
  else if c == '\x0C' then "\\f"
  else if c.toNat < 0x20 then
    "\\u00" ++ [hexDigit (c.toNat / 16), hexDigit (c.toNat % 16)]
  else [c]

def quote (s : Text) : Text := ['\x22'] ++ s.flatMap escape ++ ['\x22']

def lineAt (level : Nat) : Text := '\n' :: List.replicate (2 * level) ' '

mutual

/-- A document whose first line stands at the given level. -/
def prettyAt (level : Nat) : Json → Text
  | num n => Text.ofNat n
  | str s => quote s
  | arr [] => "[]"
  | arr (item :: items) =>
    "[" ++ lineAt (level + 1) ++ prettyAt (level + 1) item ++ prettyItems (level + 1) items
      ++ lineAt level ++ "]"
  | obj [] => "\x7b\x7d"
  | obj ((key, value) :: fields) =>
    "\x7b" ++ lineAt (level + 1) ++ quote key ++ ": " ++ prettyAt (level + 1) value
      ++ prettyFields (level + 1) fields ++ lineAt level ++ "\x7d"

def prettyItems (level : Nat) : List Json → Text
  | [] => []
  | item :: items => "," ++ lineAt level ++ prettyAt level item ++ prettyItems level items

def prettyFields (level : Nat) : List (Text × Json) → Text
  | [] => []
  | (key, value) :: fields =>
    "," ++ lineAt level ++ quote key ++ ": " ++ prettyAt level value ++ prettyFields level fields

end

def pretty (j : Json) : Text := prettyAt 0 j

end Json

end Declass
