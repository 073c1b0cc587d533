import Declass.Text

/-!
# Layout of generated code

**Input.** The text of a body or of a template, and the indentation it is to have.

**Algorithm.** A body is cut into lines, the blank lines at both ends are dropped, and the
indentation that the other lines share is replaced by the new one.  What stands on the line of the
opening brace has no indentation of its own and does not take part in the sharing.

**Results.** `reindent` for bodies, `alignTemplate` for templates.
-/

namespace Declass
namespace Layout

/-- The two characters that indentation is counted in. -/
def isIndent (c : Char) : Bool := c == ' ' || c == '\t'

def indentation (line : Text) : Nat := (line.takeWhile isIndent).length

/-- A line of a body.  An inline line stands behind the opening brace. -/
structure Line where
  inline : Bool
  text : Text
  deriving DecidableEq, Repr

namespace Line

/-- Whether the line holds nothing but White_Space. -/
def isBlank (l : Line) : Bool := l.text.isBlank

/-- The line behind its new indentation, with `common` characters of the old one removed. -/
def place (indent : Text) (common : Nat) (l : Line) : Text :=
  if l.isBlank then []
  else if l.inline then indent ++ l.text.trim
  else indent ++ Text.trimEnd (l.text.drop common)

end Line

/-- Whether the body goes on behind the opening brace, on the same line. -/
def startsInline (body : Text) : Bool :=
  match body.dropWhile isIndent with
  | '\n' :: _ => false
  | '\r' :: _ => false
  | _ => true

def bodyLines (body : Text) : List Line :=
  match body.lines with
  | [] => []
  | l :: ls => ⟨startsInline body, l⟩ :: ls.map (⟨false, ·⟩)

def dropBlankEnds (ls : List Line) : List Line :=
  ((ls.dropWhile Line.isBlank).reverse.dropWhile Line.isBlank).reverse

/-- The indentation that all lines share, blank and inline ones apart. -/
def commonIndent (ls : List Line) : Nat :=
  (((ls.filter fun l => !l.inline && !l.isBlank).map fun l => indentation l.text).min?).getD 0

/-- A body with its shared indentation replaced by `indent`. -/
def reindent (body indent : Text) : Text :=
  let ls := dropBlankEnds (bodyLines body)
  Text.join "\n" (ls.map (Line.place indent (commonIndent ls)))

/-- The indentation of a template inside the returned parentheses. -/
def templateIndent : Text := "    "

/-- The lines of a template, trimmed and without the blank ones, under each other. -/
def alignTemplate (template : Text) : Text :=
  Text.join ("\n" ++ templateIndent) ((template.lines.map Text.trim).filter (!·.isEmpty))

end Layout
end Declass
