import Declass.Text

/-!
# Line positions

**Input.** A text, and byte offsets into it.

**Results.** `LineIndex` knows the offset at which each line starts.  It gives the line and column
of an offset, both counted from zero and columns in bytes, and the text of a line.
-/

namespace Declass

/-- A line and a column in it. -/
structure LineCol where
  line : Nat
  col : Nat
  deriving DecidableEq, Repr

/-- The offsets at which the lines of a text start, in increasing order. -/
structure LineIndex where
  starts : List Nat
  deriving DecidableEq, Repr

namespace LineIndex

/-- The offsets behind the line feeds of a text that itself starts at `offset`. -/
def startsFrom (offset : Nat) : Text → List Nat
  | [] => []
  | c :: rest =>
    let next := offset + c.utf8Size
    if c == '\n' then next :: startsFrom next rest else startsFrom next rest

def ofText (t : Text) : LineIndex := ⟨0 :: startsFrom 0 t⟩

/-- The line and column of an offset.  What lies behind the end belongs to the last line. -/
def lineCol (ix : LineIndex) (offset : Nat) : LineCol :=
  let line := (ix.starts.takeWhile (· ≤ offset)).length - 1
  ⟨line, offset - ix.starts.getD line 0⟩

/-- The text of a line without its line feed and the carriage returns before it. -/
def lineText? (ix : LineIndex) (t : Text) (line : Nat) : Option Text := do
  let start ← ix.starts[line]?
  let stop := match ix.starts[line + 1]? with
    | some next => next - 1
    | none => t.size
  let piece := (t.dropBytes start).takeBytes (stop - start)
  return (piece.reverse.dropWhile (· == '\r')).reverse

end LineIndex

end Declass
