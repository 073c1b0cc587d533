import Declass.CodeMap
import Declass.Warning

/-!
# Snippets

**Results.** A `Snippet` is a piece of source text together with the range it was cut from.  Ranges
that leave the library are checked here: an end before its start is a fault.
-/

namespace Declass

namespace Span

/-- The range from `start` to `stop` as it is reported. -/
def reported (start stop : Nat) : Except Fault Span :=
  let range := clamp ⟨start, stop⟩
  if range.start ≤ range.stop then .ok range else .error (.badSlice start stop)

end Span

namespace Text

/-- Where a text that starts at `offset` lies once it is trimmed.  For blank text the end comes
before the start. -/
def trimmedSpan (offset : Nat) (t : Text) : Span :=
  ⟨offset + (t.size - t.trimStart.size), offset + t.trimEnd.size⟩

end Text

/-- A piece of source and where it was cut from. -/
structure Snippet where
  text : Text
  range : Span
  deriving DecidableEq, Repr

namespace Snippet

/-- The piece of the source from `start` to `stop`. -/
def cut (m : CodeMap) (start stop : Nat) : Except Fault Snippet := do
  return ⟨← m.slice start stop, ← Span.reported start stop⟩

end Snippet

/-- A warning about the range from `start` to `stop`. -/
def Warning.about (notice : Notice) (start stop : Nat) : Except Fault Warning := do
  return ⟨notice, ← Span.reported start stop⟩

end Declass
