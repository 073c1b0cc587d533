/-!
# Ranges of source text

**Input.** Byte positions in a source.

**Results.** `Span`, a half-open range of bytes.  A reported range holds 32-bit positions, so
`Span.clamp` brings each end down to the largest of them.
-/

namespace Declass

/-- The bytes from `start` up to, and without, `stop`. -/
structure Span where
  start : Nat
  stop : Nat
  deriving DecidableEq, Repr

namespace Span

/-- The largest position that a reported range can hold. -/
def limit : Nat := 4294967295

/-- The range with both ends brought down to `limit`. -/
def clamp (s : Span) : Span := ⟨min s.start limit, min s.stop limit⟩

def shift (s : Span) (offset : Nat) : Span := ⟨offset + s.start, offset + s.stop⟩

end Span

end Declass
