/-!
# Ranges of code points

**Input.** A property of code points.

**Algorithm.** The code points that have the property make up ranges.  A table lists their widths:
in turn, how many code points do not have the property and how many do.

**Results.** `rangesFrom` reads such a table as ranges, and `inRanges` decides by them.
-/

namespace Declass
namespace Character

/-- The ranges that a table of widths describes from code point `n` on, both ends included. -/
def rangesFrom : Nat → List Nat → List (Nat × Nat)
  | n, without :: width :: table =>
    (n + without, n + without + width - 1) :: rangesFrom (n + without + width) table
  | _, _ => []

-- The letters of ASCII.
example : rangesFrom 0 [65,26,6,26] = [(65,90), (97,122)] := rfl

/-- Whether a code point lies in one of the ranges. -/
def inRanges (ranges : List (Nat × Nat)) (n : Nat) : Bool :=
  ranges.any fun r => r.1 ≤ n && n ≤ r.2

end Character
end Declass
