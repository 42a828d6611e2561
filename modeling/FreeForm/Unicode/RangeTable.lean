namespace FreeForm.Unicode

/-!
# Tables of code point ranges

A character property is a sorted list of closed ranges of code points. A look-up stops at the first
range that ends at or after the code point.
-/

abbrev RangeTable := List (Nat × Nat)

/-- Whether a code point lies in one of the ranges of a sorted table. -/
def RangeTable.contains : RangeTable → Nat → Bool
  | [], _ => false
  | (first, last) :: ranges, n =>
      if n ≤ last then decide (first ≤ n) else RangeTable.contains ranges n

end FreeForm.Unicode
