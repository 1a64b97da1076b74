/-
  SafeExpr/Text/Ranges.lean
  =========================
  **Sets of characters given by ranges of code points.**

  A property of characters that no formula describes is held as a table: a list of
  closed ranges in increasing order.  `CodeRanges.holds` is membership.
-/

namespace SafeExpr

/-- Closed ranges of code points, in increasing order. -/
abbrev CodeRanges := List (Nat × Nat)

/-- Is `n` in one of the ranges?  The search stops at the first range that begins
    beyond `n`. -/
def CodeRanges.holds : CodeRanges → Nat → Bool
  | [], _ => false
  | (low, high) :: rest, n =>
    if n < low then false else if n ≤ high then true else CodeRanges.holds rest n

end SafeExpr
