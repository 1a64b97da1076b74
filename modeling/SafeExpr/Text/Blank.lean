/-
  SafeExpr/Text/Blank.lean
  ========================
  **White space, and text without it at its ends.**
-/
import SafeExpr.Text.Ranges

namespace SafeExpr

/-- The code points with the Unicode property *White_Space*. -/
def blankRanges : CodeRanges :=
  [ (0x9, 0xd), (0x20, 0x20), (0x85, 0x85), (0xa0, 0xa0), (0x1680, 0x1680), (0x2000, 0x200a),
    (0x2028, 0x2029), (0x202f, 0x202f), (0x205f, 0x205f), (0x3000, 0x3000) ]

def isBlank (c : Char) : Bool := blankRanges.holds c.toNat

/-- The text without blanks at either end. -/
def trimBlanks (cs : List Char) : List Char :=
  ((cs.dropWhile isBlank).reverse.dropWhile isBlank).reverse

end SafeExpr
