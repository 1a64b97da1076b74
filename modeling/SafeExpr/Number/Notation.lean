/-
  SafeExpr/Number/Notation.lean
  =============================
  **Writing a double as text.**

  Every notation for floating point numbers in this library writes the shortest
  digits that read back.  They differ in where positional notation ends and in how an
  exponent is spelled; a `FloatStyle` holds those decisions, and `Double.render` is
  the one function that follows them.
-/
import SafeExpr.Number.Shortest

namespace SafeExpr

/-- What one notation for floating point numbers decides. -/
structure FloatStyle where
  /-- Which way a tie between two shortest decimals goes. -/
  tie : Double.Tie
  /-- Positional notation is used from this power of ten … -/
  least : Int
  /-- … up to, and without, this one. -/
  bound : Int
  /-- Is a positive exponent written with a sign? -/
  plus : Bool
  /-- The least number of digits of an exponent. -/
  exponentDigits : Nat
  nan : String
deriving Repr

namespace FloatStyle

/-- Floats in rendered values: `1e+16`, `1.5e-07`, `nan`. -/
def value : FloatStyle := ⟨.away, -4, 16, true, 2, "nan"⟩

/-- Float literals in rendered syntax: `1e16`, `1.5e-7`, `NaN`. -/
def literal : FloatStyle := ⟨.away, -4, 16, false, 1, "NaN"⟩

/-- Floats in JSON text: `1e+16`, `1.5e-7`, and positional notation one power of ten
    further down. -/
def json : FloatStyle := ⟨.toEven, -5, 16, true, 1, "null"⟩

end FloatStyle

/-- `n` zeros. -/
def zeros (n : Nat) : List Char := List.replicate n '0'

namespace Decimal

/-- The exponent of the first digit. -/
def leading (d : Decimal) : Int := (digitChars d.digits).length + d.exponent - 1

/-- Positional notation, with at least one digit on both sides of the point. -/
def positional (d : Decimal) : List Char :=
  let ds := digitChars d.digits
  if 0 ≤ d.exponent then ds ++ zeros d.exponent.toNat ++ ['.', '0']
  else
    let places := (-d.exponent).toNat
    if places < ds.length then
      ds.take (ds.length - places) ++ '.' :: ds.drop (ds.length - places)
    else ['0', '.'] ++ zeros (places - ds.length) ++ ds

/-- One digit before the point, the others after it, then the exponent. -/
def scientific (style : FloatStyle) (d : Decimal) : List Char :=
  let fraction := (digitChars d.digits).drop 1
  let sign := if d.leading < 0 then ['-'] else if style.plus then ['+'] else []
  let exponent := digitChars d.leading.natAbs
  (digitChars d.digits).take 1
    ++ (if fraction.isEmpty then [] else '.' :: fraction)
    ++ 'e' :: sign ++ zeros (style.exponentDigits - exponent.length) ++ exponent

end Decimal

/-- The text of a double.  The sign of zero is kept; that of a NaN is not. -/
def Double.render (style : FloatStyle) (x : Double) : String :=
  if x.isNaN then style.nan
  else
    let sign := if x.isNegative then ['-'] else []
    if x.isInfinite then String.ofList (sign ++ ['i', 'n', 'f'])
    else
      let d := x.shortest style.tie
      let body :=
        if d.digits = 0 || style.least ≤ d.leading && d.leading < style.bound then d.positional
        else d.scientific style
      String.ofList (sign ++ body)

end SafeExpr
