/-
  SafeExpr/Number/Double.lean
  ===========================
  **Binary floating point numbers of 64 bits.**

  A `Double` *is* its bit pattern: sign, eleven bits of exponent, fifty-two bits of
  fraction.  Two doubles are the same value exactly when their bits are the same, so
  `-0.0` differs from `0.0` and a quiet NaN keeps its sign; numerical comparison is a
  separate relation, read off the integer `key`.

  Everything that has an exact answer is computed exactly, on the pair `m · 2^q` that
  a finite double stands for: conversion from integers and from decimal fractions,
  rounding to an integral value, the remainder, the square root of a sum of squares.
  One function, `ofScaled`, rounds `m · 2^q` to the nearest double, ties to even.
  The four basic operations and the elementary functions are those of the machine;
  `ofFloat` and `toFloat` pass to and from it.

  The sign of a NaN follows two rules: an operand that is a NaN is passed on, and an
  operation that makes a NaN out of numbers makes the negative one.
-/

namespace SafeExpr

/-- A 64-bit floating point number, as its bits. -/
structure Double where
  bits : UInt64
deriving DecidableEq, Repr, Inhabited

namespace Double

/-! ### Fields of the bit pattern -/

/-- The sign bit. -/
def isNegative (x : Double) : Bool := Nat.pow 2 63 ≤ x.bits.toNat

/-- The bits below the sign, as a number.  They grow with the absolute value. -/
def magnitude (x : Double) : Nat := x.bits.toNat % Nat.pow 2 63

/-- The magnitude of an infinity; everything above it is a NaN. -/
def infinityMagnitude : Nat := 2047 * Nat.pow 2 52

def isNaN (x : Double) : Bool := infinityMagnitude < x.magnitude

def isInfinite (x : Double) : Bool := x.magnitude = infinityMagnitude

def isFinite (x : Double) : Bool := x.magnitude < infinityMagnitude

/-- Both zeros have magnitude zero. -/
def isZero (x : Double) : Bool := x.magnitude = 0

/-- Assembles a double from a sign and a magnitude. -/
def ofMagnitude (negative : Bool) (magnitude : Nat) : Double :=
  ⟨UInt64.ofNat ((if negative then Nat.pow 2 63 else 0) + magnitude)⟩

def zero : Double := ⟨0⟩

def infinity : Double := ofMagnitude false infinityMagnitude

/-- The quiet NaN with a clear sign. -/
def nan : Double := ofMagnitude false (infinityMagnitude + Nat.pow 2 51)

/-- The quiet NaN that an invalid operation produces: its sign is set. -/
def invalid : Double := ofMagnitude true (infinityMagnitude + Nat.pow 2 51)

/-! ### The value of a finite double -/

/-- The integer `m` of `m · 2^q`. -/
def mantissa (x : Double) : Nat :=
  if x.magnitude / Nat.pow 2 52 = 0 then x.magnitude % Nat.pow 2 52
  else x.magnitude % Nat.pow 2 52 + Nat.pow 2 52

/-- The exponent `q` of `m · 2^q`; at least `-1074`. -/
def exponent (x : Double) : Int :=
  if x.magnitude / Nat.pow 2 52 = 0 then -1074
  else (x.magnitude / Nat.pow 2 52 : Nat) - 1075

/-! ### Rounding to the nearest double -/

/-- `n / d` rounded to the nearest integer, ties to the even one. -/
def divHalfEven (n d : Nat) : Nat :=
  let q := n / d
  let r := n % d
  if 2 * r < d then q
  else if d < 2 * r then q + 1
  else if q % 2 = 0 then q else q + 1

/-- The magnitude nearest to `m · 2^e`.  The result keeps 53 bits, or fewer below
    the normal range; a mantissa that is rounded up to `2^53` carries into the
    exponent field by itself. -/
def roundMagnitude (m : Nat) (e : Int) : Nat :=
  if m = 0 then 0
  else
    let q := max (e + (m.log2 + 1 : Nat) - 53) (-1074)
    let kept :=
      if q ≤ e then m * Nat.pow 2 (e - q).toNat
      else divHalfEven m (Nat.pow 2 (q - e).toNat)
    min ((q + 1074).toNat * Nat.pow 2 52 + kept) infinityMagnitude

/-- The double nearest to `± m · 2^e`, ties to even, infinity beyond the range. -/
def ofScaled (negative : Bool) (m : Nat) (e : Int) : Double :=
  ofMagnitude negative (roundMagnitude m e)

/-- The double nearest to an integer. -/
def ofInt (n : Int) : Double := ofScaled (n < 0) n.natAbs 0

/-- The double nearest to `± n / d`.  The quotient is taken to at least 55 bits, and
    a bit that says whether anything was left over stands in for the rest. -/
def ofRatio (negative : Bool) (n d : Nat) : Double :=
  let shift := d.log2 + 56 - n.log2
  let q := n * Nat.pow 2 shift / d
  let left := if n * Nat.pow 2 shift % d = 0 then 0 else 1
  ofScaled negative (2 * q + left) (-(shift : Int) - 1)

/-- The double nearest to `± n · 10^e`.  Far outside the range the answer is known
    from the number of digits alone. -/
def ofDecimal (negative : Bool) (n : Nat) (e : Int) : Double :=
  let digits : Int := ((n.log2 : Nat) : Int) * 30103 / 100000
  if n = 0 then ofMagnitude negative 0
  else if 400 < digits + e then ofMagnitude negative infinityMagnitude
  else if digits + e < -400 then ofMagnitude negative 0
  else if 0 ≤ e then ofScaled negative (n * Nat.pow 10 e.toNat) 0
  else ofRatio negative n (Nat.pow 10 (-e).toNat)

/-! ### Comparison -/

/-- Orders the doubles that are not NaN: equal keys are equal numbers, and a smaller
    key is a smaller number. -/
def key (x : Double) : Int :=
  if x.isNegative then -(x.magnitude : Int) else x.magnitude

/-- Numerical equality: both zeros are equal, and a NaN equals nothing. -/
def eq (x y : Double) : Bool := !x.isNaN && !y.isNaN && x.key == y.key

def lt (x y : Double) : Bool := !x.isNaN && !y.isNaN && x.key < y.key

def le (x y : Double) : Bool := !x.isNaN && !y.isNaN && x.key ≤ y.key

/-- The order of two numbers; none with a NaN. -/
def compare (x y : Double) : Option Ordering :=
  if x.isNaN || y.isNaN then none else some (Ord.compare x.key y.key)

/-! ### Sign -/

/-- Flips the sign bit, of a NaN too. -/
def neg (x : Double) : Double := ofMagnitude (!x.isNegative) x.magnitude

/-- Clears the sign bit. -/
def abs (x : Double) : Double := ofMagnitude false x.magnitude

/-- The absolute value of `x` with the sign of `y`. -/
def copySign (x y : Double) : Double := ofMagnitude y.isNegative x.magnitude

/-! ### Machine arithmetic -/

def toFloat (x : Double) : Float := Float.ofBits x.bits

/-- The double of a machine result that is no NaN, and the invalid one otherwise. -/
def ofFloat (r : Float) : Double := if r.isNaN then invalid else ⟨r.toBits⟩

/-- A machine function of one number. -/
def lift (f : Float → Float) (x : Double) : Double :=
  if x.isNaN then x else ofFloat (f x.toFloat)

/-- A machine function of two numbers. -/
def lift₂ (f : Float → Float → Float) (x y : Double) : Double :=
  if x.isNaN then x else if y.isNaN then y else ofFloat (f x.toFloat y.toFloat)

def add : Double → Double → Double := lift₂ (· + ·)
def sub : Double → Double → Double := lift₂ (· - ·)
def mul : Double → Double → Double := lift₂ (· * ·)
def div : Double → Double → Double := lift₂ (· / ·)
def sqrt : Double → Double := lift Float.sqrt

/-- Powers.  `1` to any power and any base to the power zero are `1`, NaN or not. -/
def pow (x y : Double) : Double :=
  if y.isZero || x == ofInt 1 then ofInt 1 else lift₂ Float.pow x y

/-! ### Integral values -/

/-- `± m · 2^q` rounded to an integer by `round`, which is given the sign, the whole
    part, what is left of the mantissa and the mantissa's unit `2^-q`.  Doubles with
    `q ≥ 0` are integral already. -/
def toIntegral (round : Bool → Nat → Nat → Nat → Nat) (x : Double) : Double :=
  if !x.isFinite || 0 ≤ x.exponent then x
  else
    let unit := Nat.pow 2 (-x.exponent).toNat
    let whole := round x.isNegative (x.mantissa / unit) (x.mantissa % unit) unit
    ofScaled x.isNegative whole 0

/-- The greatest integral value not above `x`. -/
def floor : Double → Double :=
  toIntegral fun negative whole left _ => if negative && left != 0 then whole + 1 else whole

/-- The least integral value not below `x`. -/
def ceil : Double → Double :=
  toIntegral fun negative whole left _ => if !negative && left != 0 then whole + 1 else whole

/-- The integral part. -/
def trunc : Double → Double :=
  toIntegral fun _ whole _ _ => whole

/-- The nearest integral value, ties to the even one. -/
def roundEven : Double → Double :=
  toIntegral fun _ whole left unit => divHalfEven (whole * unit + left) unit

/-- A number is integral when cutting off its fraction changes nothing. -/
def isIntegral (x : Double) : Bool := x.isFinite && x.trunc == x

/-- The integer nearest to zero of the two around a finite `x`. -/
def truncToInt (x : Double) : Int :=
  let size : Nat :=
    if 0 ≤ x.exponent then x.mantissa * Nat.pow 2 x.exponent.toNat
    else x.mantissa / Nat.pow 2 (-x.exponent).toNat
  if x.isNegative then -(size : Int) else size

/-! ### Remainder and hypotenuse -/

/-- The remainder of the division of `x` by `y` with the quotient cut off; its sign
    is that of `x`, and it is always exact. -/
def rem (x y : Double) : Double :=
  if x.isNaN then x
  else if y.isNaN then y
  else if x.isInfinite || y.isZero then invalid
  else if y.isInfinite then x
  else
    let e := min x.exponent y.exponent
    let m := x.mantissa * Nat.pow 2 (x.exponent - e).toNat
    let d := y.mantissa * Nat.pow 2 (y.exponent - e).toNat
    ofScaled x.isNegative (m % d) e

/-- The integer square root, by halving the exponent: the root of `n` is found from
    that of `n / 4`, doubled and if possible increased by one. -/
def natSqrt (n : Nat) : Nat :=
  go (n.log2 / 2 + 1) n
where
  go : Nat → Nat → Nat
    | 0, _ => 0
    | fuel + 1, n =>
      if n = 0 then 0
      else
        let r := 2 * go fuel (n / 4)
        if (r + 1) * (r + 1) ≤ n then r + 1 else r

/-- `√(x² + y²)`, correctly rounded.  An infinite side wins over a NaN. -/
def hypot (x y : Double) : Double :=
  if x.isInfinite || y.isInfinite then infinity
  else if x.isNaN then x
  else if y.isNaN then y
  else
    let e := min x.exponent y.exponent
    let a := x.mantissa * Nat.pow 2 (x.exponent - e).toNat
    let b := y.mantissa * Nat.pow 2 (y.exponent - e).toNat
    let square := (a * a + b * b) * Nat.pow 2 128
    let root := natSqrt square
    let left := if root * root = square then 0 else 1
    ofScaled false (2 * root + left) (e - 65)

/-- `10^n` by repeated squaring from the low bit of `|n|` up, and its reciprocal for a
    negative `n`. -/
def powerOfTen (n : Int) : Double :=
  let r := go (n.natAbs.log2 + 1) n.natAbs (ofInt 10) (ofInt 1)
  if n < 0 then (ofInt 1).div r else r
where
  go : Nat → Nat → Double → Double → Double
    | 0, _, _, r => r
    | fuel + 1, n, b, r =>
      let r := if n % 2 = 1 then r.mul b else r
      if n / 2 = 0 then r else go fuel (n / 2) (b.mul b) r

end Double

end SafeExpr
