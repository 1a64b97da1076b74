/-
  SafeExpr/Json/Number.lean
  =========================
  **Numbers in JSON text.**

  A number is read in two steps.  `JsonText.readNumber` takes its characters apart into
  a sign, a significand and a power of ten; the significand has 64 bits, and digits that
  do not fit are dropped, those before the point at the price of one power of ten each.
  `NumberText.value?` then makes a value of these parts: whole numbers are integers as
  far as 64 bits with sign go, and everything else is a float.

  A float is the significand multiplied or divided by a power of ten in machine
  arithmetic.  It is therefore not always the double nearest to the written number.
-/
import SafeExpr.Number.Int64
import SafeExpr.Value.Basic

namespace SafeExpr.JsonText

/-- A number taken apart: `± significand · 10^exponent`. -/
structure NumberText where
  negative : Bool
  significand : Nat
  exponent : Int
  /-- Was it written without point, exponent and dropped digits? -/
  whole : Bool
deriving DecidableEq, Repr

/-! ### Values -/

/-- `10^n` as a double. -/
def tenTo (n : Nat) : Double := .ofDecimal false 1 n

/-- The greatest power of ten that is a double. -/
def maxPower : Nat := 308

/-- `x · 10^e`, in one step or, far down, in two.  There is none if it is too large. -/
def scaled? (x : Double) (e : Int) : Option Double :=
  if x.isZero then some x
  else if 0 ≤ e then
    if maxPower < e then none
    else
      let r := x.mul (tenTo e.toNat)
      if r.isInfinite then none else some r
  else if -e ≤ maxPower then some (x.div (tenTo (-e).toNat))
  else if -e ≤ 2 * maxPower then
    some ((x.div (tenTo maxPower)).div (tenTo (-e - maxPower).toNat))
  else some .zero

/-- A number without sign as a float with one. -/
def signed (negative : Bool) (x : Double) : Value := .float (if negative then x.neg else x)

/-- The value of a number.  Zero with a minus sign is a float, since no integer is a
    negative zero. -/
def NumberText.value? (t : NumberText) : Option Value :=
  let n : Int := t.significand
  if t.whole then
    match fitInt64 (if t.negative then -n else n) with
    | some m => some (if t.negative && n == 0 then signed true .zero else .int m)
    | none => some (signed t.negative (.ofInt n))
  else (scaled? (.ofInt n) t.exponent).map (signed t.negative)

/-! ### Text -/

/-- The digits at the start of a text, and the rest. -/
def splitDigits (cs : List Char) : List Char × List Char :=
  (cs.takeWhile Char.isDigit, cs.dropWhile Char.isDigit)

def digitValue (c : Char) : Nat := c.toNat - '0'.toNat

/-- The greatest significand. -/
def maxSignificand : Nat := Nat.pow 2 64 - 1

/-- Puts digits behind a significand while it stays within its bound.  Also returns the
    digits that are dropped. -/
def appendDigits (n : Nat) : List Char → Nat × List Char
  | [] => (n, [])
  | c :: rest =>
    if 10 * n + digitValue c ≤ maxSignificand then appendDigits (10 * n + digitValue c) rest
    else (n, c :: rest)

/-- A sign before the digits of an exponent. -/
def splitExponentSign : List Char → Bool × List Char
  | '+' :: rest => (false, rest)
  | '-' :: rest => (true, rest)
  | cs => (false, cs)

/-- The exponent behind a number, if there is one, and the rest.  There is no reading
    without digits. -/
def readExponent (t : NumberText) : List Char → Option (NumberText × List Char)
  | [] => some (t, [])
  | c :: cs =>
    if c = 'e' || c = 'E' then
      let (negative, cs) := splitExponentSign cs
      let (digits, rest) := splitDigits cs
      let e : Int := digits.foldl (fun n d => 10 * n + digitValue d) 0
      if digits.isEmpty then none
      else
        some ({ t with exponent := t.exponent + (if negative then -e else e), whole := false },
          rest)
    else some (t, c :: cs)

/-- The digits behind a point, if there is one, and the exponent. -/
def readFraction (t : NumberText) : List Char → Option (NumberText × List Char)
  | '.' :: cs =>
    let (digits, rest) := splitDigits cs
    let (n, dropped) := appendDigits t.significand digits
    let places := digits.length - dropped.length
    if digits.isEmpty then none
    else
      readExponent
        { t with significand := n, exponent := t.exponent - places, whole := false } rest
  | cs => readExponent t cs

/-- The number at the start of a text, and the rest.  A whole part of several digits does
    not start with a zero. -/
def readNumber (cs : List Char) : Option (NumberText × List Char) :=
  let (negative, cs) := match cs with
    | '-' :: rest => (true, rest)
    | cs => (false, cs)
  let (digits, rest) := splitDigits cs
  if digits.isEmpty || digits.head? == some '0' && digits.length != 1 then none
  else
    let (n, dropped) := appendDigits 0 digits
    readFraction ⟨negative, n, dropped.length, dropped.isEmpty⟩ rest

end SafeExpr.JsonText
