/-
  SafeExpr/Parse/Literal.lean
  ===========================
  **What the literals of the language stand for.**

  Integers in four radices, decimal fractions, and quoted text with escapes.  Each
  function takes the characters of a token that the grammar has matched.
-/
import SafeExpr.Parse.Error
import SafeExpr.Syntax.Expr
import SafeExpr.Number.Int64

namespace SafeExpr

/-! ### Integers -/

/-- The value of a digit in any radix up to 36. -/
def digitValue? (c : Char) : Option Nat :=
  if c.isDigit then some (c.toNat - '0'.toNat)
  else if 'a' ≤ c && c ≤ 'z' then some (c.toNat - 'a'.toNat + 10)
  else if 'A' ≤ c && c ≤ 'Z' then some (c.toNat - 'A'.toNat + 10)
  else none

/-- The number that `value` and the digits `cs` after it make in a radix. -/
def readDigits (radix value : Nat) : List Char → Option Nat
  | [] => some value
  | c :: cs =>
    match digitValue? c with
    | some d => if d < radix then readDigits radix (value * radix + d) cs else none
    | none => none

/-- A natural number in a radix; at least one digit. -/
def readNat? (radix : Nat) (cs : List Char) : Option Nat :=
  if cs.isEmpty then none else readDigits radix 0 cs

def withoutUnderscores (cs : List Char) : List Char := cs.filter (· ≠ '_')

/-- The radix that a literal names, and its digits. -/
def splitRadix : List Char → Nat × List Char
  | '0' :: 'x' :: ds | '0' :: 'X' :: ds => (16, ds)
  | '0' :: 'o' :: ds | '0' :: 'O' :: ds => (8, ds)
  | '0' :: 'b' :: ds | '0' :: 'B' :: ds => (2, ds)
  | ds => (10, ds)

/-- The value of an integer literal, if it fits. -/
def readInteger? (text : List Char) : Option Int64 :=
  let (radix, ds) := splitRadix (withoutUnderscores text)
  (readNat? radix ds).bind fun n => fitInt64 n

/-! ### Decimal fractions -/

/-- The exponent part of a decimal fraction; none at all is zero. -/
def readExponent? : List Char → Option Int
  | [] => some 0
  | e :: ds =>
    if e = 'e' || e = 'E' then
      match ds with
      | '+' :: ds => (readNat? 10 ds).map Int.ofNat
      | '-' :: ds => (readNat? 10 ds).map fun n => -(n : Int)
      | ds => (readNat? 10 ds).map Int.ofNat
    else none

/-- Digits with an optional point and an optional exponent, and at least one digit
    before the exponent. -/
def readFraction? (negative : Bool) (cs : List Char) : Option Double :=
  let whole := cs.takeWhile Char.isDigit
  let rest := cs.dropWhile Char.isDigit
  let (places, rest) := match rest with
    | '.' :: rest => (rest.takeWhile Char.isDigit, rest.dropWhile Char.isDigit)
    | rest => ([], rest)
  match readNat? 10 (whole ++ places), readExponent? rest with
  | some n, some e => some (.ofDecimal negative n (e - places.length))
  | _, _ => none

/-- A sign or none, then `inf`, `infinity` or `nan` in any case, or a decimal fraction. -/
def readDouble? (cs : List Char) : Option Double :=
  let (negative, body) := match cs with
    | '-' :: body => (true, body)
    | '+' :: body => (false, body)
    | body => (false, body)
  let word := body.map Char.toLower
  if word = "inf".toList || word = "infinity".toList then
    some (.ofMagnitude negative Double.infinityMagnitude)
  else if word = "nan".toList then some (Double.nan.copySign (.ofMagnitude negative 0))
  else readFraction? negative body

/-! ### Quoted text -/

/-- The number of hexadecimal digits after an escape letter, for those that take some. -/
def escapeWidth? : Char → Option Nat
  | 'x' => some 2
  | 'u' => some 4
  | 'U' => some 8
  | _ => none

/-- What a backslash and another character stand for.  A line end disappears; an
    unknown escape stays as it is written. -/
def simpleEscape : Char → List Char
  | 'n' => ['\n']
  | 't' => ['\t']
  | 'r' => ['\r']
  | '0' => ['\x00']
  | 'a' => ['\x07']
  | 'b' => ['\x08']
  | 'f' => ['\x0c']
  | 'v' => ['\x0b']
  | '\\' => ['\\']
  | '\'' => ['\'']
  | '"' => ['"']
  | '\n' => []
  | c => ['\\', c]

/-- The character with a code point, if it has one: surrogates and what lies beyond
    the last plane do not. -/
def charOfCode? (n : Nat) : Option Char :=
  if n < 0xd800 || (0xdfff < n && n < 0x110000) then some (Char.ofNat n) else none

/-- An escape that is being read: where its backslash stands, its letter, how many
    digits it wants, and those it has. -/
structure OpenEscape where
  start : Nat
  letter : Char
  width : Nat
  digits : List Char

/-- The error of an escape that ends too early or names no character. -/
def OpenEscape.error (o : OpenEscape) : ParseError :=
  ⟨.invalidEscape (String.ofList ('\\' :: o.letter :: o.digits)),
    ⟨o.start, o.start + 2 + o.digits.length⟩⟩

/-- Decodes the characters between the quotes, the first of them at byte `pos`. -/
def decodeText : Option OpenEscape → Nat → List Char → Except ParseError (List Char)
  | none, _, [] => .ok []
  | some o, _, [] => .error o.error
  | some o, pos, d :: rest =>
    if isHex d then
      let o := { o with digits := o.digits ++ [d] }
      if o.digits.length = o.width then
        match (readNat? 16 o.digits).bind charOfCode? with
        | some c => (c :: ·) <$> decodeText none (pos + 1) rest
        | none => .error o.error
      else decodeText (some o) (pos + 1) rest
    else .error o.error
  | none, _, ['\\'] => .ok ['\\']
  | none, pos, '\\' :: c :: rest =>
    match escapeWidth? c with
    | some width => decodeText (some ⟨pos, c, width, []⟩) (pos + 2) rest
    | none => (simpleEscape c ++ ·) <$> decodeText none (pos + 1 + c.utf8Size) rest
  | none, pos, c :: rest => (c :: ·) <$> decodeText none (pos + c.utf8Size) rest
where
  isHex (c : Char) : Bool := (digitValue? c).any (· < 16)

/-- The text of a string literal whose quote stands at byte `start`. -/
def readQuoted (start : Nat) (text : List Char) : Except ParseError String :=
  String.ofList <$> decodeText none (start + 1) (text.drop 1).dropLast

end SafeExpr
