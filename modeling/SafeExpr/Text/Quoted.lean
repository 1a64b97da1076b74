/-
  SafeExpr/Text/Quoted.lean
  =========================
  **Text between quotes.**

  Two notations.  `quoteLiteral` is used for string literals in rendered syntax trees:
  double quotes, and every character that would not show is written by its code point
  in braces.  `quoteValue` is used for strings inside rendered values: single quotes
  unless only double quotes avoid an escape, and two hexadecimal digits for a control
  character.
-/
import SafeExpr.Text.Printable

namespace SafeExpr

/-- The lower-case hexadecimal digits of `n`. -/
def hexDigits (n : Nat) : List Char := Nat.toDigits 16 n

/-- One character of a string literal in rendered syntax. -/
def literalChar (c : Char) : List Char :=
  match c with
  | '\\' => ['\\', '\\']
  | '"' => ['\\', '"']
  | '\n' => ['\\', 'n']
  | '\t' => ['\\', 't']
  | '\r' => ['\\', 'r']
  | '\x00' => ['\\', '0']
  | c =>
    if isPrintable c then [c]
    else ['\\', 'u', '\x7b'] ++ hexDigits c.toNat ++ ['\x7d']

/-- A string literal in rendered syntax. -/
def quoteLiteral (s : String) : String :=
  String.ofList ('"' :: s.toList.flatMap literalChar ++ ['"'])

/-- The quote of a rendered string value: a single one, unless the text has single
    quotes and no double ones. -/
def valueQuote (cs : List Char) : Char :=
  if cs.contains '\'' && !cs.contains '"' then '"' else '\''

/-- One character of a rendered string value between quotes `quote`. -/
def valueChar (quote c : Char) : List Char :=
  match c with
  | '\\' => ['\\', '\\']
  | '\n' => ['\\', 'n']
  | '\t' => ['\\', 't']
  | '\r' => ['\\', 'r']
  | c =>
    if c = quote then ['\\', c]
    else if c.toNat < 0x10 then ['\\', 'x', '0'] ++ hexDigits c.toNat
    else if c.toNat < 0x20 || c.toNat = 0x7f then ['\\', 'x'] ++ hexDigits c.toNat
    else [c]

/-- A rendered string value. -/
def quoteValue (s : String) : String :=
  let cs := s.toList
  let quote := valueQuote cs
  String.ofList (quote :: cs.flatMap (valueChar quote) ++ [quote])

end SafeExpr
