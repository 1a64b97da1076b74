/-
  SafeExpr/Json/Read.lean
  =======================
  **Values from JSON text.**

  Null becomes `None`, an array a list, and an object a dict with string keys; a name that
  comes twice keeps its first place and has its last value.  `Value.ofJson?` reads a whole
  text, with nothing but blanks around the value.

  The functions that follow the structure of the text call each other with less fuel each
  time.  Between two calls at the same place in the text at most one other call is made,
  so twice its length is enough.
-/
import SafeExpr.Json.Number

namespace SafeExpr.JsonText

/-! ### Blanks and strings -/

def isBlank (c : Char) : Bool := c = ' ' || c = '\n' || c = '\t' || c = '\r'

/-- The text without the blanks at its start. -/
def skipBlanks (cs : List Char) : List Char := cs.dropWhile isBlank

/-- The value of a hexadecimal digit. -/
def hexValue? (c : Char) : Option Nat :=
  if '0' ≤ c ∧ c ≤ '9' then some (c.toNat - '0'.toNat)
  else if 'a' ≤ c ∧ c ≤ 'f' then some (c.toNat - 'a'.toNat + 10)
  else if 'A' ≤ c ∧ c ≤ 'F' then some (c.toNat - 'A'.toNat + 10)
  else none

/-- The number of four hexadecimal digits. -/
def hexUnit? (a b c d : Char) : Option Nat := do
  return 4096 * (← hexValue? a) + 256 * (← hexValue? b) + 16 * (← hexValue? c) + (← hexValue? d)

/-- The character of one UTF-16 unit, if it has one. -/
def ofUnit? (n : Nat) : Option Char :=
  if n < 0xD800 ∨ 0xDFFF < n then some (Char.ofNat n) else none

/-- The character of two UTF-16 units that belong together. -/
def ofUnits? (high low : Nat) : Option Char :=
  if 0xD800 ≤ high ∧ high ≤ 0xDBFF ∧ 0xDC00 ≤ low ∧ low ≤ 0xDFFF then
    some (Char.ofNat (0x10000 + 0x400 * (high - 0xD800) + (low - 0xDC00)))
  else none

/-- The character that a backslash and one letter stand for. -/
def escaped? : Char → Option Char
  | '"' => some '"'
  | '\\' => some '\\'
  | '/' => some '/'
  | 'b' => some '\x08'
  | 'f' => some '\x0c'
  | 'n' => some '\n'
  | 'r' => some '\r'
  | 't' => some '\t'
  | _ => none

/-- The characters of a string from behind its first quote on, and the rest behind its
    second one.  Control characters have to be escaped, and a surrogate needs its pair. -/
def readString : List Char → Option (List Char × List Char)
  | '"' :: rest => some ([], rest)
  | '\\' :: 'u' :: a :: b :: c :: d :: rest =>
    match (hexUnit? a b c d).bind ofUnit?, rest with
    | some x, rest => do
      let (cs, rest) ← readString rest
      return (x :: cs, rest)
    | none, '\\' :: 'u' :: a' :: b' :: c' :: d' :: rest => do
      let x ← ofUnits? (← hexUnit? a b c d) (← hexUnit? a' b' c' d')
      let (cs, rest) ← readString rest
      return (x :: cs, rest)
    | none, _ => none
  | '\\' :: c :: rest => do
    let x ← escaped? c
    let (cs, rest) ← readString rest
    return (x :: cs, rest)
  | c :: rest =>
    if c = '\\' ∨ c.toNat < 0x20 then none
    else do
      let (cs, rest) ← readString rest
      return (c :: cs, rest)
  | [] => none
termination_by structural cs => cs

/-! ### Values -/

/-- The text behind a word, if it starts with the word. -/
def afterWord (word : String) (cs : List Char) : Option (List Char) :=
  if word.toList.isPrefixOf cs then some (cs.drop word.length) else none

/-- How deep arrays and objects may nest. -/
def maxNesting : Nat := 127

/-- The dict of entries with string keys, which are in reverse. -/
def dictOf? (entries : List (Value × Value)) : Option Value :=
  (Value.mkDict entries.reverse).toOption

mutual

/-- The value at the start of a text, and the rest; `nesting` is how deep arrays and
    objects may still nest. -/
def readValue (nesting : Nat) : Nat → List Char → Option (Value × List Char)
  | 0, _ => none
  | fuel + 1, cs =>
    match skipBlanks cs with
    | 'n' :: rest => do return (.none, ← afterWord "ull" rest)
    | 't' :: rest => do return (.bool true, ← afterWord "rue" rest)
    | 'f' :: rest => do return (.bool false, ← afterWord "alse" rest)
    | '"' :: rest => do
      let (s, rest) ← readString rest
      return (.str (String.ofList s), rest)
    | '[' :: rest =>
      if nesting = 0 then none
      else match skipBlanks rest with
        | ']' :: rest => some (.list [], rest)
        | rest => readItems (nesting - 1) [] fuel rest
    | '\x7b' :: rest =>
      if nesting = 0 then none
      else match skipBlanks rest with
        | '\x7d' :: rest => some (.dict [], rest)
        | rest => readEntries (nesting - 1) [] fuel rest
    | cs => do
      let (t, rest) ← readNumber cs
      return (← t.value?, rest)

/-- The items of an array behind those found, which are in reverse. -/
def readItems (nesting : Nat) (found : List Value) : Nat → List Char → Option (Value × List Char)
  | 0, _ => none
  | fuel + 1, cs => do
    let (v, rest) ← readValue nesting fuel cs
    match skipBlanks rest with
    | ',' :: rest => readItems nesting (v :: found) fuel rest
    | ']' :: rest => return (.list (v :: found).reverse, rest)
    | _ => none

/-- The entries of an object behind those found, which are in reverse. -/
def readEntries (nesting : Nat) (found : List (Value × Value)) :
    Nat → List Char → Option (Value × List Char)
  | 0, _ => none
  | fuel + 1, cs =>
    match skipBlanks cs with
    | '"' :: rest => do
      let (key, rest) ← readString rest
      match skipBlanks rest with
      | ':' :: rest => do
        let (v, rest) ← readValue nesting fuel rest
        let found := (.str (String.ofList key), v) :: found
        match skipBlanks rest with
        | ',' :: rest => readEntries nesting found fuel rest
        | '\x7d' :: rest => return (← dictOf? found, rest)
        | _ => none
      | _ => none
    | _ => none

end

end SafeExpr.JsonText

namespace SafeExpr

open JsonText

/-- The value of a JSON text. -/
def Value.ofJson? (text : String) : Option Value :=
  match readValue maxNesting (2 * text.length + 1) text.toList with
  | .some (v, rest) => if (skipBlanks rest).isEmpty then .some v else .none
  | .none => .none

end SafeExpr
