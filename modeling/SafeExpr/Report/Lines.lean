/-
  SafeExpr/Report/Lines.lean
  ==========================
  **The lines of a source text.**

  A line keeps the characters that end it, so that the lines of a text, one behind the
  other, are the text.  Places are counted in characters.
-/

namespace SafeExpr.Report

/-- A range of characters of a text. -/
structure CharRange where
  start : Nat
  stop : Nat
deriving DecidableEq, Repr

/-- A line: its number, counted from one, the place of its first character, and its
    characters. -/
structure Line where
  number : Nat
  start : Nat
  chars : List Char
deriving DecidableEq, Repr

/-- The place behind a line. -/
def Line.stop (l : Line) : Nat := l.start + l.chars.length

/-- Does a character end a line? -/
def endsLine (c : Char) : Bool :=
  c = '\n' || c = '\r' || c = '\x0b' || c = '\x0c' || c = '\u0085' || c = '\u2028' || c = '\u2029'

/-- Cuts a text behind each end of a line; `line` holds what was read of the current line,
    in reverse.  A carriage return and the line feed behind it are one end. -/
def cutLines (line : List Char) : List Char → List (List Char)
  | [] => if line.isEmpty then [] else [line.reverse]
  | '\r' :: '\n' :: rest => ('\n' :: '\r' :: line).reverse :: cutLines [] rest
  | c :: rest =>
    if endsLine c then (c :: line).reverse :: cutLines [] rest else cutLines (c :: line) rest

/-- Numbers lines from `number` and places them from `start`. -/
def placeLines (number start : Nat) : List (List Char) → List Line
  | [] => []
  | cs :: rest => ⟨number, start, cs⟩ :: placeLines (number + 1) (start + cs.length) rest

/-- The lines of a text.  The empty text is one empty line. -/
def linesOf (source : List Char) : List Line :=
  match cutLines [] source with
  | [] => [⟨1, 0, []⟩]
  | lines => placeLines 1 0 lines

/-- The line that a place belongs to; the place behind the last character belongs to the
    last line. -/
def lineAt? (source : List Char) (place : Nat) : Option Line :=
  if source.length < place then none
  else ((linesOf source).filter fun l => l.start ≤ place).getLast?

end SafeExpr.Report
