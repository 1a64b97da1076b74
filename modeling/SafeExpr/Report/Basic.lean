/-
  SafeExpr/Report/Basic.lean
  ==========================
  **Errors shown at their place in the source.**

  A report has a headline, the line of the source that the error concerns with a label
  below it, and what may help.  The label is a rule under the characters of
  `labelRange`, and the message hangs from the middle of it:

      [E004] Error: division by zero
         ╭─[ <expr>:1:5 ]
         │
       1 │ 7 + 1/0
         │     ─┬─
         │      ╰─── division by zero
      ───╯

  Blanks behind the rule are kept.  An error without a place is its message alone.
-/
import SafeExpr.Compiled
import SafeExpr.Report.Lines
import SafeExpr.Text.Blank
import SafeExpr.Text.Width

namespace SafeExpr

namespace Report

/-! ### Where the label stands -/

/-- The range that the label of a diagnostic covers: its span, or, where that is empty,
    one place at its start, or the last character at the end of the text. -/
def labelRange (source : String) (s : Span) : CharRange :=
  if !s.isEmpty then ⟨s.start, s.stop⟩
  else
    match source.toList.getLast? with
    | some last =>
      if source.utf8ByteSize ≤ s.start then
        ⟨source.utf8ByteSize - last.utf8Size, source.utf8ByteSize⟩
      else ⟨s.start, s.start + 1⟩
    | none => ⟨s.start, s.start + 1⟩

/-! ### Columns -/

/-- Tabs reach to the next multiple of this many columns. -/
def tabWidth : Nat := 4

/-- The number of columns of the character at a place of its line. -/
def columns (c : Char) (place : Nat) : Nat :=
  if c = '\t' then tabWidth - place % tabWidth
  else if isBlank c then 1
  else charWidth c

/-- The text of a line without the blanks at its end; other blanks are spaces. -/
def lineText (l : Line) : List Char :=
  ((l.chars.reverse.dropWhile isBlank).reverse.zipIdx).flatMap fun (c, place) =>
    if isBlank c then List.replicate (columns c place) ' ' else [c]

/-- One piece of a row below the characters of a line: `first` in the first column of the
    character at `place`, `others` in its other ones. -/
def below (l : Line) (first others : Char) (place : Nat) : List Char :=
  match l.chars[place]? with
  | none => [first]
  | some c =>
    match columns c place with
    | 0 => []
    | n + 1 => first :: List.replicate n others

/-- Where the label of a line begins and ends, and where the message hangs, in characters
    from the start of the line. -/
structure Label where
  start : Nat
  stop : Nat
deriving DecidableEq, Repr

def Label.middle (a : Label) : Nat := (a.start + a.stop) / 2

/-- The rule under the labelled characters. -/
def ruleRow (l : Line) (a : Label) : List Char :=
  (List.range (a.stop + 2)).flatMap fun place =>
    if place = a.middle then below l '┬' '─' place
    else if a.start ≤ place && place < a.stop then below l '─' '─' place
    else below l ' ' ' ' place

/-- The arm from the middle of the rule to the message. -/
def armRow (l : Line) (a : Label) : List Char :=
  (List.range (a.stop + 2)).flatMap fun place =>
    if place = a.middle then below l '╰' '─' place
    else if a.middle < place then below l '─' '─' place
    else below l ' ' ' ' place

/-! ### Layout -/

/-- The label of a range in a line, if it lies within the line. -/
def labelIn? (l : Line) (r : CharRange) : Option Label :=
  if l.start ≤ r.start && r.stop ≤ l.stop then some ⟨r.start - l.start, r.stop - l.start⟩
  else none

/-- The name under which the source appears. -/
def sourceName : String := "<expr>"

/-- The rows that show a line with its label and the message, behind margins: `number` is
    the margin with the number of the line, and `margin` the one without. -/
def labelled (number margin : String) (l : Line) (r : CharRange) (message : String) :
    List String :=
  match labelIn? l r with
  | none => [margin ++ " "]
  | some a =>
    [number ++ " " ++ String.ofList (lineText l),
     margin ++ " " ++ String.ofList (ruleRow l a),
     margin ++ " " ++ String.ofList (armRow l a) ++ " " ++ message]

/-- What follows the headline, given the lines of the first and of the last labelled
    character. -/
def excerpt (first last : Line) (r : CharRange) (d : Diagnostic) : List String :=
  let width := (toString last.number).length
  let number := toString first.number
  let blanks (n : Nat) : String := String.ofList (List.replicate n ' ')
  let margin := blanks (width + 2) ++ "│"
  let place := number ++ ":" ++ toString (r.start - first.start + 1)
  let help := d.help.flatMap fun text => [margin ++ " ", margin ++ " Help: " ++ text]
  [blanks (width + 2) ++ "╭─[ " ++ sourceName ++ ":" ++ place ++ " ]", margin]
    ++ labelled (blanks (width + 1 - number.length) ++ number ++ " │") margin first r d.message
    ++ help
    ++ [String.ofList (List.replicate (width + 2) '─') ++ "╯"]

/-- The rows of the report of a diagnostic. -/
def rows (source : String) (d : Diagnostic) : List String :=
  let cs := source.toList
  let r := labelRange source d.span
  let headline := "[" ++ d.code ++ "] Error: " ++ d.message
  match lineAt? cs r.start, lineAt? cs (max (r.stop - 1) r.start) with
  | some first, some last => headline :: excerpt first last r d
  | _, _ => [headline]

end Report

/-- The report of an error in a source text. -/
def Error.report (source : String) (e : Error) : String :=
  let rows := match e.diagnostic? with
    | some d => Report.rows source d
    | none => ["Error: " ++ e.message]
  String.join (rows.map fun row => row ++ "\n")

end SafeExpr
