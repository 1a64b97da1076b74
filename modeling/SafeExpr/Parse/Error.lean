/-
  SafeExpr/Parse/Error.lean
  =========================
  **Why a text is not an expression.**

  A `ParseError` is a cause and the span it concerns.  What was expected at the place
  where reading stopped is said in terms of a few concepts, not of grammar rules.
-/
import SafeExpr.Grammar.Rule
import SafeExpr.Grammar.Pattern
import SafeExpr.Text.Alphanumeric

namespace SafeExpr

/-- The diagnostic form of an error: what is shown to a reader, and where. -/
structure Diagnostic where
  message : String
  span : Span
  help : List String
  code : String
deriving DecidableEq, Repr

/-- What is wrong with a text. -/
inductive ParseErrorKind where
  | unexpectedToken (expected found : String)
  /-- An integer literal beyond 64 bits. -/
  | invalidNumber (text : String)
  /-- A numeric escape with too few digits, or of no character. -/
  | invalidEscape (text : String)
  | maxDepthExceeded (depth maxDepth : Nat)
  /-- `f(x=1, 2)` -/
  | positionalAfterKeyword
  | other (message : String)
deriving DecidableEq, Repr

structure ParseError where
  kind : ParseErrorKind
  span : Span
deriving DecidableEq, Repr

def ParseErrorKind.message : ParseErrorKind → String
  | .unexpectedToken expected found => "Expected " ++ expected ++ ", found " ++ found
  | .invalidNumber text => "Invalid number literal '" ++ text ++ "'"
  | .invalidEscape text => "Invalid escape sequence '" ++ text ++ "' in string literal"
  | .maxDepthExceeded _ maxDepth =>
    "Expression nesting depth exceeds maximum of " ++ toString maxDepth ++ " levels"
  | .positionalAfterKeyword => "Positional argument follows keyword argument"
  | .other message => message

def ParseErrorKind.code : ParseErrorKind → String
  | .unexpectedToken .. => "P001"
  | .invalidNumber _ => "P002"
  | .invalidEscape _ => "P003"
  | .maxDepthExceeded .. => "P004"
  | .positionalAfterKeyword => "P005"
  | .other _ => "P999"

def ParseErrorKind.help : ParseErrorKind → List String
  | .invalidNumber _ => ["Integer literals must fit in a signed 64-bit integer"]
  | .invalidEscape _ => ["Use \\xNN or \\uNNNN with hexadecimal digits"]
  | .maxDepthExceeded .. => ["Reduce nesting or simplify the expression"]
  | .positionalAfterKeyword => ["Move positional arguments before keyword arguments"]
  | .unexpectedToken .. | .other _ => []

namespace ParseError

/-- The message and the span. -/
def message (e : ParseError) : String := e.kind.message ++ " at " ++ e.span.text

def diagnostic (e : ParseError) : Diagnostic :=
  ⟨e.kind.message, e.span, e.kind.help, e.kind.code⟩

end ParseError

/-! ### Unexpected text -/

/-- What a reader of the language would call the thing that a rule reads. -/
def Rule.concept : Rule → String
  | .integer | .float | .boolean | .string | .none => "literal"
  | .ident => "identifier"
  | .endOfInput => "end of input"
  | .between _ | .callOp | .subscriptOp | .memberOp | .assignOp => "operator"
  | _ => "expression"

/-- The items joined by commas, with `or` before the last. -/
def alternatives : List String → String
  | [] => "something else"
  | items =>
    match items.dropLast, items.getLast? with
    | [], _ => String.join items
    | first, last => ", ".intercalate first ++ " or " ++ last.getD ""

/-- The concepts of the rules that were tried, in the order of the grammar. -/
def expectedText (tried : List Rule) : String :=
  alternatives ((Rule.all.filter tried.contains).map Rule.concept).eraseDups

/-- The word or the character at the start of a text. -/
def foundText (rest : List Char) : String :=
  let inWord (c : Char) : Bool := isAlphanumeric c || c = '_'
  match rest with
  | [] => "end of input"
  | c :: _ =>
    let token := if inWord c then rest.takeWhile inWord else [c]
    String.ofList ('\'' :: token ++ ['\''])

/-- The error of a text that the grammar does not match. -/
def ParseError.unexpected (source : List Char) (trail : Trail Rule) : ParseError :=
  ⟨.unexpectedToken (expectedText trail.tried) (foundText (dropBytes trail.pos source)),
    .point trail.pos⟩

end SafeExpr
