/-
  SafeExpr/Grammar/Expression.lean
  ================================
  **The grammar of the expression language.**

  The grammar reads more than the language permits: member access, subscripts, lambdas,
  comprehensions, assignments and statements have rules of their own, so that a later
  check can refuse each by name and place instead of calling it a misspelling.

  Operators are read as a flat run of prefixes, operands, postfixes and infixes; what
  binds to what is decided afterwards (`Parse/Precedence.lean`).
-/
import SafeExpr.Grammar.Pattern
import SafeExpr.Grammar.Rule

namespace SafeExpr

open Pattern

/-! ### Characters and words -/

def isWordStart (c : Char) : Bool := c.isAlpha || c = '_'

def isWordChar (c : Char) : Bool := c.isAlphanum || c = '_'

def isHexDigit (c : Char) : Bool :=
  c.isDigit || ('a' ≤ c && c ≤ 'f') || ('A' ≤ c && c ≤ 'F')

def isOctalDigit (c : Char) : Bool := '0' ≤ c && c ≤ '7'

def isBinaryDigit (c : Char) : Bool := c = '0' || c = '1'

/-- The words that open a statement. -/
def statementWords : List String :=
  ["import", "from", "def", "class", "for", "while", "with", "try", "return", "yield",
   "del", "pass", "raise", "global", "nonlocal", "assert", "async", "await", "break",
   "continue"]

/-- The words that are no names.  No word comes before a longer one that it begins. -/
def reservedWords : List String :=
  ["and", "or", "not", "in", "is", "if", "else", "elif", "lambda", "for", "True", "False",
   "None", "import", "from", "def", "class", "while", "with", "try", "except", "finally",
   "return", "yield", "del", "pass", "raise", "global", "nonlocal", "assert", "async",
   "await", "break", "continue", "as"]

namespace Grammar

/-- One of the words, not followed by more of a word. -/
def anyWord (words : List String) : Pattern Rule :=
  oneOf (words.map lit) ++ .unless (.char isWordChar)

def word (w : String) : Pattern Rule := anyWord [w]

/-- A digit, then digits; a single underscore may stand before each further one. -/
def digits (accepts : Char → Bool) : Pattern Rule :=
  .char accepts ++ .many (.optional (lit "_") ++ .char accepts)

/-- A prefix in one of two spellings, then digits; underscores may stand before any. -/
def prefixedInteger (lower upper : String) (accepts : Char → Bool) : Pattern Rule :=
  (lit lower ||| lit upper) ++ Pattern.some (.optional (lit "_") ++ .char accepts)

def decimalDigits : Pattern Rule := digits Char.isDigit

def exponentPart : Pattern Rule :=
  (lit "e" ||| lit "E") ++ .optional (lit "+" ||| lit "-") ++ decimalDigits

/-- Text between two `quote`s on one line; a backslash takes the next character. -/
def quotedText (quote : Char) : Pattern Rule :=
  .text [quote]
    ++ .many (lit "\\" ++ .char (fun _ => true)
      ||| .char (fun c => c ≠ quote && c ≠ '\\' && c ≠ '\n'))
    ++ .text [quote]

/-! ### Parts that leave no node -/

def expr : Pattern Rule := .rule .expression

def ident : Pattern Rule := .rule .ident

def keyword (k : Keyword) : Pattern Rule := .rule (.keyword k)

def comma : Pattern Rule := lit ","

def prefixPart : Pattern Rule :=
  oneOf ([.lambda, .not, .neg, .pos, .invert].map fun op => .rule (.before op))

def infixPart : Pattern Rule := oneOf (Infix.all.map fun op => .rule (.between op))

def postfixPart : Pattern Rule := oneOf [.rule .callOp, .rule .subscriptOp, .rule .memberOp]

/-- The operands. -/
def operandPart : Pattern Rule :=
  oneOf ([.float, .integer, .string, .boolean, .none, .ident, .grouped, .tuple, .generator,
    .list, .listComp, .dict, .dictComp, .set, .setComp].map .rule)

/-- An operand with the operators that stand directly before and after it. -/
def termPart : Pattern Rule := .many prefixPart ++ operandPart ++ .many postfixPart

/-- An item of a list, tuple or set. -/
def item : Pattern Rule := .rule .starred ||| expr

def argument : Pattern Rule :=
  oneOf [.rule .doubleStarred, .rule .starred, .rule .keywordArg, expr]

def comprehension (opening closing : String) (element : Pattern Rule) : Pattern Rule :=
  lit opening ++ element ++ Pattern.some (.rule .compFor) ++ lit closing

/-! ### Rules -/

/-- The spelling of an infix operator. -/
def infixPattern : Infix → Pattern Rule
  | .walrus => lit ":="
  | .ternary => keyword .if ++ expr ++ keyword .else
  | .or => word "or"
  | .and => word "and"
  | .notIn => keyword .not ++ keyword .in
  | .isIn => word "in"
  | .isNot => keyword .is ++ keyword .not
  | .is => word "is"
  | .eq => lit "=="
  | .ne => lit "!="
  | .le => lit "<="
  | .ge => lit ">="
  | .shl => lit "<<"
  | .shr => lit ">>"
  | .lt => lit "<"
  | .gt => lit ">"
  | .bitOr => lit "|"
  | .bitXor => lit "^"
  | .bitAnd => lit "&"
  | .add => lit "+"
  | .sub => lit "-"
  | .pow => lit "**"
  | .mul => lit "*"
  | .floorDiv => lit "//"
  | .div => lit "/"
  | .mod => lit "%"

def prefixPattern : Prefix → Pattern Rule
  | .lambda => keyword .lambda ++ .optional (.rule .lambdaParams) ++ lit ":"
  | .not => word "not"
  | .neg => lit "-"
  | .pos => lit "+"
  | .invert => lit "~"

/-- The pattern of each rule. -/
def rulePattern : Rule → Pattern Rule
  | .endOfInput => .endOfText
  | .source =>
    .text [] ++ oneOf [.rule .statement, .rule .assignment, expr] ++ .rule .endOfInput
  | .statement => .rule .statementKeyword ++ .rule .statementBody
  | .statementBody => .many (.char fun _ => true)
  | .statementKeyword => anyWord statementWords
  | .assignment => expr ++ .rule .assignOp ++ expr
  | .assignOp =>
    oneOf (["**=", "//=", ">>=", "<<=", "+=", "-=", "*=", "/=", "%=", "&=", "|=", "^=",
      "@="].map lit) ||| lit "=" ++ .unless (lit "=")
  | .expression => termPart ++ .many (infixPart ++ termPart)
  | .before op => prefixPattern op
  | .lambdaParams => ident ++ .many (comma ++ ident) ++ .optional comma
  | .between op => infixPattern op
  | .callOp =>
    lit "(" ++ .rule .callGenerator ++ lit ")" ||| lit "(" ++ commaList argument ++ lit ")"
  | .callGenerator => expr ++ Pattern.some (.rule .compFor)
  | .keywordArg => ident ++ lit "=" ++ .unless (lit "=") ++ expr
  | .subscriptOp => lit "[" ++ (.rule .slice ||| expr) ++ lit "]"
  | .slice =>
    .optional (.rule .sliceLower) ++ lit ":" ++ .optional (.rule .sliceUpper)
      ++ .optional (lit ":" ++ .optional (.rule .sliceStep))
  | .sliceLower | .sliceUpper | .sliceStep => expr
  | .memberOp => lit "." ++ .rule .memberName
  | .memberName => .char isWordStart ++ .many (.char isWordChar)
  | .grouped => lit "(" ++ expr ++ lit ")"
  | .tuple =>
    lit "(" ++ lit ")" ||| lit "(" ++ item ++ comma ++ commaList item ++ lit ")"
  | .generator => comprehension "(" ")" expr
  | .list => lit "[" ++ commaList item ++ lit "]"
  | .listComp => comprehension "[" "]" expr
  | .dict => lit "\x7b" ++ commaList (.rule .dictEntry) ++ lit "\x7d"
  | .dictComp => comprehension "\x7b" "\x7d" (.rule .dictEntry)
  | .set =>
    lit "\x7b" ++ item ++ .many (comma ++ item) ++ .optional comma ++ lit "\x7d"
  | .setComp => comprehension "\x7b" "\x7d" expr
  | .dictEntry => expr ++ lit ":" ++ expr
  | .starred => lit "*" ++ expr
  | .doubleStarred => lit "**" ++ expr
  | .compFor =>
    keyword .for ++ .rule .compTarget ++ keyword .in ++ expr ++ .many (.rule .compIf)
  | .compTarget => ident ++ .many (comma ++ ident)
  | .compIf => keyword .if ++ expr
  | .float =>
    oneOf [decimalDigits ++ lit "." ++ decimalDigits ++ .optional exponentPart,
      lit "." ++ decimalDigits ++ .optional exponentPart,
      decimalDigits ++ exponentPart]
  | .integer =>
    oneOf [prefixedInteger "0x" "0X" isHexDigit, prefixedInteger "0o" "0O" isOctalDigit,
      prefixedInteger "0b" "0B" isBinaryDigit, decimalDigits]
  | .string => quotedText '"' ||| quotedText '\''
  | .boolean => anyWord ["True", "False"]
  | .none => word "None"
  | .ident => .unless (anyWord reservedWords) ++ .char isWordStart ++ .many (.char isWordChar)
  | .keyword k => word k.word

/-- The rules that are read as one piece, without blanks inside. -/
def isSolid : Rule → Bool
  | .statementBody | .statementKeyword | .assignOp | .memberName => true
  | .before .not => true
  | .between .or | .between .and | .between .isIn | .between .is => true
  | .float | .integer | .string | .boolean | .none | .ident | .keyword _ => true
  | _ => false

mutual

/-- Skips blanks, line continuations and comments. -/
def skipLayout : Nat → List Char → Cursor
  | pos, ' ' :: rest | pos, '\t' :: rest | pos, '\r' :: rest | pos, '\n' :: rest =>
    skipLayout (pos + 1) rest
  | pos, '\\' :: '\n' :: rest => skipLayout (pos + 2) rest
  | pos, '\\' :: '\r' :: '\n' :: rest => skipLayout (pos + 3) rest
  | pos, '#' :: rest => skipComment (pos + 1) rest
  | pos, rest => ⟨pos, rest⟩

/-- Skips the rest of a comment, and what may be skipped after it. -/
def skipComment : Nat → List Char → Cursor
  | pos, [] => ⟨pos, []⟩
  | pos, '\n' :: rest => skipLayout (pos + 1) rest
  | pos, c :: rest => skipComment (pos + c.utf8Size) rest

end

/-- The grammar of the expression language. -/
def expression : Grammar Rule where
  pattern := rulePattern
  isToken := isSolid
  skipBlanks c := skipLayout c.pos c.rest

/-- Enough fuel to match a text of `n` characters: reading a character, or finding that
    it cannot be read, never nests patterns deeper than this factor. -/
def fuelFor (n : Nat) : Nat := 256 * (n + 2)

/-- Reads a whole text, blanks around it aside.  The outcome is the node of the source
    or the trail of what failed. -/
def readSource (cs : List Char) : Outcome Rule × Trail Rule :=
  expression.run (fuelFor cs.length) false (.rule .source) (.start cs) .start

end Grammar

end SafeExpr
