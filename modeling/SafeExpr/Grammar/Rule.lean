/-
  SafeExpr/Grammar/Rule.lean
  ==========================
  **The rules of the expression grammar.**

  `Rule.all` lists them in the order in which error messages go through them.
-/

namespace SafeExpr

/-- Operators between two operands, as the grammar tells them apart. -/
inductive Infix where
  | walrus | ternary | or | and | notIn | isIn | isNot | is
  | eq | ne | le | ge | shl | shr | lt | gt
  | bitOr | bitXor | bitAnd | add | sub | pow | mul | floorDiv | div | mod
deriving DecidableEq, Repr

/-- In the order in which they are tried: longer spellings before their beginnings. -/
def Infix.all : List Infix :=
  [.walrus, .ternary, .or, .and, .notIn, .isIn, .isNot, .is,
   .eq, .ne, .le, .ge, .shl, .shr, .lt, .gt,
   .bitOr, .bitXor, .bitAnd, .add, .sub, .pow, .mul, .floorDiv, .div, .mod]

/-- Operators before their operand. -/
inductive Prefix where
  | lambda | not | neg | pos | invert
deriving DecidableEq, Repr

/-- The words that only hold a construct together. -/
inductive Keyword where
  | lambda | if | else | for | in | is | not
deriving DecidableEq, Repr

def Keyword.word : Keyword → String
  | .lambda => "lambda"
  | .if => "if"
  | .else => "else"
  | .for => "for"
  | .in => "in"
  | .is => "is"
  | .not => "not"

/-- The named patterns of the grammar. -/
inductive Rule where
  | endOfInput
  | source
  | statement | statementBody | statementKeyword
  | assignment | assignOp
  | expression
  | before (op : Prefix) | lambdaParams
  | between (op : Infix)
  | callOp | callGenerator | keywordArg
  | subscriptOp | slice | sliceLower | sliceUpper | sliceStep
  | memberOp | memberName
  | grouped | tuple | generator
  | list | listComp
  | dict | dictComp | set | setComp
  | dictEntry | starred | doubleStarred
  | compFor | compTarget | compIf
  | float | integer | string | boolean | none
  | ident
  | keyword (k : Keyword)
deriving DecidableEq, Repr

/-- Every rule, in the order that the grammar lists them; the end of the input first. -/
def Rule.all : List Rule :=
  [.endOfInput, .source, .statement, .statementBody, .statementKeyword,
   .assignment, .assignOp, .expression,
   .before .lambda, .lambdaParams, .before .not, .before .neg, .before .pos, .before .invert]
  ++ Infix.all.map .between ++
  [.callOp, .callGenerator, .keywordArg,
   .subscriptOp, .slice, .sliceLower, .sliceUpper, .sliceStep,
   .memberOp, .memberName,
   .grouped, .tuple, .generator, .list, .listComp,
   .dict, .dictComp, .set, .setComp, .dictEntry, .starred, .doubleStarred,
   .compFor, .compTarget, .compIf,
   .float, .integer, .string, .boolean, .none, .ident,
   .keyword .lambda, .keyword .if, .keyword .else, .keyword .for, .keyword .in, .keyword .is,
   .keyword .not]

end SafeExpr
