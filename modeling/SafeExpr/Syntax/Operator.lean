/-
  SafeExpr/Syntax/Operator.lean
  =============================
  **The operators of the language and how they are written.**

  One enumeration per role an operator plays in a tree.  `symbol` is the spelling
  in the source; it is also the spelling that error messages use.
-/

namespace SafeExpr

/-- Operators with two operands that are always both evaluated. -/
inductive BinaryOp where
  | add | sub | mul | div | floorDiv | mod | pow
  | bitAnd | bitOr | bitXor | shl | shr
deriving DecidableEq, Repr

def BinaryOp.symbol : BinaryOp → String
  | .add => "+"
  | .sub => "-"
  | .mul => "*"
  | .div => "/"
  | .floorDiv => "//"
  | .mod => "%"
  | .pow => "**"
  | .bitAnd => "&"
  | .bitOr => "|"
  | .bitXor => "^"
  | .shl => "<<"
  | .shr => ">>"

/-- Operators with one operand, written before it. -/
inductive UnaryOp where
  | neg | pos | invert | not
deriving DecidableEq, Repr

def UnaryOp.symbol : UnaryOp → String
  | .neg => "-"
  | .pos => "+"
  | .invert => "~"
  | .not => "not"

/-- Operators that evaluate their second operand only when the first one does not
    decide. -/
inductive BoolOp where
  | and | or
deriving DecidableEq, Repr

def BoolOp.symbol : BoolOp → String
  | .and => "and"
  | .or => "or"

/-- Links of a comparison chain. -/
inductive CompareOp where
  | eq | ne | lt | le | gt | ge | isIn | notIn | is | isNot
deriving DecidableEq, Repr

def CompareOp.symbol : CompareOp → String
  | .eq => "=="
  | .ne => "!="
  | .lt => "<"
  | .le => "<="
  | .gt => ">"
  | .ge => ">="
  | .isIn => "in"
  | .notIn => "not in"
  | .is => "is"
  | .isNot => "is not"

/-- Assignment operators.  Assignments are read only so that they can be refused by
    name. -/
inductive AssignOp where
  | assign
  | augmented (op : BinaryOp)
  | matMul
deriving DecidableEq, Repr

def AssignOp.symbol : AssignOp → String
  | .assign => "="
  | .augmented op => op.symbol ++ "="
  | .matMul => "@="

/-- The brackets a comprehension stands in, and what it would build. -/
inductive ComprehensionKind where
  | list | set | dict | generator
deriving DecidableEq, Repr

end SafeExpr
