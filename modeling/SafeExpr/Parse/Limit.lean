/-
  SafeExpr/Parse/Limit.lean
  =========================
  **How deep an expression may nest.**

  Two checks keep the work of reading within bounds before any of it recurses.  The
  first one looks at the text alone and counts brackets, leaving out those in quoted
  text and comments.  The second one looks at what the grammar matched and counts every
  operator of a flat expression as one level, since each may become a level of the tree.
-/
import SafeExpr.Parse.Error

namespace SafeExpr

/-! ### Brackets in the text -/

/-- What the characters at some place of the text belong to. -/
inductive Region where
  | code
  | quoted (quote : Char)
  | comment
deriving DecidableEq, Repr

def isOpening (c : Char) : Bool := c = '(' || c = '[' || c = '\x7b'

def isClosing (c : Char) : Bool := c = ')' || c = ']' || c = '\x7d'

/-- The opening brackets of a text, each as its byte offset and the number of brackets
    that are open behind it.  Quoted text ends at its quote or with the line. -/
def openings : Region → Nat → Nat → List Char → List (Nat × Nat)
  | _, _, _, [] => []
  | .quoted _, _, _, ['\\'] => []
  | .quoted q, depth, pos, '\\' :: c :: rest =>
    openings (.quoted q) depth (pos + 1 + c.utf8Size) rest
  | .quoted q, depth, pos, c :: rest =>
    openings (if c = '\n' || c = q then .code else .quoted q) depth (pos + c.utf8Size) rest
  | .comment, depth, pos, c :: rest =>
    openings (if c = '\n' then .code else .comment) depth (pos + c.utf8Size) rest
  | .code, depth, pos, c :: rest =>
    if isOpening c then (pos, depth + 1) :: openings .code (depth + 1) (pos + 1) rest
    else
      let region : Region :=
        if c = '"' || c = '\'' then .quoted c else if c = '#' then .comment else .code
      openings region (if isClosing c then depth - 1 else depth) (pos + c.utf8Size) rest

theorem openings_nil (region : Region) (depth pos : Nat) : openings region depth pos [] = [] := by
  rw [openings]

/-- Refuses the first bracket that opens beyond the limit. -/
def checkBrackets (maxDepth : Nat) (source : List Char) : Except ParseError Unit :=
  match (openings .code 0 0 source).find? fun (_, depth) => maxDepth < depth with
  | some (pos, depth) => .error ⟨.maxDepthExceeded depth maxDepth, ⟨pos, pos + 1⟩⟩
  | none => .ok ()

/-! ### Operators in the matched text -/

/-- Rules that become a level of the tree of their own, within an expression. -/
def Rule.isOperator : Rule → Bool
  | .before _ | .between _ | .callOp | .subscriptOp | .memberOp => true
  | _ => false

/-- The levels that a node may add to the tree. -/
def ownLevels (rule : Rule) (children : List (Tree Rule)) : Nat :=
  match rule with
  | .expression => 1 + (children.filter (·.rule.isOperator)).length
  | .assignment | .slice | .starred | .doubleStarred | .callGenerator => 1
  | _ => 0

/-- Refuses a depth beyond the limit. -/
def checkLevel (maxDepth depth : Nat) (span : Span) : Except ParseError Unit :=
  if maxDepth < depth then .error ⟨.maxDepthExceeded depth maxDepth, span⟩ else .ok ()

mutual

/-- Refuses the first node, in pre-order, that may lie below the limit when `above`
    levels are above it. -/
def checkOperators (maxDepth above : Nat) : Tree Rule → Except ParseError Unit
  | .leaf rule span _ => checkLevel maxDepth (above + ownLevels rule []) span
  | .node rule span children => do
    let depth := above + ownLevels rule children
    checkLevel maxDepth depth span
    checkOperatorsAll maxDepth depth children

def checkOperatorsAll (maxDepth above : Nat) : List (Tree Rule) → Except ParseError Unit
  | [] => .ok ()
  | t :: rest => do
    checkOperators maxDepth above t
    checkOperatorsAll maxDepth above rest

end

end SafeExpr
