/-
  SafeExpr/Parse/Basic.lean
  =========================
  **From a source text to its syntax tree.**

  `parseWith` checks the brackets, matches the grammar, checks the operators, builds the
  tree, and checks its height.  The first of these that fails gives the error.
-/
import SafeExpr.Grammar.Expression
import SafeExpr.Parse.Build
import SafeExpr.Parse.Limit

namespace SafeExpr

/-- The limit on nesting where none is given. -/
def defaultMaxDepth : Nat := 256

/-- The node that the grammar leaves for a whole text. -/
def matchSource (source : List Char) : Except ParseError (Tree Rule) :=
  match Grammar.readSource source with
  | (.matched _ (tree :: _), _) => .ok tree
  | (.failed, trail) => .error (.unexpected source trail)
  | _ => .error malformed

/-- The syntax tree of a text that nests at most `maxDepth` levels. -/
def parseWith (maxDepth : Nat) (source : String) : Except ParseError Expr := do
  let cs := source.toList
  checkBrackets maxDepth cs
  let tree ← matchSource cs
  checkOperators maxDepth 0 tree
  let e ← Build.source tree
  if maxDepth < e.depth then throw ⟨.maxDepthExceeded e.depth maxDepth, e.span⟩
  return e

/-- The syntax tree of a text, within the default limit. -/
def parse (source : String) : Except ParseError Expr := parseWith defaultMaxDepth source

end SafeExpr
