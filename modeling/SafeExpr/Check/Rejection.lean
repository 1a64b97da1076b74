/-
  SafeExpr/Check/Rejection.lean
  =============================
  **Why a well-formed tree is refused.**

  A tree may use a construct outside the permitted subset, or call a function that the
  namespace does not have or does not have with these keywords.  A `Rejection` is one
  such reason and the span it concerns.
-/
import SafeExpr.Parse.Error
import SafeExpr.Syntax.Expr

namespace SafeExpr

/-- The constructs that are read but not permitted. -/
inductive Construct where
  | memberAccess | subscript | slice | lambda
  | comprehension (kind : ComprehensionKind)
  | assignment | augmentedAssignment | namedExpression
  | statement (keyword : String)
  | starred | doubleStarred
  /-- A call of anything other than a bare name. -/
  | indirectCall
deriving DecidableEq, Repr

def Construct.text : Construct → String
  | .memberAccess => "attribute access"
  | .subscript => "subscript"
  | .slice => "slice"
  | .lambda => "lambda"
  | .comprehension .list => "list comprehension"
  | .comprehension .set => "set comprehension"
  | .comprehension .dict => "dict comprehension"
  | .comprehension .generator => "generator expression"
  | .assignment => "assignment"
  | .augmentedAssignment => "augmented assignment"
  | .namedExpression => "assignment expression"
  | .statement keyword => "'" ++ keyword ++ "' statement"
  | .starred => "starred unpacking"
  | .doubleStarred => "double-starred unpacking"
  | .indirectCall => "call of a non-name expression"

inductive RejectionReason where
  | forbidden (construct : Construct)
  | unknownFunction (name : String)
  | unknownKeyword (function keyword : String)
  | duplicateKeyword (function keyword : String)
deriving DecidableEq, Repr

structure Rejection where
  reason : RejectionReason
  span : Span
deriving DecidableEq, Repr

def RejectionReason.message : RejectionReason → String
  | .forbidden construct => construct.text ++ " is not allowed"
  | .unknownFunction name => "unknown function '" ++ name ++ "'"
  | .unknownKeyword function keyword =>
    "'" ++ function ++ "' got an unexpected keyword argument '" ++ keyword ++ "'"
  | .duplicateKeyword function keyword =>
    "keyword argument '" ++ keyword ++ "' repeated in call to '" ++ function ++ "'"

def RejectionReason.code : RejectionReason → String
  | .forbidden _ => "V001"
  | .unknownFunction _ => "V002"
  | .unknownKeyword .. => "V003"
  | .duplicateKeyword .. => "V004"

def RejectionReason.help : RejectionReason → List String
  | .forbidden _ =>
    ["Expressions may only use literals, operators, conditionals, names, calls of named " ++
      "functions and container displays"]
  | .unknownFunction _ => ["Only functions exported by the namespace can be called"]
  | .unknownKeyword .. | .duplicateKeyword .. => []

namespace Rejection

/-- The reason and the span. -/
def message (r : Rejection) : String := r.reason.message ++ " at " ++ r.span.text

def diagnostic (r : Rejection) : Diagnostic :=
  ⟨r.reason.message, r.span, r.reason.help, r.reason.code⟩

end Rejection

end SafeExpr
