/-
  SafeExpr/Compiled.lean
  ======================
  **Expressions that are ready to be evaluated.**

  Compiling does all that needs no variables: the text is read, checked against the
  permitted subset, and its calls are checked against a namespace.  The result lists the
  names that it depends on, and can be evaluated any number of times.
-/
import SafeExpr.Check.Calls
import SafeExpr.Evaluation.Eval
import SafeExpr.Parse.Basic

namespace SafeExpr

/-- Whatever can go wrong from a namespace to a value. -/
inductive Error where
  | namespaces (e : NamespaceError)
  | parse (e : ParseError)
  | rejected (r : Rejection)
  | evaluation (e : EvalError)
deriving DecidableEq, Repr

namespace Error

/-- The stage that failed, and its message. -/
def message : Error → String
  | namespaces e => "namespace error: " ++ e.message
  | parse e => "parse error: " ++ e.message
  | rejected r => "rejected: " ++ r.message
  | evaluation e => "evaluation error: " ++ e.message

/-- The place in the text that the error concerns; errors of namespaces have none. -/
def span? : Error → Option Span
  | namespaces _ => none
  | parse e => some e.span
  | rejected r => some r.span
  | evaluation e => some e.span

def diagnostic? : Error → Option Diagnostic
  | namespaces _ => none
  | parse e => some e.diagnostic
  | rejected r => some r.diagnostic
  | evaluation e => some e.diagnostic

end Error

/-- A checked expression and the namespace it is bound to. -/
structure Compiled where
  source : String
  expr : Expr
  bound : Namespace
  /-- Every name that the expression depends on, in order of first appearance; names
      that its calls look up by themselves come last. -/
  referenced : List String

namespace Compiled

/-- Reads and checks a text against a namespace. -/
def compile (source : String) (ns : Namespace) (maxDepth : Nat) : Except Error Compiled := do
  let e ← (parseWith maxDepth source).mapError .parse
  e.validate.mapError .rejected
  (e.checkCalls ns).mapError .rejected
  return { source := source, expr := e, bound := ns, referenced := e.references ns }

/-- The names that the namespace supplies. -/
def predefined (c : Compiled) : List String := c.referenced.filter c.bound.contains

/-- The names that must be given as variables. -/
def free (c : Compiled) : List String := c.referenced.filter fun name => !c.bound.contains name

/-- Evaluates the expression with variables. -/
def evaluate (c : Compiled) (vars : Variables) (options : EvalOptions) : Evaluated :=
  SafeExpr.evaluate c.expr c.bound vars options

end Compiled

end SafeExpr
