/-
  SafeExpr/Evaluation/Error.lean
  ==============================
  **Why an evaluation fails.**

  An `EvalError` is a cause and the span of the node at which it arose.  A failure of a
  native function is kept as it was reported.
-/
import SafeExpr.Check.Rejection
import SafeExpr.Evaluation.Operators
import SafeExpr.Function.Native

namespace SafeExpr

/-- A value or a function of the wrong type for its place. -/
inductive TypeFault where
  | operands (fault : OperandFault)
  | value (e : ValueError)
  /-- A function named where a value is wanted. -/
  | functionAsValue (name : String)
  | notCallable (type : String)
  /-- Arguments that do not match the parameters, other than in number. -/
  | arguments (function : String) (e : BindError)
deriving DecidableEq, Repr

def TypeFault.message : TypeFault → String
  | .operands fault => fault.message
  | .value e => e.message
  | .functionAsValue name => "function '" ++ name ++ "' can only be called"
  | .notCallable type => "'" ++ type ++ "' object is not callable"
  | .arguments function e => function ++ "() " ++ e.message

inductive EvalErrorKind where
  /-- Bound neither as a variable nor in the namespace. -/
  | unboundName (name : String)
  /-- Bound both as a variable and in the namespace. -/
  | ambiguousName (name : String)
  | typeMismatch (fault : TypeFault)
  | divisionByZero
  | arithmetic (fault : ArithmeticFault)
  | arityMismatch (function : String) (expected : Arity) (found : Nat)
  | backend (function : String) (e : BackendError)
  | stackOverflow (depth maxDepth : Nat)
  | stepLimit (limit : Nat)
  /-- A node outside the permitted subset. -/
  | unsupported (construct : Construct)
deriving DecidableEq, Repr

structure EvalError where
  kind : EvalErrorKind
  span : Span
deriving DecidableEq, Repr

def EvalErrorKind.message : EvalErrorKind → String
  | .unboundName name => "name '" ++ name ++ "' is not defined"
  | .ambiguousName name =>
    "name '" ++ name ++ "' is ambiguous: it is both a variable and a namespace binding"
  | .typeMismatch fault => fault.message
  | .divisionByZero => "division by zero"
  | .arithmetic fault => fault.message
  | .arityMismatch function expected found =>
    function ++ "() takes " ++ expected.text ++ " positional arguments but " ++ toString found ++
      " were given"
  | .backend function e => function ++ "() raised: " ++ e.message
  | .stackOverflow depth maxDepth =>
    "evaluation stack overflow: depth " ++ toString depth ++ " exceeds maximum of " ++
      toString maxDepth
  | .stepLimit limit => "evaluation exceeded the limit of " ++ toString limit ++ " steps"
  | .unsupported construct => construct.text ++ " cannot be evaluated"

def EvalErrorKind.code : EvalErrorKind → String
  | .unboundName _ => "E001"
  | .ambiguousName _ => "E002"
  | .typeMismatch _ => "E003"
  | .divisionByZero => "E004"
  | .arithmetic _ => "E005"
  | .arityMismatch .. => "E006"
  | .backend .. => "E007"
  | .stackOverflow .. => "E008"
  | .stepLimit _ => "E009"
  | .unsupported _ => "E010"

def EvalErrorKind.help : EvalErrorKind → List String
  | .unboundName _ => ["Pass the name as a variable or export it from the namespace"]
  | .ambiguousName _ => ["Rename the variable so it does not collide with the namespace"]
  | .stackOverflow .. => ["Simplify the expression or raise ExecutionOptions::max_depth"]
  | .stepLimit _ => ["Simplify the expression or raise ExecutionOptions::max_steps"]
  | _ => []

namespace EvalError

def message (e : EvalError) : String := e.kind.message

def diagnostic (e : EvalError) : Diagnostic := ⟨e.message, e.span, e.kind.help, e.kind.code⟩

/-- The failure of an operator at a node. -/
def ofOperator (span : Span) : OperatorError → EvalError
  | .divisionByZero => ⟨.divisionByZero, span⟩
  | .operands fault => ⟨.typeMismatch (.operands fault), span⟩
  | .arithmetic fault => ⟨.arithmetic fault, span⟩

end EvalError

end SafeExpr
