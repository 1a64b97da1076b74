/-
  SafeExpr/Function/Native.lean
  =============================
  **Functions that expressions may call.**

  A `NativeFunction` is a name, a signature, and a pure function of the bound arguments:
  one value per declared parameter, then the surplus ones.  Its failure is a
  `BackendError`, which reaches the caller of the evaluation unchanged.
-/
import SafeExpr.Function.Signature

namespace SafeExpr

/-- A failure that a native function reports, perhaps with what caused it. -/
structure BackendError where
  message : String
  cause : Option String := none
deriving DecidableEq, Repr

/-- The message, then the cause if there is one. -/
def BackendError.causes (e : BackendError) : List String := e.message :: e.cause.toList

/-- Who supplies a function: this library, or the host that evaluates expressions. -/
inductive Supplier where
  | library | host
deriving DecidableEq, Repr

structure NativeFunction where
  name : String
  signature : Signature
  run : List Value → Except BackendError Value
  supplier : Supplier := .host

end SafeExpr
