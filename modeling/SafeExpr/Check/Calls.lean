/-
  SafeExpr/Check/Calls.lean
  =========================
  **Calls and names of a tree, against a namespace.**

  Variables never hold functions.  A call of a name that the namespace does not bind can
  only fail, and so can a keyword that the function does not take; both are reported
  before anything is evaluated.
-/
import SafeExpr.Check.Subset
import SafeExpr.Namespace.Build

namespace SafeExpr

/-- The first keyword that is repeated, or that the function does not take. -/
def checkKeywords (function : String) (signature : Signature) (seen : List String) :
    List (Argument Expr) → Except Rejection Unit
  | [] => .ok ()
  | .positional _ :: rest => checkKeywords function signature seen rest
  | .keyword span keyword _ :: rest =>
    if seen.contains keyword then .error ⟨.duplicateKeyword function keyword, span⟩
    else if !signature.acceptsKeyword keyword then
      .error ⟨.unknownKeyword function keyword, span⟩
    else checkKeywords function signature (keyword :: seen) rest

namespace Expr

/-- Checks a node that is a call of a name. -/
def checkCall (ns : Namespace) : Expr → Except Rejection Unit
  | .call _ callee args =>
    match callee.asName with
    | none => .ok ()
    | some called =>
      match ns.lookup called with
      | none => .error ⟨.unknownFunction called, callee.span⟩
      | some (.value _) => .ok ()
      | some (.function f) => checkKeywords called f.signature [] args
  | _ => .ok ()

/-- Does every call of a name agree with the namespace?  The first that does not, in
    pre-order, is reported. -/
def checkCalls (ns : Namespace) (e : Expr) : Except Rejection Unit :=
  firstFailure (e.nodes.map (checkCall ns))

/-- The name that a node is, if it is one. -/
def nameOf? : Expr → Option String
  | .name _ n => some n
  | _ => none

/-- The names that a node's call looks up by itself. -/
def impliedBy (ns : Namespace) : Expr → List String
  | .call _ callee _ =>
    match callee.asName.bind ns.function? with
    | some f => f.signature.impliedNames
    | none => []
  | _ => []

/-- The names in a tree in the order in which they first appear, then those that its
    calls look up by themselves. -/
def references (ns : Namespace) (e : Expr) : List String :=
  (e.nodes.filterMap nameOf? ++ e.nodes.flatMap (impliedBy ns)).eraseDups

end Expr

end SafeExpr
