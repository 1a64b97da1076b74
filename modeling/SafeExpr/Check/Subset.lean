/-
  SafeExpr/Check/Subset.lean
  ==========================
  **The permitted subset of the language.**

  A node is forbidden by its shape alone, and a call must be a call of a name.
  `validate` reports the first offender in pre-order, from left to right; within a call,
  what the callee itself contains comes before the callee's not being a name.
-/
import SafeExpr.Check.Rejection

namespace SafeExpr

/-- The construct that a node is, if it is a forbidden one. -/
def Expr.forbidden? : Expr → Option Construct
  | .member .. => some .memberAccess
  | .subscript .. => some .subscript
  | .slice .. => some .slice
  | .lambda .. => some .lambda
  | .comprehension _ kind _ _ _ => some (.comprehension kind)
  | .starred _ false _ => some .starred
  | .starred _ true _ => some .doubleStarred
  | .named .. => some .namedExpression
  | .assign _ .assign _ _ => some .assignment
  | .assign .. => some .augmentedAssignment
  | .statement _ keyword => some (.statement keyword)
  | _ => none

/-- The first failure of several checks. -/
def firstFailure {ε : Type} : List (Except ε Unit) → Except ε Unit
  | [] => .ok ()
  | .ok _ :: rest => firstFailure rest
  | .error e :: _ => .error e

namespace Expr

/-- Checks one node, given the outcomes for its children. -/
def validateNode (e : Expr) (below : List (Except Rejection Unit)) : Except Rejection Unit :=
  match e.forbidden? with
  | some construct => .error ⟨.forbidden construct, e.span⟩
  | none =>
    match e, below with
    | .call _ callee _, ofCallee :: ofArgs =>
      let named : Except Rejection Unit :=
        if callee.asName.isSome then .ok () else .error ⟨.forbidden .indirectCall, callee.span⟩
      firstFailure (ofCallee :: named :: ofArgs)
    | _, below => firstFailure below

/-- Is every node of the tree in the permitted subset? -/
def validate : Expr → Except Rejection Unit := fold validateNode

end Expr

end SafeExpr
