/-
  SafeExpr/Evaluation/Eval.lean
  =============================
  **Evaluating a syntax tree.**

  Names are looked up among the variables and in the namespace; a name bound in both is
  an error.  Every node that is visited counts as one step, and lies one level deeper
  than its parent; both are limited.  Operands are evaluated from left to right, and
  those that `and`, `or`, a conditional or a false link of a comparison make unnecessary
  are not evaluated at all.

  The evaluation keeps a `Trace`: the steps taken, the nodes they went to, and the native
  functions called with their arguments.  The trace survives a failure.
-/
import SafeExpr.Check.Subset
import SafeExpr.Evaluation.Error
import SafeExpr.Namespace.Build

namespace SafeExpr

/-- The variables of one evaluation. -/
abbrev Variables := Table Value

namespace Variables

/-- Do two sets of variables bind the same names to equal values? -/
def eq (a b : Variables) : Bool :=
  a.size == b.size && a.entries.all fun (name, v) => (b.get? name).any v.eq

end Variables

/-- The limits of one evaluation. -/
structure EvalOptions where
  maxDepth : Nat := 1000
  /-- The number of nodes that may be visited; unlimited if there is none. -/
  maxSteps : Option Nat := none
deriving DecidableEq, Repr

/-- A native function and the arguments it was called with. -/
structure NativeCall where
  function : NativeFunction
  args : List Value

structure Trace where
  steps : Nat := 0
  /-- The nodes visited, the last one first. -/
  visited : List Expr := []
  /-- The calls made, the last one first. -/
  calls : List NativeCall := []

/-- What an evaluation may look at. -/
structure Scope where
  namespaces : Namespace
  vars : Variables
  options : EvalOptions

/-- An evaluation: a value or an error, and the trace. -/
abbrev EvalM := ExceptT EvalError (StateM Trace)

/-- The value of a constant. -/
def Literal.toValue : Literal → Value
  | .none => .none
  | .bool b => .bool b
  | .int n => .int n
  | .float x => .float x
  | .str s => .str s

namespace Eval

def fail {α : Type} (span : Span) (kind : EvalErrorKind) : EvalM α := throw ⟨kind, span⟩

/-- Visits a node at a depth: checks the limits and counts the step. -/
def enter (sc : Scope) (depth : Nat) (e : Expr) : EvalM Unit := do
  if sc.options.maxDepth ≤ depth then
    fail e.span (.stackOverflow depth sc.options.maxDepth)
  modify fun t => { t with steps := t.steps + 1, visited := e :: t.visited }
  match sc.options.maxSteps with
  | some limit => if limit < (← get).steps then fail e.span (.stepLimit limit)
  | none => pure ()

/-- The value of a name. -/
def resolve (sc : Scope) (name : String) (span : Span) : EvalM Value :=
  match sc.vars.get? name, sc.namespaces.lookup name with
  | some _, some _ => fail span (.ambiguousName name)
  | some v, none => pure v
  | none, some (.value v) => pure v
  | none, some (.function _) => fail span (.typeMismatch (.functionAsValue name))
  | none, none => fail span (.unboundName name)

/-- The function of a name. -/
def resolveFunction (sc : Scope) (name : String) (span : Span) : EvalM NativeFunction :=
  match sc.vars.get? name, sc.namespaces.lookup name with
  | some _, some _ => fail span (.ambiguousName name)
  | none, some (.function f) => pure f
  | some v, none => fail span (.typeMismatch (.notCallable v.typeName))
  | none, some (.value v) => fail span (.typeMismatch (.notCallable v.typeName))
  | none, none => fail span (.unboundName name)

/-- The values of several names. -/
def resolveAll (sc : Scope) (span : Span) : List String → EvalM (List Value)
  | [] => pure []
  | name :: rest => do
    let v ← resolve sc name span
    return v :: (← resolveAll sc span rest)

def ofOperator {α : Type} (span : Span) : Except OperatorError α → EvalM α
  | .ok a => pure a
  | .error e => throw (.ofOperator span e)

def ofValue {α : Type} (span : Span) : Except ValueError α → EvalM α
  | .ok a => pure a
  | .error e => fail span (.typeMismatch (.value e))

/-- The evaluation error of arguments that do not match; `found` were given in all. -/
def bindFailure (name : String) (signature : Signature) (found : Nat) :
    BindError → EvalErrorKind
  | .tooMany expected n => .arityMismatch name expected n
  | .missing _ => .arityMismatch name signature.arity found
  | e => .typeMismatch (.arguments name e)

/-- Calls a function with the values of its arguments, and of what it looks up by itself. -/
def invoke (span : Span) (name : String) (f : NativeFunction) (positional : List Value)
    (keywords : List (String × Value)) (implied : List Value) : EvalM Value :=
  match f.signature.bind positional keywords implied with
  | .error e =>
    fail span (bindFailure name f.signature (positional.length + keywords.length) e)
  | .ok args => do
    modify fun t => { t with calls := ⟨f, args⟩ :: t.calls }
    match f.run args with
    | .ok v => pure v
    | .error e => fail span (.backend name e)

/-- Looks up what a function does not get from its caller, and calls it. -/
def applyFunction (sc : Scope) (span : Span) (name : String) (f : NativeFunction)
    (positional : List Value) (keywords : List (String × Value)) : EvalM Value := do
  let implied ← resolveAll sc span f.signature.impliedNames
  invoke span name f positional keywords implied

/-- Does the first operand decide? -/
def decides (op : BoolOp) (v : Value) : Bool :=
  match op with
  | .and => !v.truthy
  | .or => v.truthy

mutual

/-- The value of a node at a depth. -/
def expr (sc : Scope) (depth : Nat) (e : Expr) : EvalM Value := do
  enter sc depth e
  match e with
  | .literal _ v => pure v.toValue
  | .name span n => resolve sc n span
  | .paren _ inner => expr sc (depth + 1) inner
  | .unary span op operand => do
    let v ← expr sc (depth + 1) operand
    ofOperator span (Operators.unary op v)
  | .binary span op left right => do
    let l ← expr sc (depth + 1) left
    let r ← expr sc (depth + 1) right
    ofOperator span (Operators.binary op l r)
  | .boolOp _ op left right => do
    let l ← expr sc (depth + 1) left
    if decides op l then pure l else expr sc (depth + 1) right
  | .compare _ left rest => do
    let l ← expr sc (depth + 1) left
    links sc (depth + 1) l rest
  | .conditional _ condition yes no => do
    let c ← expr sc (depth + 1) condition
    if c.truthy then expr sc (depth + 1) yes else expr sc (depth + 1) no
  | .call span callee args =>
    match callee.asName with
    | none => fail callee.peel.span (.unsupported .indirectCall)
    | some name => do
      let f ← resolveFunction sc name callee.peel.span
      let (positional, keywords) ← arguments sc (depth + 1) args
      applyFunction sc span name f positional keywords
  | .list _ es => do return .list (← items sc (depth + 1) es)
  | .tuple _ es => do return .tuple (← items sc (depth + 1) es)
  | .set span es => do
    let vs ← items sc (depth + 1) es
    ofValue span (Value.mkSet vs)
  | .dict span es => do
    let vs ← entries sc (depth + 1) es
    ofValue span (Value.mkDict vs)
  | other => fail other.span (.unsupported (other.forbidden?.getD .indirectCall))

/-- The values of nodes, in order. -/
def items (sc : Scope) (depth : Nat) : List Expr → EvalM (List Value)
  | [] => pure []
  | e :: rest => do
    let v ← expr sc depth e
    return v :: (← items sc depth rest)

/-- The links of a comparison chain behind the value `l`. -/
def links (sc : Scope) (depth : Nat) (l : Value) : List (CompareOp × Expr) → EvalM Value
  | [] => pure (.bool true)
  | (op, e) :: rest => do
    let r ← expr sc depth e
    if ← ofOperator e.span (Operators.compare op l r) then links sc depth r rest
    else pure (.bool false)

/-- The values of arguments: those by position, and those by keyword. -/
def arguments (sc : Scope) (depth : Nat) :
    List (Argument Expr) → EvalM (List Value × List (String × Value))
  | [] => pure ([], [])
  | .positional e :: rest => do
    let v ← expr sc depth e
    let (positional, keywords) ← arguments sc depth rest
    return (v :: positional, keywords)
  | .keyword _ name e :: rest => do
    let v ← expr sc depth e
    let (positional, keywords) ← arguments sc depth rest
    return (positional, (name, v) :: keywords)

/-- The keys and values of a dict, each key before its value. -/
def entries (sc : Scope) (depth : Nat) : List (Expr × Expr) → EvalM (List (Value × Value))
  | [] => pure []
  | (k, v) :: rest => do
    let key ← expr sc depth k
    let value ← expr sc depth v
    return (key, value) :: (← entries sc depth rest)

end

end Eval

/-- The outcome of an evaluation: the value or the error, the native calls made, and the
    nodes visited. -/
structure Evaluated where
  result : Except EvalError Value
  calls : List NativeCall
  visited : List Expr

/-- Evaluates a tree against a namespace and variables. -/
def evaluate (e : Expr) (ns : Namespace) (vars : Variables) (options : EvalOptions) :
    Evaluated :=
  let (result, trace) := (Eval.expr ⟨ns, vars, options⟩ 0 e).run.run {}
  ⟨result, trace.calls.reverse, trace.visited.reverse⟩

end SafeExpr
