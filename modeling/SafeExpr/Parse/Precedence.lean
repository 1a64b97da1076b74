/-
  SafeExpr/Parse/Precedence.lean
  ==============================
  **What binds to what.**

  The grammar hands over an expression as a flat run of `Item`s: operators before an
  operand, the operand, operators after it, an operator between, and so on.  `resolve`
  makes the tree.  It goes through the run once, from left to right, and keeps the
  operators whose right operand is not complete yet on a list, innermost first.  When an
  operator comes up behind a finished operand, the waiting operators that bind at least
  as tightly take that operand; those that bind more loosely go on waiting.

  The levels, from loose to tight, are those of `Level`.  Parts of items may have failed
  to build (a literal out of range, say).  Such failures are passed on in the order in
  which the parts of a node are looked at: left operand, right operand, then what the
  operator itself encloses.
-/
import SafeExpr.Parse.Error
import SafeExpr.Syntax.Expr

namespace SafeExpr

/-- The outcome of building a part of a tree. -/
abbrev Built (α : Type) := Except ParseError α

/-! ### Items -/

/-- Operators before an operand. -/
inductive Before where
  | unary (op : UnaryOp)
  | lambda (params : List String)
deriving Repr

/-- Operators between two operands; a conditional encloses its condition. -/
inductive Between where
  | binary (op : BinaryOp)
  | boolOp (op : BoolOp)
  | compare (op : CompareOp)
  | conditional (condition : Built Expr)
  | named

/-- Operators after an operand, with what they enclose. -/
inductive After where
  | call (args : Built (List (Argument Expr)))
  | subscript (index : Built Expr)
  | member (attr : String)

/-- One piece of a flat expression. -/
inductive Item where
  | before (start : Nat) (op : Before)
  | operand (e : Built Expr)
  | between (op : Between)
  | after (stop : Nat) (op : After)

/-! ### Levels -/

/-- How tightly an operator binds; more is tighter. -/
abbrev Level := Nat

def Before.level : Before → Level
  | .lambda _ => 1
  | .unary .not => 6
  | .unary _ => 14

def Between.level : Between → Level
  | .named => 2
  | .conditional _ => 3
  | .boolOp .or => 4
  | .boolOp .and => 5
  | .compare _ => 7
  | .binary .bitOr => 8
  | .binary .bitXor => 9
  | .binary .bitAnd => 10
  | .binary .shl | .binary .shr => 11
  | .binary .add | .binary .sub => 12
  | .binary .mul | .binary .div | .binary .floorDiv | .binary .mod => 13
  | .binary .pow => 15

/-- A run of operators of one level associates to the left, or else to the right. -/
def Between.isLeft : Between → Bool
  | .named | .conditional _ | .binary .pow => false
  | _ => true

/-- Postfix operators bind tightest. -/
def After.level : Level := 16

/-! ### Nodes -/

/-- The node of an operator before `e`. -/
def Before.node (start : Nat) (e : Expr) : Before → Expr
  | .unary op => .unary ⟨start, e.span.stop⟩ op e
  | .lambda params => .lambda ⟨start, e.span.stop⟩ params e

/-- The node of an operator between `l` and `r`.  A comparison behind a comparison
    lengthens its chain. -/
def Between.node (l r : Expr) : Between → Built Expr
  | .binary op => .ok (.binary (l.span.combine r.span) op l r)
  | .boolOp op => .ok (.boolOp (l.span.combine r.span) op l r)
  | .compare op =>
    match l with
    | .compare s first links => .ok (.compare (s.combine r.span) first (links ++ [(op, r)]))
    | l => .ok (.compare (l.span.combine r.span) l [(op, r)])
  | .conditional condition =>
    condition.map fun c => .conditional (l.span.combine r.span) c l r
  | .named => .ok (.named (l.span.combine r.span) l r)

/-- The node of an operator after `e` that ends at byte `stop`. -/
def After.node (e : Expr) (stop : Nat) : After → Built Expr
  | .call args => args.map fun as => .call ⟨e.span.start, stop⟩ e as
  | .subscript index => index.map fun i => .subscript ⟨e.span.start, stop⟩ e i
  | .member attr => .ok (.member ⟨e.span.start, stop⟩ e attr)

/-! ### Resolution -/

/-- An operator whose right operand is still being read. -/
inductive Waiting where
  | before (start : Nat) (op : Before)
  | between (left : Built Expr) (op : Between)

/-- Does the waiting operator take the operand before it, when an operator of level
    `next` comes up behind? -/
def Waiting.binds (next : Level) : Waiting → Bool
  | .before _ op => next < op.level
  | .between _ op => if op.isLeft then next ≤ op.level else next < op.level

/-- The waiting operator takes its right operand. -/
def Waiting.take (right : Built Expr) : Waiting → Built Expr
  | .before start op => right.map fun r => op.node start r
  | .between left op => do
    let l ← left
    let r ← right
    op.node l r

/-- The operators that bind tighter than `next` take the operand, innermost first.  What
    is left are the operators that wait on, and the operand that they wait with. -/
def settle (next : Level) : List Waiting → Built Expr → List Waiting × Built Expr
  | [], e => ([], e)
  | w :: ws, e => if w.binds next then settle next ws (w.take e) else (w :: ws, e)

/-- All waiting operators take their operands. -/
def finish (waiting : List Waiting) (e : Built Expr) : Built Expr :=
  waiting.foldl (fun e w => w.take e) e

/-- A run of items that is no expression.  The grammar makes none. -/
def malformed : ParseError := ⟨.other "malformed syntax tree", .point 0⟩

mutual

/-- Expects an operand, or operators before one. -/
def operandNext (waiting : List Waiting) : List Item → Built Expr
  | .before start op :: rest => operandNext (.before start op :: waiting) rest
  | .operand e :: rest => operatorNext waiting e rest
  | _ => .error malformed

/-- Expects an operator behind the operand `e`, or the end. -/
def operatorNext (waiting : List Waiting) (e : Built Expr) : List Item → Built Expr
  | [] => finish waiting e
  | .between op :: rest =>
    let (waiting, e) := settle op.level waiting e
    operandNext (.between e op :: waiting) rest
  | .after stop op :: rest =>
    let (waiting, e) := settle After.level waiting e
    operatorNext waiting (do op.node (← e) stop) rest
  | _ => .error malformed

end

/-- The tree of a flat expression. -/
def resolve (items : List Item) : Built Expr := operandNext [] items

end SafeExpr
