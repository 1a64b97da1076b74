/-
  SafeExpr/Parse/Build.lean
  =========================
  **Syntax trees from the nodes that the grammar leaves.**

  One function for each kind of place in which a node can stand.  The functions recurse
  on the nodes; a flat expression is first turned into items, each with its parts built,
  and then resolved by precedence.

  Nodes of a shape that the grammar never leaves give the error `malformed`.
-/
import SafeExpr.Parse.Literal
import SafeExpr.Parse.Precedence

namespace SafeExpr.Build

/-- The texts of the tokens among the nodes. -/
def texts (trees : List (Tree Rule)) : List String :=
  trees.filterMap fun
    | .leaf _ _ text => some (String.ofList text)
    | .node .. => none

/-- The operator that an infix rule stands for; a conditional is given its condition. -/
def betweenOf (condition : Built Expr) : Infix → Between
  | .walrus => .named
  | .ternary => .conditional condition
  | .or => .boolOp .or
  | .and => .boolOp .and
  | .notIn => .compare .notIn
  | .isIn => .compare .isIn
  | .isNot => .compare .isNot
  | .is => .compare .is
  | .eq => .compare .eq
  | .ne => .compare .ne
  | .le => .compare .le
  | .ge => .compare .ge
  | .lt => .compare .lt
  | .gt => .compare .gt
  | .shl => .binary .shl
  | .shr => .binary .shr
  | .bitOr => .binary .bitOr
  | .bitXor => .binary .bitXor
  | .bitAnd => .binary .bitAnd
  | .add => .binary .add
  | .sub => .binary .sub
  | .pow => .binary .pow
  | .mul => .binary .mul
  | .floorDiv => .binary .floorDiv
  | .div => .binary .div
  | .mod => .binary .mod

/-- The operator that a prefix rule stands for. -/
def beforeOf (params : List String) : Prefix → Before
  | .lambda => .lambda params
  | .not => .unary .not
  | .neg => .unary .neg
  | .pos => .unary .pos
  | .invert => .unary .invert

/-- The parameters among the nodes of a lambda. -/
def lambdaParams : List (Tree Rule) → List String
  | [_, params] => texts params.children
  | _ => []

/-- The value of a literal token. -/
def literal (rule : Rule) (span : Span) (text : List Char) : Built Expr :=
  let badNumber : ParseError := ⟨.invalidNumber (String.ofList text), span⟩
  match rule with
  | .integer =>
    match readInteger? text with
    | some n => .ok (.literal span (.int n))
    | none => .error badNumber
  | .float =>
    match readDouble? (withoutUnderscores text) with
    | some x => .ok (.literal span (.float x))
    | none => .error badNumber
  | .string => (readQuoted span.start text).map fun s => .literal span (.str s)
  | .boolean => .ok (.literal span (.bool (text = "True".toList)))
  | .none => .ok (.literal span .none)
  | .ident => .ok (.name span (String.ofList text))
  | _ => .error malformed

mutual

/-- The tree of an expression node. -/
def expr : Tree Rule → Built Expr
  | .node .expression _ parts => resolve (items parts)
  | _ => .error malformed

def items : List (Tree Rule) → List Item
  | [] => []
  | t :: rest => item t :: items rest

/-- One piece of a flat expression. -/
def item : Tree Rule → Item
  | .leaf (.before op) span _ => .before span.start (beforeOf [] op)
  | .node (.before op) span parts => .before span.start (beforeOf (lambdaParams parts) op)
  | .leaf (.between op) _ _ => .between (betweenOf (.error malformed) op)
  | .node (.between op) _ [_, condition, _] => .between (betweenOf (expr condition) op)
  | .node (.between op) _ _ => .between (betweenOf (.error malformed) op)
  | .node .callOp span args => .after span.stop (.call (arguments false args))
  | .node .subscriptOp span [.node .slice inner parts] =>
    .after span.stop (.subscript (bounds inner none none none parts))
  | .node .subscriptOp span [index] => .after span.stop (.subscript (expr index))
  | .node .memberOp span parts => .after span.stop (.member (String.join (texts parts)))
  | .leaf rule span text => .operand (literal rule span text)
  | .node .grouped span [inner] => .operand ((expr inner).map (.paren span))
  | .node .tuple span parts => .operand ((elements parts).map (.tuple span))
  | .node .list span parts => .operand ((elements parts).map (.list span))
  | .node .set span parts => .operand ((elements parts).map (.set span))
  | .node .dict span parts => .operand ((entries parts).map (.dict span))
  | .node .generator span parts => .operand (comprehension .generator span parts)
  | .node .listComp span parts => .operand (comprehension .list span parts)
  | .node .setComp span parts => .operand (comprehension .set span parts)
  | .node .dictComp span parts => .operand (comprehension .dict span parts)
  | _ => .operand (.error malformed)

/-- The arguments of a call.  Behind a keyword or a double star no plain value may
    stand. -/
def arguments (seenKeyword : Bool) : List (Tree Rule) → Built (List (Argument Expr))
  | [] => .ok []
  | .node .callGenerator span parts :: rest => do
    let e ← comprehension .generator span parts
    return .positional e :: (← arguments seenKeyword rest)
  | .node .keywordArg span [.leaf _ _ name, value] :: rest => do
    let e ← expr value
    return .keyword span (String.ofList name) e :: (← arguments true rest)
  | .node .doubleStarred span [value] :: rest => do
    let e ← expr value
    return .positional (.starred span true e) :: (← arguments true rest)
  | .node .starred span [value] :: rest => do
    let e ← expr value
    return .positional (.starred span false e) :: (← arguments seenKeyword rest)
  | value :: rest =>
    if seenKeyword then .error ⟨.positionalAfterKeyword, value.span⟩
    else do
      let e ← expr value
      return .positional e :: (← arguments seenKeyword rest)

/-- The bounds of a slice, each in its own place. -/
def bounds (span : Span) (lower upper step : Option Expr) : List (Tree Rule) → Built Expr
  | [] => .ok (.slice span lower upper step)
  | .node .sliceLower _ [t] :: rest => do bounds span (some (← expr t)) upper step rest
  | .node .sliceUpper _ [t] :: rest => do bounds span lower (some (← expr t)) step rest
  | .node .sliceStep _ [t] :: rest => do bounds span lower upper (some (← expr t)) rest
  | _ => .error malformed

/-- The items of a list, tuple or set. -/
def elements : List (Tree Rule) → Built (List Expr)
  | [] => .ok []
  | .node .starred span [value] :: rest => do
    let e ← expr value
    return .starred span false e :: (← elements rest)
  | t :: rest => do
    let e ← expr t
    return e :: (← elements rest)

/-- The keys and values of a dict. -/
def entries : List (Tree Rule) → Built (List (Expr × Expr))
  | [] => .ok []
  | .node .dictEntry _ [key, value] :: rest => do
    let k ← expr key
    let v ← expr value
    return (k, v) :: (← entries rest)
  | _ => .error malformed

/-- A comprehension: what it collects, then its clauses. -/
def comprehension (kind : ComprehensionKind) (span : Span) :
    List (Tree Rule) → Built Expr
  | .node .dictEntry _ [key, value] :: rest => do
    let k ← expr key
    let v ← expr value
    return .comprehension span kind k (some v) (← clauses rest)
  | head :: rest => do
    let e ← expr head
    return .comprehension span kind e none (← clauses rest)
  | [] => .error malformed

def clauses : List (Tree Rule) → Built (List (Clause Expr))
  | [] => .ok []
  | .node .compFor _ (_ :: targets :: _ :: source :: tests) :: rest => do
    let i ← expr source
    let cs ← conditions tests
    return ⟨texts targets.children, i, cs⟩ :: (← clauses rest)
  | _ => .error malformed

def conditions : List (Tree Rule) → Built (List Expr)
  | [] => .ok []
  | .node .compIf _ [_, test] :: rest => do
    let e ← expr test
    return e :: (← conditions rest)
  | _ => .error malformed

end

theorem items_append (ts us : List (Tree Rule)) : items (ts ++ us) = items ts ++ items us := by
  induction ts with
  | nil => simp [items]
  | cons t ts ih => simp [items, ih]

theorem item_leaf {r : Rule} (hbefore : ∀ op, r ≠ .before op) (hbetween : ∀ op, r ≠ .between op)
    (span : Span) (cs : List Char) : item (.leaf r span cs) = .operand (literal r span cs) := by
  rw [item]
  · exact hbefore
  · exact hbetween

/-- The operator of an assignment, by its spelling. -/
def assignOp : List Char → Built AssignOp
  | ['='] => .ok .assign
  | ['@', '='] => .ok .matMul
  | ['+', '='] => .ok (.augmented .add)
  | ['-', '='] => .ok (.augmented .sub)
  | ['*', '='] => .ok (.augmented .mul)
  | ['/', '='] => .ok (.augmented .div)
  | ['/', '/', '='] => .ok (.augmented .floorDiv)
  | ['%', '='] => .ok (.augmented .mod)
  | ['*', '*', '='] => .ok (.augmented .pow)
  | ['&', '='] => .ok (.augmented .bitAnd)
  | ['|', '='] => .ok (.augmented .bitOr)
  | ['^', '='] => .ok (.augmented .bitXor)
  | ['<', '<', '='] => .ok (.augmented .shl)
  | ['>', '>', '='] => .ok (.augmented .shr)
  | _ => .error malformed

/-- The tree of a whole source: a statement, an assignment or an expression. -/
def source : Tree Rule → Built Expr
  | .node .source _ (.node .statement span (.leaf _ _ word :: _) :: _) =>
    .ok (.statement span (String.ofList word))
  | .node .source _ (.node .assignment span [target, .leaf _ _ op, value] :: _) => do
    let t ← expr target
    let op ← assignOp op
    let v ← expr value
    return .assign span op t v
  | .node .source _ (e :: _) => expr e
  | _ => .error malformed

end SafeExpr.Build
