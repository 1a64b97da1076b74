/-
  SafeExpr/Syntax/Outline.lean
  ============================
  **Syntax trees written out node by node.**

  An `Outline` is a nested structure of named parts; it is written with one part a line,
  indented by its depth.  `Expr.outline` shows every node of a tree with its kind, its
  parts and its span.  It is made for trees within the permitted subset; any other node
  is shown by its text.
-/
import SafeExpr.Syntax.Render

namespace SafeExpr

inductive Outline where
  | leaf (text : String)
  /-- A name and named parts, in braces. -/
  | record (name : String) (parts : List (String × Outline))
  /-- A name, which may be empty, and parts in parentheses. -/
  | group (name : String) (parts : List Outline)
  | list (parts : List Outline)

namespace Outline

/-! ### Writing -/

def indentation (depth : Nat) : String := String.ofList (List.replicate (4 * depth) ' ')

mutual

/-- Writes an outline behind `out`; its parts are indented one level deeper than `depth`. -/
def write (depth : Nat) (out : String) : Outline → String
  | leaf text => out ++ text
  | record name parts =>
    writeFields (depth + 1) (out ++ name ++ " \x7b\n") parts ++ indentation depth ++ "\x7d"
  | group name parts =>
    writeParts (depth + 1) (out ++ name ++ "(\n") parts ++ indentation depth ++ ")"
  | list [] => out ++ "[]"
  | list parts => writeParts (depth + 1) (out ++ "[\n") parts ++ indentation depth ++ "]"

/-- Parts, one behind the other. -/
def writeParts (depth : Nat) (out : String) : List Outline → String
  | [] => out
  | o :: rest => writeParts depth (write depth (out ++ indentation depth) o ++ ",\n") rest

/-- Named parts, one behind the other. -/
def writeFields (depth : Nat) (out : String) : List (String × Outline) → String
  | [] => out
  | (name, o) :: rest =>
    writeFields depth (write depth (out ++ indentation depth ++ name ++ ": ") o ++ ",\n") rest

end

/-- The text of an outline. -/
def render (o : Outline) : String := o.write 0 ""

end Outline

/-! ### Names of operators -/

def BinaryOp.title : BinaryOp → String
  | .add => "Add"
  | .sub => "Sub"
  | .mul => "Mul"
  | .div => "Div"
  | .floorDiv => "FloorDiv"
  | .mod => "Mod"
  | .pow => "Pow"
  | .bitAnd => "BitAnd"
  | .bitOr => "BitOr"
  | .bitXor => "BitXor"
  | .shl => "Shl"
  | .shr => "Shr"

def UnaryOp.title : UnaryOp → String
  | .neg => "Neg"
  | .pos => "Pos"
  | .invert => "Invert"
  | .not => "Not"

def BoolOp.title : BoolOp → String
  | .and => "And"
  | .or => "Or"

def CompareOp.title : CompareOp → String
  | .eq => "Eq"
  | .ne => "Ne"
  | .lt => "Lt"
  | .le => "Le"
  | .gt => "Gt"
  | .ge => "Ge"
  | .isIn => "In"
  | .notIn => "NotIn"
  | .is => "Is"
  | .isNot => "IsNot"

/-! ### Nodes -/

def Span.outline (s : Span) : Outline := .group "Span" [.leaf s.text]

def Literal.outline : Literal → Outline
  | .none => .leaf "None"
  | .bool b => .group "Bool" [.leaf (if b then "true" else "false")]
  | .int n => .group "Int" [.leaf (toString n.toInt)]
  | .float x => .group "Float" [.leaf (x.render .literal)]
  | .str s => .group "Str" [.leaf (quoteLiteral s)]

/-- An argument, given the outline of its value. -/
def Argument.outline {α : Type} : Argument α → Outline → Outline
  | .positional _, value => .group "Positional" [value]
  | .keyword s name _, value =>
    .record "Keyword" [("name", .leaf (quoteLiteral name)), ("value", value), ("span", s.outline)]

namespace Expr

/-- Outlines taken two by two. -/
def outlinePairs : List Outline → List Outline
  | k :: v :: rest => .group "" [k, v] :: outlinePairs rest
  | _ => []

/-- The kind and the parts of a node, given the outlines of its children. -/
def kindOutline : Expr → List Outline → Outline
  | .literal _ v, _ => .group "Literal" [v.outline]
  | .name _ n, _ => .group "Name" [.leaf (quoteLiteral n)]
  | .unary _ op _, [x] => .record "Unary" [("op", .leaf op.title), ("operand", x)]
  | .binary _ op _ _, [l, r] =>
    .record "Binary" [("op", .leaf op.title), ("left", l), ("right", r)]
  | .boolOp _ op _ _, [l, r] =>
    .record "BoolOp" [("op", .leaf op.title), ("left", l), ("right", r)]
  | .compare _ _ links, l :: rest =>
    let link (p : CompareOp × Expr) (r : Outline) : Outline := .group "" [.leaf p.1.title, r]
    .record "Compare" [("left", l), ("comparisons", .list (links.zipWith link rest))]
  | .conditional .., [y, c, n] =>
    .record "IfElse" [("cond", c), ("then_branch", y), ("else_branch", n)]
  | .call _ _ args, f :: rest =>
    .record "Call" [("callee", f), ("args", .list (args.zipWith Argument.outline rest))]
  | .list .., items => .group "List" [.list items]
  | .tuple .., items => .group "Tuple" [.list items]
  | .set .., items => .group "Set" [.list items]
  | .dict .., parts => .group "Dict" [.list (outlinePairs parts)]
  | .paren .., [x] => .group "Paren" [x]
  | e, _ => .leaf e.render

/-- The outline of a tree. -/
def outline : Expr → Outline :=
  fold fun e parts => .record "Expr" [("kind", kindOutline e parts), ("span", e.span.outline)]

end Expr

end SafeExpr
