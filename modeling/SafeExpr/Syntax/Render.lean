/-
  SafeExpr/Syntax/Render.lean
  ===========================
  **The fully parenthesised text of a syntax tree.**

  Every operator stands in parentheses of its own, and the grouping parentheses of the
  source are dropped.  What binds to what is therefore visible in the text: two trees
  have the same text when they associate the same way.

  The text is built as a list of characters, the form in which the grammar reads it.
-/
import SafeExpr.Syntax.Expr
import SafeExpr.Number.Notation
import SafeExpr.Text.Quoted

namespace SafeExpr

/-- The items with `separator` between them. -/
def joinChars (separator : List Char) : List (List Char) → List Char
  | [] => []
  | [item] => item
  | item :: rest => item ++ separator ++ joinChars separator rest

def commaChars : List Char := [',', ' ']

/-- A constant as it is written in the language. -/
def Literal.chars : Literal → List Char
  | .none => "None".toList
  | .bool true => "True".toList
  | .bool false => "False".toList
  | .int n => (toString n.toInt).toList
  | .float x => (x.render .literal).toList
  | .str s => (quoteLiteral s).toList

/-- The brackets around a comprehension. -/
def ComprehensionKind.brackets : ComprehensionKind → Char × Char
  | .list => ('[', ']')
  | .set | .dict => ('\x7b', '\x7d')
  | .generator => ('(', ')')

namespace Expr

/-- Names separated by commas. -/
def nameChars (names : List String) : List Char := joinChars commaChars (names.map (·.toList))

/-- The items of a tuple; a single one is followed by a comma. -/
def tupleChars (items : List (List Char)) : List Char :=
  joinChars commaChars items ++ if items.length = 1 then [','] else []

mutual

def chars : Expr → List Char
  | .literal _ v => v.chars
  | .name _ n => n.toList
  | .unary _ .not e => "(not ".toList ++ chars e ++ [')']
  | .unary _ op e => '(' :: op.symbol.toList ++ chars e ++ [')']
  | .binary _ op l r => '(' :: chars l ++ ' ' :: op.symbol.toList ++ ' ' :: chars r ++ [')']
  | .boolOp _ op l r => '(' :: chars l ++ ' ' :: op.symbol.toList ++ ' ' :: chars r ++ [')']
  | .compare _ l links => '(' :: chars l ++ linkChars links ++ [')']
  | .conditional _ c y n =>
    '(' :: chars y ++ " if ".toList ++ chars c ++ " else ".toList ++ chars n ++ [')']
  | .call _ f args => chars f ++ '(' :: joinChars commaChars (argChars args) ++ [')']
  | .list _ es => '[' :: joinChars commaChars (itemChars es) ++ [']']
  | .tuple _ es => '(' :: tupleChars (itemChars es) ++ [')']
  | .set _ es => '\x7b' :: joinChars commaChars (itemChars es) ++ ['\x7d']
  | .dict _ entries => '\x7b' :: joinChars commaChars (entryChars entries) ++ ['\x7d']
  | .paren _ e => chars e
  | .member _ e attr => chars e ++ '.' :: attr.toList
  | .subscript _ e i => chars e ++ '[' :: chars i ++ [']']
  | .slice _ l u s => optionChars [] l ++ ':' :: optionChars [] u ++ optionChars [':'] s
  | .lambda _ params body =>
    "(lambda ".toList ++ nameChars params ++ ':' :: ' ' :: chars body ++ [')']
  | .comprehension _ kind e v clauses =>
    kind.brackets.1 :: chars e ++ optionChars [':', ' '] v ++ clauseChars clauses
      ++ [kind.brackets.2]
  | .starred _ double e => (if double then ['*', '*'] else ['*']) ++ chars e
  | .named _ t v => '(' :: chars t ++ " := ".toList ++ chars v ++ [')']
  | .assign _ op t v => chars t ++ ' ' :: op.symbol.toList ++ ' ' :: chars v
  | .statement _ keyword => keyword.toList ++ " ...".toList

/-- An optional part, with `lead` before it if it is there. -/
def optionChars (lead : List Char) : Option Expr → List Char
  | none => []
  | some e => lead ++ chars e

def itemChars : List Expr → List (List Char)
  | [] => []
  | e :: es => chars e :: itemChars es

def linkChars : List (CompareOp × Expr) → List Char
  | [] => []
  | (op, e) :: rest => ' ' :: op.symbol.toList ++ ' ' :: chars e ++ linkChars rest

def argChars : List (Argument Expr) → List (List Char)
  | [] => []
  | .positional e :: rest => chars e :: argChars rest
  | .keyword _ n e :: rest => (n.toList ++ '=' :: chars e) :: argChars rest

def entryChars : List (Expr × Expr) → List (List Char)
  | [] => []
  | (k, v) :: rest => (chars k ++ ':' :: ' ' :: chars v) :: entryChars rest

def clauseChars : List (Clause Expr) → List Char
  | [] => []
  | ⟨targets, i, conditions⟩ :: rest =>
    " for ".toList ++ nameChars targets ++ " in ".toList ++ chars i
      ++ (itemChars conditions).flatMap (" if ".toList ++ ·) ++ clauseChars rest

end

/-- The fully parenthesised text of a tree. -/
def render (e : Expr) : String := String.ofList e.chars

end Expr

end SafeExpr
