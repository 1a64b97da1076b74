/-
  SafeExpr/Proofs/Syntax/Render.lean
  ==================================
  **The text of a tree, part by part.**

  The texts of the parts of a node, each on its own, and how they stand behind one another.
-/
import SafeExpr.Proofs.Value.Spelling
import SafeExpr.Syntax.Render

namespace SafeExpr

theorem joinChars_comma (texts : List (List Char)) :
    joinChars commaChars texts = separated texts := by
  induction texts with
  | nil => rfl
  | cons cs texts ih =>
    cases texts with
    | nil => simp [joinChars, separated, continued]
    | cons cs' texts =>
      have hjoin : joinChars commaChars (cs :: cs' :: texts) =
          cs ++ commaChars ++ joinChars commaChars (cs' :: texts) := rfl
      rw [hjoin, ih]
      simp [separated, continued, commaChars]

/-- What is written in front of an operand. -/
def UnaryOp.lead : UnaryOp → List Char
  | .not => "not ".toList
  | op => op.symbol.toList

/-- A value, or a name and a value. -/
def Argument.chars : Argument Expr → List Char
  | .positional e => e.chars
  | .keyword _ n e => n.toList ++ '=' :: e.chars

namespace Expr

theorem nameChars_eq (names : List String) :
    nameChars names = separated (names.map (·.toList)) := joinChars_comma _

/-! ### The parts of a node -/

def linkText (link : CompareOp × Expr) : List Char :=
  ' ' :: link.1.symbol.toList ++ ' ' :: link.2.chars

def entryText (entry : Expr × Expr) : List Char := entry.1.chars ++ ':' :: ' ' :: entry.2.chars

def conditionText (e : Expr) : List Char := " if ".toList ++ e.chars

def clauseText (c : Clause Expr) : List Char :=
  " for ".toList ++ nameChars c.targets ++ " in ".toList ++ c.iter.chars
    ++ c.conditions.flatMap conditionText

theorem itemChars_eq (es : List Expr) : itemChars es = es.map chars := by
  induction es with
  | nil => rfl
  | cons e es ih => rw [itemChars, ih, List.map_cons]

theorem argChars_eq (args : List (Argument Expr)) : argChars args = args.map Argument.chars := by
  induction args with
  | nil => rfl
  | cons arg rest ih =>
    cases arg with
    | positional e => rw [argChars, ih, List.map_cons, Argument.chars]
    | keyword span n e => rw [argChars, ih, List.map_cons, Argument.chars]

theorem entryChars_eq (entries : List (Expr × Expr)) : entryChars entries = entries.map entryText := by
  induction entries with
  | nil => rfl
  | cons entry rest ih => rw [entryChars, ih, List.map_cons, entryText]

theorem linkChars_eq (links : List (CompareOp × Expr)) : linkChars links = links.flatMap linkText := by
  induction links with
  | nil => rfl
  | cons link rest ih => rw [linkChars, ih, List.flatMap_cons, linkText]

theorem clauseChars_eq (clauses : List (Clause Expr)) :
    clauseChars clauses = clauses.flatMap clauseText := by
  induction clauses with
  | nil => rfl
  | cons c rest ih =>
    obtain ⟨targets, iter, conditions⟩ := c
    have hfirst : clauseChars (⟨targets, iter, conditions⟩ :: rest) =
        " for ".toList ++ nameChars targets ++ " in ".toList ++ chars iter
          ++ (itemChars conditions).flatMap (" if ".toList ++ ·) ++ clauseChars rest := rfl
    have htests : conditions.flatMap conditionText =
        (itemChars conditions).flatMap (" if ".toList ++ ·) := by
      rw [itemChars_eq, List.flatMap_map]
      rfl
    have htext : clauseText ⟨targets, iter, conditions⟩ =
        " for ".toList ++ nameChars targets ++ " in ".toList ++ chars iter
          ++ conditions.flatMap conditionText := rfl
    rw [hfirst, ih, List.flatMap_cons, htext, htests]

/-- A single item of a tuple has a comma behind it. -/
theorem tupleChars_eq (texts : List (List Char)) : tupleChars texts = tupled texts := by
  rw [tupleChars, joinChars_comma]
  cases texts with
  | nil => rfl
  | cons cs texts =>
    cases texts with
    | nil => simp [separated, continued, tupled, behindComma]
    | cons cs' texts => simp [separated, continued, tupled, behindComma]

/-! ### Node by node -/

section Nodes

variable (s : Span) (e l r : Expr)

theorem chars_natural {n : Int64} (hn : 0 ≤ n.toInt) :
    (literal s (.int n)).chars = Nat.toDigits 10 n.toInt.natAbs := by
  have hchars : (literal s (.int n)).chars = (toString n.toInt).toList := rfl
  rw [hchars]
  cases hm : n.toInt with
  | ofNat m =>
    change (Int.ofNat m).repr.toList = _
    simp [Int.repr]
  | negSucc m =>
    rw [hm] at hn
    exact absurd hn (Int.not_le.mpr (Int.negSucc_lt_zero m))

theorem chars_unary (op : UnaryOp) : (unary s op e).chars = '(' :: (op.lead ++ e.chars) ++ [')'] := by
  cases op with
  | not =>
    have hnot : "(not ".toList = '(' :: "not ".toList := by decide
    have hchars : (unary s .not e).chars = "(not ".toList ++ e.chars ++ [')'] := rfl
    rw [hchars, hnot]
    rfl
  | neg | pos | invert => rfl

theorem chars_binary (op : BinaryOp) : (binary s op l r).chars =
    '(' :: (l.chars ++ ' ' :: op.symbol.toList ++ ' ' :: r.chars) ++ [')'] := rfl

theorem chars_boolOp (op : BoolOp) : (boolOp s op l r).chars =
    '(' :: (l.chars ++ ' ' :: op.symbol.toList ++ ' ' :: r.chars) ++ [')'] := rfl

theorem chars_named : (named s l r).chars =
    '(' :: (l.chars ++ ' ' :: ":=".toList ++ ' ' :: r.chars) ++ [')'] := by
  have hwalrus : " := ".toList = ' ' :: ":=".toList ++ [' '] := by decide
  have hchars : (named s l r).chars = '(' :: l.chars ++ " := ".toList ++ r.chars ++ [')'] := rfl
  rw [hchars, hwalrus]
  simp

theorem chars_compare (links : List (CompareOp × Expr)) : (compare s l links).chars =
    '(' :: (l.chars ++ links.flatMap linkText) ++ [')'] := by
  rw [← linkChars_eq]
  rfl

theorem chars_conditional (c : Expr) : (conditional s c l r).chars =
    '(' :: (l.chars ++ " if ".toList ++ c.chars ++ " else ".toList ++ r.chars) ++ [')'] := rfl

theorem chars_lambda (params : List String) : (lambda s params e).chars =
    '(' :: ("lambda ".toList ++ nameChars params ++ ':' :: ' ' :: e.chars) ++ [')'] := by
  have hlambda : "(lambda ".toList = '(' :: "lambda ".toList := by decide
  have hchars : (lambda s params e).chars =
      "(lambda ".toList ++ nameChars params ++ ':' :: ' ' :: e.chars ++ [')'] := rfl
  rw [hchars, hlambda]
  rfl

theorem chars_call (args : List (Argument Expr)) : (call s e args).chars =
    e.chars ++ '(' :: (separated (args.map Argument.chars) ++ [')']) := by
  rw [← argChars_eq, ← joinChars_comma]
  exact List.append_assoc _ _ _

theorem chars_subscript : (subscript s l r).chars = l.chars ++ '[' :: (r.chars ++ [']']) :=
  List.append_assoc _ _ _

theorem chars_member (attr : String) : (member s e attr).chars = e.chars ++ '.' :: attr.toList :=
  rfl

theorem chars_list (es : List Expr) : (list s es).chars =
    '[' :: separated (es.map chars) ++ [']'] := by
  rw [← itemChars_eq, ← joinChars_comma]
  rfl

theorem chars_set (es : List Expr) : (set s es).chars =
    '\x7b' :: separated (es.map chars) ++ ['\x7d'] := by
  rw [← itemChars_eq, ← joinChars_comma]
  rfl

theorem chars_tuple (es : List Expr) : (tuple s es).chars =
    '(' :: tupled (es.map chars) ++ [')'] := by
  rw [← itemChars_eq, ← tupleChars_eq]
  rfl

theorem chars_dict (entries : List (Expr × Expr)) : (dict s entries).chars =
    '\x7b' :: separated (entries.map entryText) ++ ['\x7d'] := by
  rw [← entryChars_eq, ← joinChars_comma]
  rfl

theorem chars_starred (double : Bool) : (starred s double e).chars =
    (if double then ['*', '*'] else ['*']) ++ e.chars := rfl

theorem chars_slice (lower upper step : Option Expr) : (slice s lower upper step).chars =
    optionChars [] lower ++ ':' :: optionChars [] upper ++ optionChars [':'] step := rfl

theorem chars_comprehension (kind : ComprehensionKind) (v : Option Expr)
    (clauses : List (Clause Expr)) : (comprehension s kind e v clauses).chars =
      kind.brackets.1 :: (e.chars ++ optionChars [':', ' '] v ++ clauses.flatMap clauseText)
        ++ [kind.brackets.2] := by
  rw [← clauseChars_eq]
  rfl

theorem chars_assign (op : AssignOp) : (assign s op l r).chars =
    l.chars ++ ' ' :: op.symbol.toList ++ ' ' :: r.chars := rfl

theorem chars_statement (keyword : String) : (statement s keyword).chars =
    keyword.toList ++ " ...".toList := rfl

end Nodes

end Expr

end SafeExpr
