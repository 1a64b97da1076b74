/-
  SafeExpr/Proofs/Syntax/Fits.lean
  ================================
  **Trees that have a text.**

  There are more trees than texts: a slice stands in a subscript only, an unpacking in a
  display or a call, an assignment or a statement nowhere but at the top.  `Expr.Fits` says
  of a single node that its parts are such as may stand where they do, and that its words and
  numbers can be written.
-/
import SafeExpr.Grammar.Expression
import SafeExpr.Syntax.Expr

namespace SafeExpr

/-! ### Words -/

def isWord : List Char → Bool
  | c :: cs => isWordStart c && cs.all isWordChar
  | [] => false

/-- A name is a word that is not reserved. -/
def isName (n : String) : Bool := isWord n.toList && !reservedWords.contains n

theorem isWordChar_of_isWordStart {c : Char} (h : isWordStart c = true) : isWordChar c = true := by
  simp only [isWordStart, isWordChar, Char.isAlphanum, Bool.or_eq_true, decide_eq_true_eq] at h ⊢
  rcases h with h | h
  · exact Or.inl (Or.inl h)
  · exact Or.inr h

theorem all_isWordChar_of_isWord {cs : List Char} (h : isWord cs = true) :
    cs.all isWordChar = true := by
  cases cs with
  | nil => rfl
  | cons c cs =>
    rw [isWord, Bool.and_eq_true] at h
    rw [List.all_cons, Bool.and_eq_true]
    exact ⟨isWordChar_of_isWordStart h.1, h.2⟩

namespace Expr

/-! ### Places -/

/-- The tree may stand wherever an expression may. -/
def isExpression : Expr → Bool
  | .slice .. | .starred .. | .assign .. | .statement .. => false
  | _ => true

/-- In a list, tuple or set. -/
def isItem : Expr → Bool
  | .starred _ double _ => !double
  | e => e.isExpression

/-- In a call, by position. -/
def isArgument : Expr → Bool
  | .starred .. => true
  | e => e.isExpression

/-- In a subscript. -/
def isIndex : Expr → Bool
  | .slice .. => true
  | e => e.isExpression

/-- The tree of a whole source. -/
def isSource : Expr → Bool
  | .assign .. | .statement .. => true
  | e => e.isExpression

/-- Behind a keyword or a double star stands no plain argument. -/
def argumentsOrdered : Bool → List (Argument Expr) → Bool
  | _, [] => true
  | _, .keyword _ _ _ :: rest => argumentsOrdered true rest
  | seen, .positional (.starred _ double _) :: rest => argumentsOrdered (seen || double) rest
  | seen, .positional _ :: rest => !seen && argumentsOrdered seen rest

theorem argumentsOrdered_plain {e : Expr} (he : e.isExpression = true) (seen : Bool)
    (rest : List (Argument Expr)) :
    argumentsOrdered seen (.positional e :: rest) = (!seen && argumentsOrdered seen rest) := by
  cases e with
  | starred => cases he
  | _ => rfl

end Expr

def Argument.Fits : Argument Expr → Prop
  | .positional e => e.isArgument = true
  | .keyword _ n e => isName n = true ∧ e.isExpression = true

structure Clause.Fits (c : Clause Expr) : Prop where
  targets_ne_nil : c.targets ≠ []
  targets : ∀ n ∈ c.targets, isName n = true
  iter : c.iter.isExpression = true
  conditions : ∀ e ∈ c.conditions, e.isExpression = true

namespace Expr

/-! ### Nodes -/

/-- The parts of the node stand in their places, and its words and numbers can be written. -/
def Fits : Expr → Prop
  | .literal _ (.int n) => 0 ≤ n.toInt
  | .literal _ (.float x) => x.isNegative = false ∧ x.isNaN = false
  | .literal _ _ => True
  | .name _ n => isName n = true
  | .unary _ _ e | .paren _ e | .starred _ _ e => e.isExpression = true
  | .binary _ _ l r | .boolOp _ _ l r | .named _ l r | .assign _ _ l r =>
    l.isExpression = true ∧ r.isExpression = true
  | .compare _ l links =>
    l.isExpression = true ∧ links ≠ [] ∧ ∀ link ∈ links, link.2.isExpression = true
  | .conditional _ c yes no =>
    c.isExpression = true ∧ yes.isExpression = true ∧ no.isExpression = true
  | .call _ f args =>
    f.isExpression = true ∧ argumentsOrdered false args = true ∧ ∀ arg ∈ args, arg.Fits
  | .list _ es | .tuple _ es => ∀ e ∈ es, e.isItem = true
  | .set _ es => es ≠ [] ∧ ∀ e ∈ es, e.isItem = true
  | .dict _ entries => ∀ entry ∈ entries, entry.1.isExpression = true ∧ entry.2.isExpression = true
  | .member _ e attr => e.isExpression = true ∧ isWord attr.toList = true
  | .subscript _ e i => e.isExpression = true ∧ i.isIndex = true
  | .slice _ l u s => ∀ e ∈ l.toList ++ u.toList ++ s.toList, e.isExpression = true
  | .lambda _ params e => (∀ n ∈ params, isName n = true) ∧ e.isExpression = true
  | .comprehension _ kind e v clauses =>
    e.isExpression = true ∧ (v.isSome = true ↔ kind = .dict) ∧ (∀ x ∈ v, x.isExpression = true) ∧
      clauses ≠ [] ∧ ∀ c ∈ clauses, c.Fits
  | .statement _ keyword => keyword ∈ statementWords

/-- Every node of the tree fits. -/
def AllFit (e : Expr) : Prop := ∀ n ∈ e.nodes, n.Fits

theorem allFit_iff {e : Expr} : e.AllFit ↔ e.Fits ∧ ∀ c ∈ e.children, c.AllFit :=
  forall_nodes_iff

theorem AllFit.self {e : Expr} (h : e.AllFit) : e.Fits := (allFit_iff.mp h).1

theorem AllFit.child {c e : Expr} (h : e.AllFit) (hc : c ∈ e.children) : c.AllFit :=
  (allFit_iff.mp h).2 c hc

/-- Neither text nor a fraction. -/
def isSimple : Expr → Bool
  | .literal _ (.str _) | .literal _ (.float _) => false
  | _ => true

end Expr

end SafeExpr
