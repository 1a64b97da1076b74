/-
  SafeExpr/Syntax/Expr.lean
  =========================
  **Syntax trees.**

  `Expr` is the tree of one source text.  It has more shapes than the language
  permits: attributes, subscripts, lambdas, comprehensions, unpackings, assignments
  and statements are read so that they can be refused by name and place.

  Every node starts with its span.  `children` is the uniform view of a tree, and
  `Expr.induction` is induction along it.  `fold` computes a result for every node from
  the results for its children, in one structural recursion; `fold_eq` is its equation.
-/
import SafeExpr.Syntax.Span
import SafeExpr.Syntax.Operator
import SafeExpr.Number.Double

namespace SafeExpr

/-- Constants written in the source.  Whole numbers are never negative here: a minus
    sign is an operator. -/
inductive Literal where
  | none
  | bool (b : Bool)
  | int (n : Int64)
  | float (x : Double)
  | str (s : String)
deriving DecidableEq, Repr

/-- An argument of a call: a value by position, or `name=value` with the span of the
    whole. -/
inductive Argument (α : Type) where
  | positional (value : α)
  | keyword (span : Span) (name : String) (value : α)
deriving DecidableEq, Repr

def Argument.value {α : Type} : Argument α → α
  | .positional v => v
  | .keyword _ _ v => v

/-- One `for targets in iter if condition …` of a comprehension. -/
structure Clause (α : Type) where
  targets : List String
  iter : α
  conditions : List α
deriving DecidableEq, Repr

/-- A syntax tree. -/
inductive Expr where
  | literal (span : Span) (value : Literal)
  | name (span : Span) (name : String)
  | unary (span : Span) (op : UnaryOp) (operand : Expr)
  | binary (span : Span) (op : BinaryOp) (left right : Expr)
  | boolOp (span : Span) (op : BoolOp) (left right : Expr)
  /-- `a < b <= c` is one node with all links of the chain. -/
  | compare (span : Span) (left : Expr) (links : List (CompareOp × Expr))
  /-- `yes if condition else no` -/
  | conditional (span : Span) (condition yes no : Expr)
  | call (span : Span) (callee : Expr) (args : List (Argument Expr))
  | list (span : Span) (items : List Expr)
  | tuple (span : Span) (items : List Expr)
  | set (span : Span) (items : List Expr)
  | dict (span : Span) (entries : List (Expr × Expr))
  | paren (span : Span) (inner : Expr)
  /-- `value.attr` -/
  | member (span : Span) (value : Expr) (attr : String)
  | subscript (span : Span) (value index : Expr)
  | slice (span : Span) (lower upper step : Option Expr)
  | lambda (span : Span) (params : List String) (body : Expr)
  /-- `value` is there in a dict comprehension only. -/
  | comprehension (span : Span) (kind : ComprehensionKind) (element : Expr)
      (value : Option Expr) (clauses : List (Clause Expr))
  | starred (span : Span) (double : Bool) (value : Expr)
  | named (span : Span) (target value : Expr)
  | assign (span : Span) (op : AssignOp) (target value : Expr)
  | statement (span : Span) (keyword : String)
deriving Repr

namespace Expr

/-- The part of the source that a node was read from. -/
def span : Expr → Span
  | literal s _ | name s _ | unary s _ _ | binary s _ _ _ | boolOp s _ _ _ | compare s _ _
  | conditional s _ _ _ | call s _ _ | list s _ | tuple s _ | set s _ | dict s _ | paren s _
  | member s _ _ | subscript s _ _ | slice s _ _ _ | lambda s _ _
  | comprehension s _ _ _ _ | starred s _ _ | named s _ _ | assign s _ _ _ | statement s _ => s

/-- The node itself without the parentheses around it. -/
def peel : Expr → Expr
  | paren _ inner => inner.peel
  | e => e

/-- The name a node stands for, parentheses aside, if it is one. -/
def asName (e : Expr) : Option String :=
  match e.peel with
  | name _ n => some n
  | _ => none

/-- The expressions of a clause: what it runs over, then its conditions. -/
def clauseParts (c : Clause Expr) : List Expr := c.iter :: c.conditions

/-- The direct parts of a node, as they follow one another in the source. -/
def children : Expr → List Expr
  | literal .. | name .. | statement .. => []
  | unary _ _ e | paren _ e | member _ e _ | lambda _ _ e | starred _ _ e => [e]
  | binary _ _ l r | boolOp _ _ l r | subscript _ l r | named _ l r | assign _ _ l r => [l, r]
  | compare _ l links => l :: links.map Prod.snd
  | conditional _ c y n => [y, c, n]
  | call _ f args => f :: args.map Argument.value
  | list _ es | tuple _ es | set _ es => es
  | dict _ entries => entries.flatMap fun (k, v) => [k, v]
  | slice _ l u s => l.toList ++ u.toList ++ s.toList
  | comprehension _ _ e v clauses => e :: (v.toList ++ clauses.flatMap clauseParts)

theorem size_child_lt {c e : Expr} (h : c ∈ e.children) : sizeOf c < sizeOf e := by
  cases e with
  | literal | name | statement => simp [children] at h
  | unary | paren | member | lambda | starred =>
    simp only [children, List.mem_singleton] at h
    subst h; simp <;> omega
  | binary | boolOp | subscript | named | assign =>
    simp only [children, List.mem_cons, List.not_mem_nil, or_false] at h
    rcases h with rfl | rfl <;> simp <;> omega
  | conditional =>
    simp only [children, List.mem_cons, List.not_mem_nil, or_false] at h
    rcases h with rfl | rfl | rfl <;> simp <;> omega
  | compare s l links =>
    simp only [children, List.mem_cons, List.mem_map] at h
    rcases h with rfl | ⟨⟨op, x⟩, hp, rfl⟩
    · simp; omega
    · have := List.sizeOf_lt_of_mem hp
      simp at this ⊢; omega
  | call s f args =>
    simp only [children, List.mem_cons, List.mem_map] at h
    rcases h with rfl | ⟨a, ha, rfl⟩
    · simp; omega
    · have := List.sizeOf_lt_of_mem ha
      cases a <;> simp [Argument.value] at this ⊢ <;> omega
  | list s es | tuple s es | set s es =>
    simp only [children] at h
    have := List.sizeOf_lt_of_mem h
    simp; omega
  | dict s entries =>
    simp only [children, List.mem_flatMap, List.mem_cons, List.not_mem_nil, or_false] at h
    obtain ⟨⟨k, v⟩, hp, h⟩ := h
    have := List.sizeOf_lt_of_mem hp
    rcases h with rfl | rfl <;> simp at this ⊢ <;> omega
  | slice s l u t =>
    simp only [children, List.mem_append, Option.mem_toList] at h
    rcases h with (rfl | rfl) | rfl <;> simp <;> omega
  | comprehension s k e v clauses =>
    simp only [children, List.mem_cons, List.mem_append, Option.mem_toList, List.mem_flatMap,
      clauseParts] at h
    rcases h with rfl | rfl | ⟨⟨ts, i, cs⟩, hp, rfl | h⟩
    · simp; omega
    · simp; omega
    · have := List.sizeOf_lt_of_mem hp
      simp at this ⊢; omega
    · have := List.sizeOf_lt_of_mem hp
      have := List.sizeOf_lt_of_mem h
      simp at *; omega

/-- What holds of a node whenever it holds of its direct parts holds of every tree. -/
theorem induction {P : Expr → Prop} (step : ∀ e, (∀ c ∈ e.children, P c) → P e) (e : Expr) :
    P e :=
  step e fun c h => have := size_child_lt h; induction step c
termination_by sizeOf e

/-! ### Folding -/

section Fold

variable {β : Type} (f : Expr → List β → β)

mutual

/-- The result of `f` at a node, given the node and the results for its children. -/
def fold : Expr → β
  | e@(.literal ..) | e@(.name ..) | e@(.statement ..) => f e []
  | e@(.unary _ _ x) | e@(.paren _ x) | e@(.member _ x _) | e@(.lambda _ _ x)
  | e@(.starred _ _ x) => f e [fold x]
  | e@(.binary _ _ l r) | e@(.boolOp _ _ l r) | e@(.subscript _ l r) | e@(.named _ l r)
  | e@(.assign _ _ l r) => f e [fold l, fold r]
  | e@(.compare _ l links) => f e (fold l :: foldLinks links)
  | e@(.conditional _ c y n) => f e [fold y, fold c, fold n]
  | e@(.call _ g args) => f e (fold g :: foldArgs args)
  | e@(.list _ es) | e@(.tuple _ es) | e@(.set _ es) => f e (foldAll es)
  | e@(.dict _ entries) => f e (foldEntries entries)
  | e@(.slice _ l u s) => f e (foldOption l ++ foldOption u ++ foldOption s)
  | e@(.comprehension _ _ x v clauses) => f e (fold x :: (foldOption v ++ foldClauses clauses))

def foldAll : List Expr → List β
  | [] => []
  | e :: es => fold e :: foldAll es

def foldOption : Option Expr → List β
  | none => []
  | some e => [fold e]

def foldLinks : List (CompareOp × Expr) → List β
  | [] => []
  | (_, e) :: rest => fold e :: foldLinks rest

def foldArgs : List (Argument Expr) → List β
  | [] => []
  | .positional e :: rest => fold e :: foldArgs rest
  | .keyword _ _ e :: rest => fold e :: foldArgs rest

def foldEntries : List (Expr × Expr) → List β
  | [] => []
  | (k, v) :: rest => fold k :: fold v :: foldEntries rest

def foldClauses : List (Clause Expr) → List β
  | [] => []
  | ⟨_, i, cs⟩ :: rest => fold i :: (foldAll cs ++ foldClauses rest)

end

theorem foldAll_eq (es : List Expr) : foldAll f es = es.map (fold f) := by
  induction es with
  | nil => rfl
  | cons e es ih => simp [foldAll, ih]

theorem foldOption_eq (o : Option Expr) : foldOption f o = o.toList.map (fold f) := by
  cases o <;> simp [foldOption]

theorem foldLinks_eq (links : List (CompareOp × Expr)) :
    foldLinks f links = (links.map Prod.snd).map (fold f) := by
  induction links with
  | nil => rfl
  | cons p rest ih => simp [foldLinks, ih]

theorem foldArgs_eq (args : List (Argument Expr)) :
    foldArgs f args = (args.map Argument.value).map (fold f) := by
  induction args with
  | nil => rfl
  | cons a rest ih => cases a <;> simp [foldArgs, Argument.value, ih]

theorem foldEntries_eq (entries : List (Expr × Expr)) :
    foldEntries f entries = (entries.flatMap fun (k, v) => [k, v]).map (fold f) := by
  induction entries with
  | nil => rfl
  | cons p rest ih => simp [foldEntries, ih]

theorem foldClauses_eq (clauses : List (Clause Expr)) :
    foldClauses f clauses = (clauses.flatMap clauseParts).map (fold f) := by
  induction clauses with
  | nil => rfl
  | cons c rest ih => simp [foldClauses, foldAll_eq, clauseParts, ih]

theorem fold_eq (e : Expr) : fold f e = f e (e.children.map (fold f)) := by
  cases e <;>
    simp [fold, children, foldAll_eq, foldOption_eq, foldLinks_eq, foldArgs_eq, foldEntries_eq,
      foldClauses_eq]

end Fold

/-- The height of the tree; a single node has height one. -/
def depth : Expr → Nat := fold fun _ below => 1 + below.foldr max 0

/-- All nodes in pre-order: a node, then the nodes of its children from left to right. -/
def nodes : Expr → List Expr := fold fun e below => e :: below.flatten

theorem depth_eq (e : Expr) : e.depth = 1 + (e.children.map depth).foldr max 0 := fold_eq _ e

theorem nodes_eq (e : Expr) : e.nodes = e :: e.children.flatMap nodes := by
  rw [List.flatMap_def]
  exact fold_eq _ e

theorem mem_nodes_self (e : Expr) : e ∈ e.nodes := by
  rw [nodes_eq]
  exact List.mem_cons_self

theorem mem_nodes_of_child {c e n : Expr} (hc : c ∈ e.children) (hn : n ∈ c.nodes) :
    n ∈ e.nodes := by
  rw [nodes_eq]
  exact List.mem_cons_of_mem e (List.mem_flatMap.mpr ⟨c, hc, hn⟩)

theorem forall_nodes_iff {P : Expr → Prop} {e : Expr} :
    (∀ n ∈ e.nodes, P n) ↔ P e ∧ ∀ c ∈ e.children, ∀ n ∈ c.nodes, P n := by
  rw [nodes_eq, List.forall_mem_cons]
  simp only [List.mem_flatMap, forall_exists_index, and_imp]
  constructor
  · rintro ⟨hself, hchildren⟩
    exact ⟨hself, fun c hc n hn => hchildren n c hc hn⟩
  · rintro ⟨hself, hchildren⟩
    exact ⟨hself, fun n c hc hn => hchildren c hc n hn⟩

theorem depth_child_lt {c e : Expr} (hc : c ∈ e.children) : c.depth + 1 ≤ e.depth := by
  have hmax : ∀ es : List Expr, c ∈ es → c.depth ≤ (es.map depth).foldr max 0 := by
    intro es hes
    induction es with
    | nil => cases hes
    | cons x xs ih =>
      simp only [List.map_cons, List.foldr_cons]
      rcases List.mem_cons.mp hes with rfl | hxs
      · exact Nat.le_max_left _ _
      · exact Nat.le_trans (ih hxs) (Nat.le_max_right _ _)
  rw [depth_eq e]
  have := hmax e.children hc
  omega

end Expr

end SafeExpr
