/-
  SafeExpr/Proofs/Syntax/Bare.lean
  ================================
  **Trees without spans and grouping parentheses.**

  Two trees with the same bare tree differ in where they stand in a text and in the
  parentheses around their parts, and in nothing else.  A tree and its bare tree have the same
  nodes in the same order, but for the parentheses (`nodes_bare`), so what names a node and what
  forbids it can be read off its bare tree.
-/
import Mathlib.Data.List.Basic
import SafeExpr.Check.Calls

namespace SafeExpr

namespace Expr

mutual

/-- The tree with all spans blanked and all grouping parentheses removed. -/
def bare : Expr → Expr
  | .literal _ v => .literal default v
  | .name _ n => .name default n
  | .unary _ op e => .unary default op e.bare
  | .binary _ op l r => .binary default op l.bare r.bare
  | .boolOp _ op l r => .boolOp default op l.bare r.bare
  | .compare _ l links => .compare default l.bare (bareLinks links)
  | .conditional _ c yes no => .conditional default c.bare yes.bare no.bare
  | .call _ f args => .call default f.bare (bareArgs args)
  | .list _ es => .list default (bareAll es)
  | .tuple _ es => .tuple default (bareAll es)
  | .set _ es => .set default (bareAll es)
  | .dict _ entries => .dict default (bareEntries entries)
  | .paren _ e => e.bare
  | .member _ e attr => .member default e.bare attr
  | .subscript _ e i => .subscript default e.bare i.bare
  | .slice _ l u s => .slice default (bareOption l) (bareOption u) (bareOption s)
  | .lambda _ params e => .lambda default params e.bare
  | .comprehension _ kind e v clauses =>
    .comprehension default kind e.bare (bareOption v) (bareClauses clauses)
  | .starred _ double e => .starred default double e.bare
  | .named _ target e => .named default target.bare e.bare
  | .assign _ op target e => .assign default op target.bare e.bare
  | .statement _ keyword => .statement default keyword

def bareAll : List Expr → List Expr
  | [] => []
  | e :: es => e.bare :: bareAll es

def bareOption : Option Expr → Option Expr
  | none => none
  | some e => some e.bare

def bareLinks : List (CompareOp × Expr) → List (CompareOp × Expr)
  | [] => []
  | (op, e) :: rest => (op, e.bare) :: bareLinks rest

def bareArgs : List (Argument Expr) → List (Argument Expr)
  | [] => []
  | .positional e :: rest => .positional e.bare :: bareArgs rest
  | .keyword _ n e :: rest => .keyword default n e.bare :: bareArgs rest

def bareEntries : List (Expr × Expr) → List (Expr × Expr)
  | [] => []
  | (k, v) :: rest => (k.bare, v.bare) :: bareEntries rest

def bareClauses : List (Clause Expr) → List (Clause Expr)
  | [] => []
  | ⟨targets, i, conditions⟩ :: rest =>
    ⟨targets, i.bare, bareAll conditions⟩ :: bareClauses rest

end

end Expr

/-! ### Lists of parts -/

def Argument.bare : Argument Expr → Argument Expr
  | .positional e => .positional e.bare
  | .keyword _ n e => .keyword default n e.bare

def Clause.bare (c : Clause Expr) : Clause Expr :=
  ⟨c.targets, c.iter.bare, c.conditions.map Expr.bare⟩

namespace Expr

theorem bareAll_eq (es : List Expr) : bareAll es = es.map bare := by
  induction es with
  | nil => rfl
  | cons e es ih => rw [bareAll, ih, List.map_cons]

theorem bareOption_eq (o : Option Expr) : bareOption o = o.map bare := by
  cases o <;> rfl

theorem bareLinks_eq (links : List (CompareOp × Expr)) :
    bareLinks links = links.map fun l => (l.1, l.2.bare) := by
  induction links with
  | nil => rfl
  | cons l rest ih => rw [bareLinks, ih, List.map_cons]

theorem bareArgs_eq (args : List (Argument Expr)) : bareArgs args = args.map Argument.bare := by
  induction args with
  | nil => rfl
  | cons arg rest ih =>
    cases arg with
    | positional e => rw [bareArgs, ih, List.map_cons, Argument.bare]
    | keyword span n e => rw [bareArgs, ih, List.map_cons, Argument.bare]

theorem bareEntries_eq (entries : List (Expr × Expr)) :
    bareEntries entries = entries.map fun entry => (entry.1.bare, entry.2.bare) := by
  induction entries with
  | nil => rfl
  | cons entry rest ih => rw [bareEntries, ih, List.map_cons]

theorem bareClauses_eq (clauses : List (Clause Expr)) :
    bareClauses clauses = clauses.map Clause.bare := by
  induction clauses with
  | nil => rfl
  | cons c rest ih => rw [bareClauses, bareAll_eq, ih, List.map_cons, Clause.bare]

/-! ### Nodes -/

def isParen : Expr → Bool
  | .paren .. => true
  | _ => false

theorem bare_peel (e : Expr) : e.peel.bare = e.bare := by
  induction e using Expr.induction with
  | step e ih =>
    cases e with
    | paren s inner => exact ih inner (List.mem_singleton_self inner)
    | _ => rfl

theorem isParen_peel (e : Expr) : e.peel.isParen = false := by
  induction e using Expr.induction with
  | step e ih =>
    cases e with
    | paren s inner => exact ih inner (List.mem_singleton_self inner)
    | _ => rfl

theorem isParen_bare (e : Expr) : e.bare.isParen = false := by
  rw [← bare_peel]
  have h := e.isParen_peel
  cases hpeel : e.peel with
  | paren s inner =>
    rw [hpeel] at h
    cases h
  | _ => rfl

theorem peel_of_not_paren {e : Expr} (h : e.isParen = false) : e.peel = e := by
  cases e with
  | paren => cases h
  | _ => rfl

/-- A node stands for a name just if its bare tree does. -/
theorem asName_bare (e : Expr) : e.bare.asName = e.asName := by
  unfold asName
  rw [peel_of_not_paren e.isParen_bare, ← bare_peel]
  have h := e.isParen_peel
  cases hpeel : e.peel with
  | paren s inner =>
    rw [hpeel] at h
    cases h
  | _ => rfl

section Plain

variable {e : Expr} (h : e.isParen = false)
include h

theorem forbidden?_bare : e.bare.forbidden? = e.forbidden? := by
  cases e with
  | paren => cases h
  | starred s double x => cases double <;> rfl
  | assign s op l r => cases op <;> rfl
  | _ => rfl

theorem nameOf?_bare : e.bare.nameOf? = e.nameOf? := by
  cases e with
  | paren => cases h
  | _ => rfl

/-- Only the parts of parentheses are not the parts of the bare tree. -/
theorem children_bare : e.bare.children = e.children.map bare := by
  cases e with
  | paren => cases h
  | literal | name | statement | unary | member | lambda | starred | binary | boolOp | subscript
  | named | assign | conditional => rfl
  | list s es | tuple s es | set s es => exact bareAll_eq es
  | compare s l links =>
    simp only [bare, children, bareLinks_eq, List.map_cons, List.map_map]
    rfl
  | call s f args =>
    have hvalue : ∀ arg : Argument Expr, arg.bare.value = arg.value.bare := by
      intro arg
      cases arg <;> rfl
    simp only [bare, children, bareArgs_eq, List.map_cons, List.map_map]
    exact congrArg _ (List.map_congr_left fun arg _ => hvalue arg)
  | dict s entries =>
    simp only [bare, children, bareEntries_eq, List.flatMap_map, List.map_flatMap]
    rfl
  | slice s l u st =>
    cases l <;> cases u <;> cases st <;> rfl
  | comprehension s kind x v clauses =>
    have hparts : ∀ c : Clause Expr, clauseParts c.bare = (clauseParts c).map bare :=
      fun c => rfl
    simp only [bare, children, bareClauses_eq, bareOption_eq, List.map_cons, List.map_append,
      List.flatMap_map, List.map_flatMap, hparts]
    cases v <;> rfl

end Plain

/-- **The nodes of the bare tree are those of the tree**, but for the parentheses. -/
theorem nodes_bare (e : Expr) :
    e.bare.nodes = (e.nodes.filter fun n => !n.isParen).map bare := by
  induction e using Expr.induction with
  | step e ih =>
    cases hparen : e.isParen with
    | true =>
      cases e with
      | paren s inner =>
        have hinner := ih inner (List.mem_singleton_self inner)
        rw [nodes_eq (.paren s inner), List.filter_cons_of_neg (by simp [isParen])]
        simpa [children, bare] using hinner
      | _ => cases hparen
    | false =>
      have hchildren : e.children.flatMap (fun c => c.bare.nodes) =
          ((e.children.flatMap nodes).filter fun n => !n.isParen).map bare := by
        rw [List.filter_flatMap, List.map_flatMap]
        exact List.flatMap_congr ih
      rw [nodes_eq e, List.filter_cons_of_pos (by simp [hparen]), List.map_cons, ← hchildren,
        nodes_eq, children_bare hparen, List.flatMap_map]

end Expr

end SafeExpr
