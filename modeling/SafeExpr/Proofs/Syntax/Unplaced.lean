/-
  SafeExpr/Proofs/Syntax/Unplaced.lean
  ====================================
  **Trees without spans.**

  Two trees with the same unplaced tree differ in where they stand in a text and in nothing
  else: their nodes are of the same kinds, with the same parts.  In particular they are equally
  high (`depth_unplaced`).
-/
import SafeExpr.Syntax.Expr

namespace SafeExpr

namespace Expr

mutual

/-- The tree with all spans blanked. -/
def unplaced : Expr → Expr
  | .literal _ v => .literal default v
  | .name _ n => .name default n
  | .unary _ op e => .unary default op e.unplaced
  | .binary _ op l r => .binary default op l.unplaced r.unplaced
  | .boolOp _ op l r => .boolOp default op l.unplaced r.unplaced
  | .compare _ l links => .compare default l.unplaced (unplacedLinks links)
  | .conditional _ c yes no => .conditional default c.unplaced yes.unplaced no.unplaced
  | .call _ f args => .call default f.unplaced (unplacedArgs args)
  | .list _ es => .list default (unplacedAll es)
  | .tuple _ es => .tuple default (unplacedAll es)
  | .set _ es => .set default (unplacedAll es)
  | .dict _ entries => .dict default (unplacedEntries entries)
  | .paren _ e => .paren default e.unplaced
  | .member _ e attr => .member default e.unplaced attr
  | .subscript _ e i => .subscript default e.unplaced i.unplaced
  | .slice _ l u s => .slice default (unplacedOption l) (unplacedOption u) (unplacedOption s)
  | .lambda _ params e => .lambda default params e.unplaced
  | .comprehension _ kind e v clauses =>
    .comprehension default kind e.unplaced (unplacedOption v) (unplacedClauses clauses)
  | .starred _ double e => .starred default double e.unplaced
  | .named _ target e => .named default target.unplaced e.unplaced
  | .assign _ op target e => .assign default op target.unplaced e.unplaced
  | .statement _ keyword => .statement default keyword

def unplacedAll : List Expr → List Expr
  | [] => []
  | e :: es => e.unplaced :: unplacedAll es

def unplacedOption : Option Expr → Option Expr
  | none => none
  | some e => some e.unplaced

def unplacedLinks : List (CompareOp × Expr) → List (CompareOp × Expr)
  | [] => []
  | (op, e) :: rest => (op, e.unplaced) :: unplacedLinks rest

def unplacedArgs : List (Argument Expr) → List (Argument Expr)
  | [] => []
  | .positional e :: rest => .positional e.unplaced :: unplacedArgs rest
  | .keyword _ n e :: rest => .keyword default n e.unplaced :: unplacedArgs rest

def unplacedEntries : List (Expr × Expr) → List (Expr × Expr)
  | [] => []
  | (k, v) :: rest => (k.unplaced, v.unplaced) :: unplacedEntries rest

def unplacedClauses : List (Clause Expr) → List (Clause Expr)
  | [] => []
  | ⟨targets, i, conditions⟩ :: rest =>
    ⟨targets, i.unplaced, unplacedAll conditions⟩ :: unplacedClauses rest

end

end Expr

/-! ### Lists of parts -/

def Argument.unplaced : Argument Expr → Argument Expr
  | .positional e => .positional e.unplaced
  | .keyword _ n e => .keyword default n e.unplaced

def Clause.unplaced (c : Clause Expr) : Clause Expr :=
  ⟨c.targets, c.iter.unplaced, c.conditions.map Expr.unplaced⟩

namespace Expr

@[simp] theorem unplacedAll_eq (es : List Expr) : unplacedAll es = es.map unplaced := by
  induction es with
  | nil => rfl
  | cons e es ih => rw [unplacedAll, ih, List.map_cons]

@[simp] theorem unplacedOption_eq (o : Option Expr) : unplacedOption o = o.map unplaced := by
  cases o <;> rfl

@[simp] theorem unplacedLinks_eq (links : List (CompareOp × Expr)) :
    unplacedLinks links = links.map fun l => (l.1, l.2.unplaced) := by
  induction links with
  | nil => rfl
  | cons l rest ih => rw [unplacedLinks, ih, List.map_cons]

@[simp] theorem unplacedArgs_eq (args : List (Argument Expr)) :
    unplacedArgs args = args.map Argument.unplaced := by
  induction args with
  | nil => rfl
  | cons arg rest ih =>
    cases arg with
    | positional e => rw [unplacedArgs, ih, List.map_cons, Argument.unplaced]
    | keyword span n e => rw [unplacedArgs, ih, List.map_cons, Argument.unplaced]

@[simp] theorem unplacedEntries_eq (entries : List (Expr × Expr)) :
    unplacedEntries entries = entries.map fun entry => (entry.1.unplaced, entry.2.unplaced) := by
  induction entries with
  | nil => rfl
  | cons entry rest ih => rw [unplacedEntries, ih, List.map_cons]

@[simp] theorem unplacedClauses_eq (clauses : List (Clause Expr)) :
    unplacedClauses clauses = clauses.map Clause.unplaced := by
  induction clauses with
  | nil => rfl
  | cons c rest ih => rw [unplacedClauses, unplacedAll_eq, ih, List.map_cons, Clause.unplaced]

/-! ### What is left as it is -/

theorem children_unplaced (e : Expr) : e.unplaced.children = e.children.map unplaced := by
  cases e with
  | compare | list | tuple | set => simp [unplaced, children, Function.comp_def]
  | call s f args =>
    have hvalue : ∀ a : Argument Expr, a.unplaced.value = a.value.unplaced := by
      rintro (_ | _) <;> rfl
    simp [unplaced, children, Function.comp_def, hvalue]
  | dict s entries => simp [unplaced, children, List.flatMap_map, List.map_flatMap]
  | slice s l u t => cases l <;> cases u <;> cases t <;> simp [unplaced, children]
  | comprehension s kind e v clauses =>
    have hparts : ∀ c : Clause Expr, clauseParts c.unplaced = (clauseParts c).map unplaced := by
      intro c
      rfl
    cases v <;>
      simp [unplaced, children, List.flatMap_map, List.map_flatMap, hparts]
  | _ => rfl

theorem depth_unplaced (e : Expr) : e.unplaced.depth = e.depth := by
  induction e using Expr.induction with
  | step e ih =>
    have hbelow : (e.children.map unplaced).map depth = e.children.map depth := by
      rw [List.map_map]
      exact List.map_congr_left ih
    rw [depth_eq, depth_eq e, children_unplaced, hbelow]

theorem depth_eq_of_unplaced {e e' : Expr} (h : e'.unplaced = e.unplaced) :
    e'.depth = e.depth := by
  rw [← depth_unplaced e', h, depth_unplaced]

end Expr

end SafeExpr
