/-
  SafeExpr/Proofs/Machine/Precedence.lean
  =======================================
  **Reading by precedence on a machine.**

  A table says of each rule whether its nodes stand before an operand, behind one, or between
  two, and how tightly they bind; nodes of all other rules are operands.  A node that stands
  in another place than the table says stops the program, and so does an operator of which no
  node can be made.

  Where operands and operators alternate as they should, the nodes are read just as the items
  that they stand for are resolved.
-/
import Mathlib.Data.List.Forall2
import SafeExpr.Proofs.Grammar.Opening
import SafeExpr.Proofs.Grammar.Shape
import SafeExpr.Proofs.Machine.Literal

namespace SafeExpr.Machine

open Build (beforeOf betweenOf)
open Grammar (Shape OfRule rulePattern)

/-! ### Definitions -/

/-- The place of an operator. -/
inductive Affix where
  | before | after
  /-- Between two operands; does a run of such operators associate to the left? -/
  | between (left : Bool)

/-- The table of the operators, from loose to tight. -/
def affix? : Rule → Option (Affix × Level)
  | .before .lambda => some (.before, 1)
  | .between .walrus => some (.between false, 2)
  | .between .ternary => some (.between false, 3)
  | .between .or => some (.between true, 4)
  | .between .and => some (.between true, 5)
  | .before .not => some (.before, 6)
  | .between .eq | .between .ne | .between .lt | .between .le | .between .gt | .between .ge
  | .between .isIn | .between .notIn | .between .is | .between .isNot => some (.between true, 7)
  | .between .bitOr => some (.between true, 8)
  | .between .bitXor => some (.between true, 9)
  | .between .bitAnd => some (.between true, 10)
  | .between .shl | .between .shr => some (.between true, 11)
  | .between .add | .between .sub => some (.between true, 12)
  | .between .mul | .between .div | .between .floorDiv | .between .mod => some (.between true, 13)
  | .before .neg | .before .pos | .before .invert => some (.before, 14)
  | .between .pow => some (.between false, 15)
  | .callOp | .subscriptOp | .memberOp => some (.after, 16)
  | _ => none

/-- A matched node of an expression, and what is made of it in each place. -/
structure Piece where
  rule : Rule
  operand : Reading Expr
  before : Expr → Reading Expr
  between : Expr → Expr → Reading Expr
  after : Expr → Reading Expr

/-- An operator whose right operand is still being read. -/
inductive Waiting where
  | before (level : Level) (make : Expr → Reading Expr)
  | between (operand : Built Expr) (left : Bool) (level : Level) (make : Expr → Expr → Reading Expr)

def Waiting.binds (next : Level) : Waiting → Bool
  | .before level _ => next < level
  | .between _ left level _ => if left then next ≤ level else next < level

/-- The waiting operator takes its right operand. -/
def Waiting.take (right : Built Expr) : Waiting → Checked (Built Expr)
  | .before _ make => ExceptT.run do
    let r ← settled right
    make r
  | .between left _ _ make => ExceptT.run do
    let l ← settled left
    let r ← settled right
    make l r

def settle (next : Level) : List Waiting → Built Expr → Checked (List Waiting × Built Expr)
  | [], e => return ([], e)
  | w :: ws, e => if w.binds next then do settle next ws (← w.take e) else return (w :: ws, e)

def finish : List Waiting → Built Expr → Checked (Built Expr)
  | [], e => return e
  | w :: ws, e => do finish ws (← w.take e)

mutual

/-- Expects an operand, or operators before one. -/
def operandNext (waiting : List Waiting) : List Piece → Checked (Built Expr)
  | [] => panic .expectedOperand
  | p :: rest =>
    match affix? p.rule with
    | some (.before, level) => operandNext (.before level p.before :: waiting) rest
    | none => do operatorNext waiting (← p.operand.run) rest
    | some _ => panic .expectedOperand

/-- Expects an operator behind the operand `e`, or the end. -/
def operatorNext (waiting : List Waiting) (e : Built Expr) : List Piece → Checked (Built Expr)
  | [] => finish waiting e
  | p :: rest =>
    match affix? p.rule with
    | some (.between left, level) => do
      let (waiting, e) ← settle level waiting e
      operandNext (.between e left level p.between :: waiting) rest
    | some (.after, level) => do
      let (waiting, e) ← settle level waiting e
      let e ← ExceptT.run do p.after (← settled e)
      operatorNext waiting e rest
    | _ => panic .expectedOperator

end

/-- The tree of a flat expression. -/
def resolve (pieces : List Piece) : Reading Expr := ExceptT.mk (operandNext [] pieces)

/-! ### The table -/

/-- The nodes of operators are those in the table. -/
theorem isSome_affix? (r : Rule) : (affix? r).isSome = r.isOperator := by
  cases r with
  | before op => cases op <;> rfl
  | between op => cases op <;> rfl
  | _ => rfl

theorem affix?_eq_none {r : Rule} (h : r.isOperator ≠ true) : affix? r = none := by
  rw [← isSome_affix?] at h
  exact Option.not_isSome_iff_eq_none.mp h

theorem affix?_before (params : List String) (op : Prefix) :
    affix? (.before op) = some (.before, (beforeOf params op).level) := by
  cases op <;> rfl

theorem affix?_between (condition : Built Expr) (op : Infix) :
    affix? (.between op) =
      some (.between (betweenOf condition op).isLeft, (betweenOf condition op).level) := by
  cases op <;> rfl

/-! ### Nodes and items -/

mutual

/-- Operators before an operand, then the operand, then what may stand behind it. -/
def operandFirst : List Rule → Bool
  | [] => false
  | r :: rest =>
    match affix? r with
    | some (.before, _) => operandFirst rest
    | none => operatorFirst rest
    | some _ => false

def operatorFirst : List Rule → Bool
  | [] => true
  | r :: rest =>
    match affix? r with
    | some (.between _, _) => operandFirst rest
    | some (.after, _) => operatorFirst rest
    | _ => false

end

/-- The node is read as the item. -/
inductive Piece.ReadAs (p : Piece) : Item → Prop
  | before {start : Nat} {op : Before} (hrule : affix? p.rule = some (.before, op.level))
    (hmake : ∀ e, p.before e = settled (.ok (op.node start e))) : ReadAs p (.before start op)
  | operand {e : Built Expr} (hrule : affix? p.rule = none) (hmake : p.operand = settled e) :
    ReadAs p (.operand e)
  | between {op : Between} (hrule : affix? p.rule = some (.between op.isLeft, op.level))
    (hmake : ∀ l r, p.between l r = settled (op.node l r)) : ReadAs p (.between op)
  | after {stop : Nat} {op : After} (hrule : affix? p.rule = some (.after, After.level))
    (hmake : ∀ e, p.after e = settled (op.node e stop)) : ReadAs p (.after stop op)

/-- An operator waits as it does among the items. -/
inductive Waiting.WaitsAs : Waiting → SafeExpr.Waiting → Prop
  | before {start : Nat} {op : Before} {make : Expr → Reading Expr}
    (hmake : ∀ e, make e = settled (.ok (op.node start e))) :
    WaitsAs (.before op.level make) (.before start op)
  | between {left : Built Expr} {op : Between} {make : Expr → Expr → Reading Expr}
    (hmake : ∀ l r, make l r = settled (op.node l r)) :
    WaitsAs (.between left op.isLeft op.level make) (.between left op)

/-! ### Resolution -/

theorem Waiting.WaitsAs.binds_eq {w : Waiting} {w' : SafeExpr.Waiting} (h : w.WaitsAs w')
    (next : Level) : w.binds next = w'.binds next := by
  cases h <;> rfl

theorem Waiting.WaitsAs.take_eq {w : Waiting} {w' : SafeExpr.Waiting} (h : w.WaitsAs w')
    (e : Built Expr) : w.take e = .ok (w'.take e) := by
  cases h with
  | before hmake =>
    cases e with
    | error err => rfl
    | ok e => exact hmake e
  | @between left op make hmake =>
    cases left with
    | error err => rfl
    | ok l =>
      cases e with
      | error err => rfl
      | ok r => exact hmake l r

theorem settle_eq {ws : List Waiting} {ws' : List SafeExpr.Waiting}
    (h : List.Forall₂ Waiting.WaitsAs ws ws') (next : Level) (e : Built Expr) :
    ∃ rest, settle next ws e = .ok (rest, (SafeExpr.settle next ws' e).2) ∧
      List.Forall₂ Waiting.WaitsAs rest (SafeExpr.settle next ws' e).1 := by
  induction h generalizing e with
  | nil => exact ⟨[], rfl, .nil⟩
  | @cons w w' ws ws' hw hws ih =>
    rw [settle, SafeExpr.settle, hw.binds_eq, hw.take_eq]
    split
    · exact ih _
    · exact ⟨w :: ws, rfl, .cons hw hws⟩

theorem finish_eq {ws : List Waiting} {ws' : List SafeExpr.Waiting}
    (h : List.Forall₂ Waiting.WaitsAs ws ws') (e : Built Expr) :
    finish ws e = .ok (SafeExpr.finish ws' e) := by
  induction h generalizing e with
  | nil => rfl
  | cons hw _ ih =>
    rw [finish, hw.take_eq]
    exact ih _

/-- **Nodes that alternate are read as the items that they stand for.** -/
theorem next_eq {pieces : List Piece} {items : List Item}
    (h : List.Forall₂ Piece.ReadAs pieces items) :
    (∀ ws ws', operandFirst (pieces.map Piece.rule) = true →
        List.Forall₂ Waiting.WaitsAs ws ws' →
        operandNext ws pieces = .ok (SafeExpr.operandNext ws' items)) ∧
      ∀ ws ws' e, operatorFirst (pieces.map Piece.rule) = true →
        List.Forall₂ Waiting.WaitsAs ws ws' →
        operatorNext ws e pieces = .ok (SafeExpr.operatorNext ws' e items) := by
  induction h with
  | nil =>
    refine ⟨fun ws ws' hfirst _ => ?_, fun ws ws' e _ hws => ?_⟩
    · rw [List.map_nil, operandFirst] at hfirst
      cases hfirst
    · rw [operatorNext, SafeExpr.operatorNext]
      exact finish_eq hws e
  | @cons p item pieces items hp _ ih =>
    obtain ⟨ihOperand, ihOperator⟩ := ih
    constructor
    · intro ws ws' hfirst hws
      rw [List.map_cons, operandFirst] at hfirst
      rw [operandNext]
      cases hp with
      | before hrule hmake =>
        rw [hrule] at hfirst ⊢
        rw [SafeExpr.operandNext]
        exact ihOperand _ _ hfirst (.cons (.before hmake) hws)
      | operand hrule hmake =>
        rw [hrule] at hfirst ⊢
        rw [SafeExpr.operandNext, hmake]
        exact ihOperator _ _ _ hfirst hws
      | between hrule hmake =>
        rw [hrule] at hfirst
        cases hfirst
      | after hrule hmake =>
        rw [hrule] at hfirst
        cases hfirst
    · intro ws ws' e hfirst hws
      rw [List.map_cons, operatorFirst] at hfirst
      rw [operatorNext]
      cases hp with
      | before hrule hmake =>
        rw [hrule] at hfirst
        cases hfirst
      | operand hrule hmake =>
        rw [hrule] at hfirst
        cases hfirst
      | @between op hrule hmake =>
        rw [hrule] at hfirst ⊢
        obtain ⟨rest, hsettle, hrest⟩ := settle_eq hws op.level e
        rw [SafeExpr.operatorNext]
        dsimp only
        rw [hsettle]
        exact ihOperand _ _ hfirst (.cons (.between hmake) hrest)
      | @after stop op hrule hmake =>
        rw [hrule] at hfirst ⊢
        obtain ⟨rest, hsettle, hrest⟩ := settle_eq hws After.level e
        rw [SafeExpr.operatorNext]
        dsimp only
        rw [hsettle]
        have hnode : settled (SafeExpr.settle After.level ws' e).2 >>= p.after =
            settled ((SafeExpr.settle After.level ws' e).2 >>= fun e => op.node e stop) :=
          settled_bind fun a _ => hmake a
        change (ExceptT.run (settled _ >>= p.after) >>= fun e => operatorNext rest e pieces) = _
        rw [hnode]
        exact ihOperator _ _ _ hfirst hrest

theorem resolve_eq {pieces : List Piece} {items : List Item}
    (h : List.Forall₂ Piece.ReadAs pieces items)
    (hfirst : operandFirst (pieces.map Piece.rule) = true) :
    resolve pieces = settled (SafeExpr.resolve items) :=
  (next_eq h).1 [] [] hfirst .nil

/-! ### Operands and operators of an expression -/

/-- One of the rules has left its node. -/
theorem shape_oneOf {rules : List Rule} {ts : List (Tree Rule)}
    (h : Shape (Pattern.oneOf (rules.map .rule)) ts) :
    rules = [] ∨ ∃ t, ts = [t] ∧ t.rule ∈ rules := by
  induction rules with
  | nil => exact Or.inl rfl
  | cons r rules ih =>
    have hrule : Shape (.rule r) ts → ∃ t, ts = [t] ∧ t.rule ∈ r :: rules := by
      rintro ⟨t, rfl, ht⟩
      exact ⟨t, rfl, ht.rule_eq ▸ List.mem_cons_self⟩
    refine Or.inr ?_
    cases rules with
    | nil => exact hrule h
    | cons r' rules =>
      rcases h with h | h
      · exact hrule h
      · obtain hnil | ⟨t, rfl, ht⟩ := ih h
        · cases hnil
        · exact ⟨t, rfl, List.mem_cons_of_mem r ht⟩

/-- Any number of nodes of some rules. -/
theorem shape_many_oneOf {rules : List Rule} {ts : List (Tree Rule)} (hrules : rules ≠ [])
    (h : Shape (.many (Pattern.oneOf (rules.map .rule))) ts) :
    ∀ r ∈ ts.map Tree.rule, r ∈ rules := by
  obtain ⟨tss, htss, rfl⟩ := h
  rw [List.forall_mem_map]
  intro t ht
  obtain ⟨us, hus, htus⟩ := List.mem_flatten.mp ht
  obtain hnil | ⟨u, rfl, hu⟩ := shape_oneOf (htss us hus)
  · exact absurd hnil hrules
  · rwa [List.mem_singleton.mp htus]

/-- The rules of operators behind an operand. -/
def postfixRules : List Rule := [.callOp, .subscriptOp, .memberOp]

/-- The rules of all that an expression consists of. -/
def partRules : List Rule :=
  Grammar.prefixRules ++ Grammar.operandRules ++ postfixRules ++ Grammar.infixRules

/-- Operators before an operand. -/
theorem operandFirst_append {rules : List Rule} (h : ∀ r ∈ rules, r ∈ Grammar.prefixRules)
    (more : List Rule) : operandFirst (rules ++ more) = operandFirst more := by
  induction rules with
  | nil => rfl
  | cons r rules ih =>
    obtain ⟨hr, hrules⟩ := List.forall_mem_cons.mp h
    obtain ⟨op, -, rfl⟩ := List.mem_map.mp hr
    rw [List.cons_append, operandFirst, affix?_before []]
    exact ih hrules

/-- Operators behind an operand. -/
theorem operatorFirst_append {rules : List Rule} (h : ∀ r ∈ rules, r ∈ postfixRules)
    (more : List Rule) : operatorFirst (rules ++ more) = operatorFirst more := by
  induction rules with
  | nil => rfl
  | cons r rules ih =>
    obtain ⟨hr, hrules⟩ := List.forall_mem_cons.mp h
    have hafter : affix? r = some (.after, 16) := by
      simp only [postfixRules, List.mem_cons, List.not_mem_nil, or_false] at hr
      rcases hr with rfl | rfl | rfl <;> rfl
    rw [List.cons_append, operatorFirst, hafter]
    exact ih hrules

/-- An operand, with the operators directly around it. -/
theorem operandFirst_term {ts : List (Tree Rule)} (h : Shape Grammar.termPart ts) :
    (∀ more, operandFirst (ts.map Tree.rule ++ more) = operatorFirst more) ∧
      ∀ r ∈ ts.map Tree.rule, r ∈ partRules := by
  obtain ⟨_, post, rfl, ⟨pre, _, rfl, hpre, hoperand⟩, hpost⟩ := h
  rw [Grammar.prefixPart_eq] at hpre
  have hpre := shape_many_oneOf (by decide) hpre
  have hpost : ∀ r ∈ post.map Tree.rule, r ∈ postfixRules := shape_many_oneOf (by decide) hpost
  rw [Grammar.operandPart_eq] at hoperand
  obtain hnil | ⟨t, rfl, hrule⟩ := shape_oneOf hoperand
  · cases hnil
  have hnone : affix? t.rule = none := by
    have hall : ∀ r ∈ Grammar.operandRules, r.isOperator ≠ true := by decide
    exact affix?_eq_none (hall _ hrule)
  rw [List.map_append, List.map_append, List.map_singleton]
  constructor
  · intro more
    rw [List.append_assoc, List.append_assoc, operandFirst_append hpre, List.singleton_append,
      operandFirst, hnone]
    exact operatorFirst_append hpost more
  · refine List.forall_mem_append.mpr ⟨List.forall_mem_append.mpr ⟨?_, ?_⟩, ?_⟩
    · exact fun r hr => by simp [partRules, hpre r hr]
    · exact List.forall_mem_singleton.mpr (by simp [partRules, hrule])
    · exact fun r hr => by simp [partRules, hpost r hr]

/-- Further terms, each behind an operator. -/
theorem operatorFirst_terms {ts : List (Tree Rule)}
    (h : Shape (.many (Grammar.infixPart ++ Grammar.termPart)) ts) :
    operatorFirst (ts.map Tree.rule) = true ∧ ∀ r ∈ ts.map Tree.rule, r ∈ partRules := by
  obtain ⟨tss, htss, rfl⟩ := h
  induction tss with
  | nil => exact ⟨rfl, List.forall_mem_nil _⟩
  | cons us tss ih =>
    obtain ⟨hus, htss⟩ := List.forall_mem_cons.mp htss
    obtain ⟨hmore, hrest⟩ := ih htss
    obtain ⟨_, vs, rfl, hinfix, hterm⟩ := hus
    obtain ⟨hfirst, hvs⟩ := operandFirst_term hterm
    rw [Grammar.infixPart_eq] at hinfix
    obtain hnil | ⟨t, rfl, hrule⟩ := shape_oneOf hinfix
    · cases hnil
    obtain ⟨op, -, hop⟩ := List.mem_map.mp hrule
    rw [List.flatten_cons, List.map_append, List.map_append, List.map_singleton]
    constructor
    · rw [List.append_assoc, List.singleton_append, operatorFirst, ← hop,
        affix?_between (.error malformed)]
      exact (hfirst _).trans hmore
    · refine List.forall_mem_append.mpr ⟨List.forall_mem_append.mpr ⟨?_, hvs⟩, hrest⟩
      exact List.forall_mem_singleton.mpr (by simp [partRules, hrule])

/-- **In an expression operands and operators alternate.** -/
theorem operandFirst_expression {ts : List (Tree Rule)}
    (h : Shape (rulePattern .expression) ts) :
    operandFirst (ts.map Tree.rule) = true ∧ ∀ r ∈ ts.map Tree.rule, r ∈ partRules := by
  obtain ⟨us, vs, rfl, hus, hvs⟩ := h
  obtain ⟨hfirst, hus⟩ := operandFirst_term hus
  obtain ⟨hmore, hvs⟩ := operatorFirst_terms hvs
  rw [List.map_append]
  exact ⟨(hfirst _).trans hmore, List.forall_mem_append.mpr ⟨hus, hvs⟩⟩

end SafeExpr.Machine
