/-
  SafeExpr/Proofs/Parse/Flaw.lean
  ===============================
  **What may be wrong with a text that the grammar has matched.**

  There are two things that the grammar lets pass and the building of the tree does not: literals
  without a value, and plain arguments behind keywords.  `flaws` lists them for all nodes of a
  matched tree.

  The parts of an expression may be built in any order, so errors are collected along with the
  operators that wait for operands.  Resolution comes to one of the errors of the parts
  (`resolve_fails`).
-/
import SafeExpr.Proofs.Grammar.Nesting
import SafeExpr.Proofs.Machine.Precedence

namespace SafeExpr

open Grammar (Laid OfRule isSolid)
open Machine (affix? operandFirst operatorFirst)

/-! ### Nodes of a tree -/

namespace Tree

variable {R : Type}

mutual

/-- The node and all nodes below it. -/
def nodes : Tree R → List (Tree R)
  | .leaf r span text => [.leaf r span text]
  | .node r span ts => .node r span ts :: nodesAll ts

def nodesAll : List (Tree R) → List (Tree R)
  | [] => []
  | t :: ts => nodes t ++ nodesAll ts

end

theorem nodesAll_eq (ts : List (Tree R)) : nodesAll ts = ts.flatMap nodes := by
  induction ts with
  | nil => rfl
  | cons t ts ih => rw [nodesAll, ih, List.flatMap_cons]

theorem nodes_node (r : R) (span : Span) (ts : List (Tree R)) :
    (node r span ts).nodes = node r span ts :: ts.flatMap nodes :=
  congrArg (node r span ts :: ·) (nodesAll_eq ts)

theorem mem_nodes_iff {t u : Tree R} : u ∈ t.nodes ↔ u = t ∨ ∃ c ∈ t.children, u ∈ c.nodes := by
  cases t with
  | leaf r span text =>
    refine List.mem_singleton.trans (or_iff_left ?_).symm
    rintro ⟨c, hc, -⟩
    cases hc
  | node r span ts => rw [nodes_node, List.mem_cons, List.mem_flatMap, children]

theorem mem_nodes_self (t : Tree R) : t ∈ t.nodes := mem_nodes_iff.mpr (Or.inl rfl)

theorem mem_nodes_of_child {t u c : Tree R} (hc : c ∈ t.children) (hu : u ∈ c.nodes) :
    u ∈ t.nodes := mem_nodes_iff.mpr (Or.inr ⟨c, hc, hu⟩)

end Tree

/-- All nodes of trees that are laid in a text are laid in it. -/
theorem laid_of_mem_nodes {source : List Char} {a z : Nat} {ts : List (Tree Rule)}
    (h : Laid source a z ts) : ∀ t ∈ ts, ∀ u ∈ t.nodes, ∃ a' z', Laid source a' z' [u] := by
  induction h with
  | nil => exact List.forall_mem_nil _
  | leaf hc hstart hread hrest ih =>
    refine List.forall_mem_cons.mpr ⟨fun u hu => ?_, ih⟩
    obtain rfl := List.mem_singleton.mp hu
    exact ⟨_, _, .leaf hc hstart hread (.nil (Nat.le_refl _))⟩
  | node hc hstart hread hchildren hrest ihchildren ih =>
    refine List.forall_mem_cons.mpr ⟨fun u hu => ?_, ih⟩
    rcases Tree.mem_nodes_iff.mp hu with rfl | ⟨c, hc', hu⟩
    · exact ⟨_, _, .node hc hstart hread hchildren (.nil (Nat.le_refl _))⟩
    · exact ihchildren c hc' u hu

/-! ### Flaws -/

/-- The rules of tokens whose text may have no value. -/
def valueRules : List Rule := [.integer, .float, .string]

/-- The plain values behind a keyword or a double star. -/
def misplaced (seenKeyword : Bool) : List (Tree Rule) → List ParseError
  | [] => []
  | t :: rest =>
    (if seenKeyword ∧ t.rule = .expression then [⟨.positionalAfterKeyword, t.span⟩] else []) ++
      misplaced (seenKeyword || t.rule = .keywordArg || t.rule = .doubleStarred) rest

/-- What is wrong with the node itself. -/
def ownFlaws : Tree Rule → List ParseError
  | .leaf r span text => if r ∈ valueRules then (Build.literal r span text).errors else []
  | .node r _ ts => if r = .callOp then misplaced false ts else []

/-- What is wrong with the nodes of the tree. -/
def flaws (t : Tree Rule) : List ParseError := t.nodes.flatMap ownFlaws

theorem flaws_leaf (r : Rule) (s : Span) (text : List Char) :
    flaws (.leaf r s text) = ownFlaws (.leaf r s text) := List.flatMap_singleton _ _

theorem flaws_node (r : Rule) (s : Span) (ts : List (Tree Rule)) :
    flaws (.node r s ts) = ownFlaws (.node r s ts) ++ ts.flatMap flaws := by
  rw [flaws, Tree.nodes_node, List.flatMap_cons, List.flatMap_assoc]
  rfl

/-- A node that is no call has the flaws of its children. -/
theorem flaws_of_ne {r : Rule} (hr : r ≠ .callOp) (s : Span) (ts : List (Tree Rule)) :
    flaws (.node r s ts) = ts.flatMap flaws := by
  have hown : ownFlaws (.node r s ts) = [] := if_neg hr
  rw [flaws_node, hown, List.nil_append]

/-- A word or a name has no flaw. -/
theorem flaws_word {r : Rule} {t : Tree Rule} (h : OfRule r t) (hsolid : isSolid r = true)
    (hr : r ∉ valueRules) : flaws t = [] := by
  obtain ⟨s, text, rfl⟩ := h.leaf hsolid
  rw [flaws_leaf]
  exact if_neg hr

theorem flaws_words {r : Rule} {ts : List (Tree Rule)} (h : ∀ t ∈ ts, OfRule r t)
    (hsolid : isSolid r = true) (hr : r ∉ valueRules) : ts.flatMap flaws = [] := by
  rw [List.flatMap_eq_nil_iff]
  exact fun t ht => flaws_word (h t ht) hsolid hr

theorem mem_flaws_of_mem {t u : Tree Rule} {err : ParseError} (hu : u ∈ t.nodes)
    (h : err ∈ ownFlaws u) : err ∈ flaws t := List.mem_flatMap.mpr ⟨u, hu, h⟩

/-! ### Resolution -/

def Between.FailsWith (V : List ParseError) : Between → Prop
  | .conditional condition => condition.FailsWith V
  | _ => V = []

def After.FailsWith (V : List ParseError) : After → Prop
  | .call args => args.FailsWith V
  | .subscript index => index.FailsWith V
  | .member _ => V = []

theorem Between.node_fails {op : Between} {V : List ParseError} (h : op.FailsWith V) (l r : Expr) :
    (op.node l r).FailsWith V := by
  cases op with
  | conditional condition => exact Except.FailsWith.map h _
  | compare op =>
    cases l <;> exact Except.failsWith_ok.mpr h
  | _ => exact Except.failsWith_ok.mpr h

theorem After.node_fails {op : After} {V : List ParseError} (h : op.FailsWith V) (e : Expr)
    (stop : Nat) : (op.node e stop).FailsWith V := by
  cases op with
  | call args => exact Except.FailsWith.map h _
  | subscript index => exact Except.FailsWith.map h _
  | member attr => exact Except.failsWith_ok.mpr h

/-- The operator waits with these errors. -/
def Waiting.FailsWith : Waiting → List ParseError → Prop
  | .before _ _, W => W = []
  | .between left op, W => ∃ V V', left.FailsWith V ∧ op.FailsWith V' ∧ W = V ++ V'

theorem mem_append_congr {xs ys : List ParseError} (h : ∀ x, x ∈ xs ↔ x ∈ ys)
    (zs : List ParseError) : ∀ x, x ∈ xs ++ zs ↔ x ∈ ys ++ zs := by
  intro x
  rw [List.mem_append, h, ← List.mem_append]

section Waiting

variable {W V : List ParseError} {Ws : List (List ParseError)} {ws : List Waiting} {e : Built Expr}

theorem Waiting.take_fails {w : Waiting} (hw : w.FailsWith W) (he : e.FailsWith V) :
    (w.take e).FailsWith (W ++ V) := by
  cases w with
  | before start op =>
    obtain rfl : W = [] := hw
    exact he.map _
  | between left op =>
    obtain ⟨V₁, V₂, hleft, hop, rfl⟩ := hw
    have h := hleft.bind fun l => he.bind fun r => Between.node_fails hop l r
    refine h.congr fun x => ?_
    simp only [List.mem_append]
    grind

/-- Operators that take the operand leave all errors in place. -/
theorem settle_fails (k : Level) (hws : List.Forall₂ Waiting.FailsWith ws Ws)
    (he : e.FailsWith V) :
    ∃ Ws' V', List.Forall₂ Waiting.FailsWith (settle k ws e).1 Ws' ∧
      (settle k ws e).2.FailsWith V' ∧ ∀ x, x ∈ Ws'.flatten ++ V' ↔ x ∈ Ws.flatten ++ V := by
  induction hws generalizing e V with
  | nil => exact ⟨[], V, .nil, he, fun _ => Iff.rfl⟩
  | @cons w W ws Ws hw hws ih =>
    unfold settle
    split
    · obtain ⟨Ws', V', hws', he', hmem⟩ := ih (Waiting.take_fails hw he)
      refine ⟨Ws', V', hws', he', fun x => (hmem x).trans ?_⟩
      simp only [List.flatten_cons, List.mem_append]
      grind
    · exact ⟨W :: Ws, V, .cons hw hws, he, fun _ => Iff.rfl⟩

/-- An operator between two expressions waits with what it took. -/
theorem settle_between_fails {op : Between} {V' : List ParseError}
    (hws : List.Forall₂ Waiting.FailsWith ws Ws) (he : e.FailsWith V) (hop : op.FailsWith V') :
    ∃ Ws', List.Forall₂ Waiting.FailsWith
        (.between (settle op.level ws e).2 op :: (settle op.level ws e).1) Ws' ∧
      ∀ x, x ∈ Ws'.flatten ↔ x ∈ Ws.flatten ++ V ++ V' := by
  obtain ⟨Ws', V₁, hws', he', hmem⟩ := settle_fails op.level hws he
  refine ⟨(V₁ ++ V') :: Ws', .cons ⟨V₁, V', he', hop, rfl⟩ hws', fun x => ?_⟩
  rw [← mem_append_congr hmem V' x]
  simp only [List.flatten_cons, List.mem_append]
  rw [or_comm, or_assoc]

/-- An operator behind an expression makes one of what it took. -/
theorem settle_after_fails {op : After} {V' : List ParseError}
    (hws : List.Forall₂ Waiting.FailsWith ws Ws) (he : e.FailsWith V) (hop : op.FailsWith V')
    (stop : Nat) :
    ∃ Ws' V₁, List.Forall₂ Waiting.FailsWith (settle After.level ws e).1 Ws' ∧
      (do op.node (← (settle After.level ws e).2) stop).FailsWith V₁ ∧
      ∀ x, x ∈ Ws'.flatten ++ V₁ ↔ x ∈ Ws.flatten ++ V ++ V' := by
  obtain ⟨Ws', V₁, hws', he', hmem⟩ := settle_fails After.level hws he
  refine ⟨Ws', V₁ ++ V', hws', he'.bind fun e => After.node_fails hop e stop, fun x => ?_⟩
  rw [← List.append_assoc]
  exact mem_append_congr hmem V' x

theorem finish_fails (hws : List.Forall₂ Waiting.FailsWith ws Ws) (he : e.FailsWith V) :
    (finish ws e).FailsWith (Ws.flatten ++ V) := by
  induction hws generalizing e V with
  | nil => exact he
  | cons hw hws ih =>
    refine (ih (Waiting.take_fails hw he)).congr fun x => ?_
    simp only [List.flatten_cons, List.mem_append]
    grind

end Waiting

/-- The item stands in the place of the rule, and its parts fail with these errors. -/
inductive Item.Fails (r : Rule) : Item → List ParseError → Prop
  | before {start op level} (hr : affix? r = some (.before, level)) : Fails r (.before start op) []
  | operand {e V} (hr : affix? r = none) (he : e.FailsWith V) : Fails r (.operand e) V
  | between {op V left level} (hr : affix? r = some (.between left, level))
    (hop : op.FailsWith V) : Fails r (.between op) V
  | after {stop op V level} (hr : affix? r = some (.after, level)) (hop : op.FailsWith V) :
    Fails r (.after stop op) V

/-- **Nodes that alternate are resolved to one of their errors, or to a tree.** -/
theorem next_fails (ts : List (Tree Rule))
    (hts : ∀ t ∈ ts, (Build.item t).Fails t.rule (flaws t)) :
    (∀ ws Ws, operandFirst (ts.map Tree.rule) = true → List.Forall₂ Waiting.FailsWith ws Ws →
      (operandNext ws (Build.items ts)).FailsWith (Ws.flatten ++ ts.flatMap flaws)) ∧
    ∀ ws Ws e V, operatorFirst (ts.map Tree.rule) = true →
      List.Forall₂ Waiting.FailsWith ws Ws → e.FailsWith V →
      (operatorNext ws e (Build.items ts)).FailsWith (Ws.flatten ++ V ++ ts.flatMap flaws) := by
  induction ts with
  | nil =>
    rw [Build.items]
    constructor
    · intro ws Ws hfirst _
      rw [List.map_nil, operandFirst] at hfirst
      cases hfirst
    · intro ws Ws e V _ hws he
      rw [operatorNext, List.flatMap_nil, List.append_nil]
      exact finish_fails hws he
  | cons t ts ih =>
    obtain ⟨ht, hrest⟩ := List.forall_mem_cons.mp hts
    obtain ⟨ihOperand, ihOperator⟩ := ih hrest
    rw [Build.items, List.map_cons, List.flatMap_cons]
    generalize Build.item t = item at ht ⊢
    generalize flaws t = V₀ at ht ⊢
    constructor
    · intro ws Ws hfirst hws
      rw [operandFirst] at hfirst
      cases ht with
      | @before start op level hr =>
        rw [hr] at hfirst
        rw [operandNext]
        refine (ihOperand (.before start op :: ws) ([] :: Ws) hfirst (.cons rfl hws)).congr ?_
        simp
      | operand hr he =>
        rw [hr] at hfirst
        rw [operandNext, ← List.append_assoc]
        exact ihOperator _ _ _ _ hfirst hws he
      | between hr hop =>
        rw [hr] at hfirst
        cases hfirst
      | after hr hop =>
        rw [hr] at hfirst
        cases hfirst
    · intro ws Ws e V hfirst hws he
      rw [operatorFirst] at hfirst
      cases ht with
      | before hr =>
        rw [hr] at hfirst
        cases hfirst
      | operand hr he =>
        rw [hr] at hfirst
        cases hfirst
      | @between op _ left level hr hop =>
        rw [hr] at hfirst
        obtain ⟨Ws', hws', hmem⟩ := settle_between_fails hws he hop
        rw [operatorNext, ← List.append_assoc]
        exact (ihOperand _ _ hfirst hws').congr (mem_append_congr hmem _)
      | @after stop op _ level hr hop =>
        rw [hr] at hfirst
        obtain ⟨Ws', V₁, hws', he', hmem⟩ := settle_after_fails hws he hop stop
        rw [operatorNext, ← List.append_assoc]
        exact (ihOperator _ _ _ _ hfirst hws' he').congr (mem_append_congr hmem _)

theorem resolve_fails {ts : List (Tree Rule)} (hfirst : operandFirst (ts.map Tree.rule) = true)
    (hts : ∀ t ∈ ts, (Build.item t).Fails t.rule (flaws t)) :
    (resolve (Build.items ts)).FailsWith (ts.flatMap flaws) :=
  (next_fails ts hts).1 [] [] hfirst .nil

end SafeExpr
