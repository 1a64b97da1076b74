/-
  SafeExpr/Proofs/Parse/Size.lean
  ===============================
  **How large the built trees are.**

  The height and the nodes of a tree are bounded by what is counted on the matched nodes:
  `levels`, which is compared with the limit before the tree is built, and `weight`, one for
  each matched node from which a node of the tree is made.

  An operator adds one level above its operands wherever resolution puts it, so a flat
  expression is at most as high as its parts and as many levels more as it has operators.
-/
import Mathlib.Data.List.Forall2
import SafeExpr.Proofs.Parse.Limit

namespace SafeExpr

open Except (Ensures)
open SafeExpr.Expr (Within AllWithin allWithin_nil within_succ_iff within_leaf)

/-! ### Operators -/

/-- What the operator encloses is bounded. -/
def Between.Within (d n : Nat) : Between → Prop
  | .conditional condition => condition.Ensures (Expr.Within d n)
  | _ => True

def After.Within (d n : Nat) : After → Prop
  | .call args => args.Ensures fun as => AllWithin d n (as.map Argument.value)
  | .subscript index => index.Ensures (Expr.Within d n)
  | .member _ => True

variable {d j k m n p : Nat}

theorem Before.node_within {op : Before} {start : Nat} {e : Expr} (he : e.Within d n) :
    (op.node start e).Within (d + 1) (n + 1) := by
  cases op with
  | unary op => exact within_succ_iff.mpr he.single
  | lambda params => exact within_succ_iff.mpr he.single

/-- A node above two trees of different heights. -/
theorem within_of_two {e l r : Expr} (hl : l.Within (j + d) m) (hr : r.Within (k + d) n)
    (hchildren : e.children = [l, r]) : e.Within (j + k + 1 + d) (m + n + 1) := by
  have hl' : l.Within (j + k + d) m := hl.mono (by omega) (Nat.le_refl m)
  have hr' : r.Within (j + k + d) n := hr.mono (by omega) (Nat.le_refl n)
  rw [Nat.add_right_comm _ 1, within_succ_iff, hchildren]
  exact hl'.append hr'.single

theorem Between.node_within {op : Between} {l r : Expr} (hl : l.Within (j + d) m)
    (hr : r.Within (k + d) n) (hop : op.Within d p) :
    (op.node l r).Ensures (Expr.Within (j + k + 1 + d) (m + n + p + 1)) := by
  have htwo : ∀ e : Expr, e.children = [l, r] → e.Within (j + k + 1 + d) (m + n + p + 1) :=
    fun e he => (within_of_two hl hr he).mono (Nat.le_refl _) (by omega)
  cases op with
  | binary op => exact htwo _ rfl
  | boolOp op => exact htwo _ rfl
  | named => exact htwo _ rfl
  | compare op =>
    simp only [Between.node]
    split
    · next s first links =>
      -- the longer chain has the children of the chain and one more
      have hlong : ((Expr.compare s first links).children ++ [r]) =
          (Expr.compare (s.combine r.span) first (links ++ [(op, r)])).children := by
        simp [Expr.children]
      have hl' : (Expr.compare s first links).Within (j + k + d + 1) (m + 1) :=
        hl.mono (by omega) (by omega)
      have hchain := within_succ_iff.mp hl'
      have hr' : r.Within (j + k + d) n := hr.mono (by omega) (Nat.le_refl n)
      have hall := hchain.append hr'.single
      rw [hlong] at hall
      exact (within_succ_iff.mpr hall).mono (by omega) (by omega)
    · exact htwo _ rfl
  | conditional condition =>
    refine Except.Satisfies.map hop fun c hc => ?_
    have hl' : l.Within (j + k + d) m := hl.mono (by omega) (Nat.le_refl m)
    have hc' : c.Within (j + k + d) p := hc.mono (by omega) (Nat.le_refl p)
    have hr' : r.Within (j + k + d) n := hr.mono (by omega) (Nat.le_refl n)
    have hall := hl'.append (hc'.append hr'.single)
    rw [Nat.add_right_comm _ 1, within_succ_iff]
    exact hall.mono (Nat.le_refl _) (by omega)

theorem After.node_within {op : After} {stop : Nat} {e : Expr} (he : e.Within (k + d) n)
    (hop : op.Within d p) : (op.node e stop).Ensures (Expr.Within (k + 1 + d) (n + p + 1)) := by
  rw [Nat.add_right_comm]
  cases op with
  | call args =>
    refine Except.Satisfies.map hop fun as has => ?_
    exact within_succ_iff.mpr (he.append (has.mono (by omega) (Nat.le_refl p)))
  | subscript index =>
    refine Except.Satisfies.map hop fun i hi => ?_
    exact within_succ_iff.mpr (he.append (hi.mono (by omega) (Nat.le_refl p)).single)
  | member attr =>
    exact (within_succ_iff.mpr he.single).mono (Nat.le_refl _) (by omega)

/-! ### Resolution -/

/-- The waiting operator adds at most `k` levels above `d`, and at most `n` nodes. -/
def Waiting.Within (d k n : Nat) : Waiting → Prop
  | .before _ _ => 1 ≤ k ∧ 1 ≤ n
  | .between left op => ∃ j m p, left.Ensures (Expr.Within (j + d) m) ∧ op.Within d p ∧
      j + 1 ≤ k ∧ m + p + 1 ≤ n

inductive WaitingWithin (d : Nat) : List Waiting → Nat → Nat → Prop
  | nil : WaitingWithin d [] 0 0
  | cons {w : Waiting} {ws : List Waiting} {j k m n : Nat} (hw : w.Within d j m)
    (hws : WaitingWithin d ws k n) : WaitingWithin d (w :: ws) (j + k) (m + n)

/-- The operand and the operators that wait for it make at most `k` levels above `d`, and at
    most `n` nodes. -/
def Pending (d k n : Nat) (ws : List Waiting) (e : Built Expr) : Prop :=
  ∃ j m k' n', e.Ensures (Expr.Within (j + d) m) ∧ WaitingWithin d ws k' n' ∧ j + k' ≤ k ∧ m + n' ≤ n

theorem Waiting.take_within {w : Waiting} {e : Built Expr} (hw : w.Within d k n)
    (he : e.Ensures (Expr.Within (j + d) m)) :
    (w.take e).Ensures (Expr.Within (j + k + d) (m + n)) := by
  cases w with
  | before start op =>
    refine Except.Satisfies.map he fun x hx => ?_
    exact (Before.node_within hx).mono (by have := hw.1; omega) (by have := hw.2; omega)
  | between left op =>
    obtain ⟨j', m', p, hleft, hop, hk, hn⟩ := hw
    refine Except.Satisfies.bind hleft fun l hl => Except.Satisfies.bind he fun r hr => ?_
    exact (Between.node_within hl hr hop).imp fun x hx => hx.mono (by omega) (by omega)

theorem settle_pending {l : Level} {ws : List Waiting} {e : Built Expr}
    (h : Pending d k n ws e) : Pending d k n (settle l ws e).1 (settle l ws e).2 := by
  induction ws generalizing e with
  | nil => exact h
  | cons w ws ih =>
    unfold settle
    split
    · obtain ⟨j, m, k', n', he, hwaits, hk, hn⟩ := h
      cases hwaits with | cons hw hws =>
      refine ih ⟨_, _, _, _, Waiting.take_within hw he, hws, ?_, ?_⟩
      · omega
      · omega
    · exact h

theorem finish_within {ws : List Waiting} {e : Built Expr} (h : Pending d k n ws e) :
    (finish ws e).Ensures (Expr.Within (k + d) n) := by
  induction ws generalizing e with
  | nil =>
    obtain ⟨j, m, k', n', he, -, hk, hn⟩ := h
    exact he.imp fun x hx => hx.mono (by omega) (by omega)
  | cons w ws ih =>
    obtain ⟨j, m, k', n', he, hwaits, hk, hn⟩ := h
    cases hwaits with | cons hw hws =>
    refine ih ⟨_, _, _, _, Waiting.take_within hw he, hws, ?_, ?_⟩
    · omega
    · omega

/-- The item's own tree or what its operator encloses has at most `d` levels; it adds at
    most `n` nodes. -/
def Item.Within (d n : Nat) : Item → Prop
  | .before _ _ => 1 ≤ n
  | .operand e => e.Ensures (Expr.Within d n)
  | .between op => ∃ p, op.Within d p ∧ p + 1 ≤ n
  | .after _ op => ∃ p, op.Within d p ∧ p + 1 ≤ n

def Item.isOperator : Item → Bool
  | .operand _ => false
  | _ => true

theorem next_within {items : List Item} {ns : List Nat}
    (h : List.Forall₂ (fun i n => i.Within d n) items ns) :
    (∀ ws k n, WaitingWithin d ws k n → (operandNext ws items).Ensures
        (Expr.Within (k + items.countP Item.isOperator + d) (n + ns.foldr (· + ·) 0))) ∧
      ∀ ws e k n, Pending d k n ws e → (operatorNext ws e items).Ensures
        (Expr.Within (k + items.countP Item.isOperator + d) (n + ns.foldr (· + ·) 0)) := by
  induction h with
  | nil => exact ⟨fun _ _ _ _ => trivial, fun ws e k n h => finish_within h⟩
  | @cons item c items ns hitem _ ih =>
    obtain ⟨ihOperand, ihOperator⟩ := ih
    rw [List.foldr_cons]
    constructor
    · intro ws k n hws
      cases item with
      | before start op =>
        rw [List.countP_cons_of_pos rfl]
        have hw : (Waiting.before start op).Within d 1 c := ⟨Nat.le_refl 1, hitem⟩
        refine (ihOperand _ _ _ (.cons hw hws)).imp ?_
        exact fun x hx => hx.mono (by omega) (by omega)
      | operand e =>
        rw [List.countP_cons_of_neg Bool.false_ne_true]
        have hpending : Pending d k (c + n) ws e :=
          ⟨0, c, k, n, hitem.imp fun x hx => hx.mono (by omega) (Nat.le_refl c), hws, by omega,
            Nat.le_refl _⟩
        exact (ihOperator ws e _ _ hpending).imp fun x hx => hx.mono (by omega) (by omega)
      | between op => trivial
      | after stop op => trivial
    · intro ws e k n h
      cases item with
      | before start op => trivial
      | operand e => trivial
      | between op =>
        rw [List.countP_cons_of_pos rfl]
        obtain ⟨p, hop, hp⟩ := hitem
        obtain ⟨j, m, k', n', he, hws, hk, hn⟩ := settle_pending (l := op.level) h
        have hw : (Waiting.between (settle op.level ws e).2 op).Within d (j + 1) (m + c) :=
          ⟨j, m, p, he, hop, Nat.le_refl _, by omega⟩
        refine (ihOperand _ _ _ (.cons hw hws)).imp ?_
        exact fun x hx => hx.mono (by omega) (by omega)
      | after stop op =>
        rw [List.countP_cons_of_pos rfl]
        obtain ⟨p, hop, hp⟩ := hitem
        obtain ⟨j, m, k', n', he, hws, hk, hn⟩ := settle_pending (l := After.level) h
        have hpending : Pending d (k + 1) (n + c) (settle After.level ws e).1
            (do op.node (← (settle After.level ws e).2) stop) :=
          ⟨j + 1, m + p + 1, k', n',
            Except.Satisfies.bind he fun x hx => After.node_within hx hop, hws, by omega, by omega⟩
        refine (ihOperator _ _ _ _ hpending).imp ?_
        exact fun x hx => hx.mono (by omega) (by omega)

/-- **A flat expression adds a level for each operator to the levels of its parts.** -/
theorem resolve_within {items : List Item} {ns : List Nat}
    (h : List.Forall₂ (fun i n => i.Within d n) items ns) :
    (resolve items).Ensures
      (Expr.Within (items.countP Item.isOperator + d) (ns.foldr (· + ·) 0)) := by
  have := (next_within h).1 [] 0 0 .nil
  rwa [Nat.zero_add, Nat.zero_add] at this

/-! ### Nodes that make nodes -/

/-- The nodes of the tree that are made from a matched node itself. -/
def ownNodes : Rule → Nat
  | .statement | .assignment => 1
  | .before _ | .between _ | .callOp | .subscriptOp | .memberOp => 1
  | .slice | .callGenerator | .starred | .doubleStarred => 1
  | .grouped | .tuple | .generator | .list | .listComp => 1
  | .dict | .dictComp | .set | .setComp => 1
  | .float | .integer | .string | .boolean | .none | .ident => 1
  | _ => 0

mutual

/-- The nodes of the tree that are made from a matched node and those below it. -/
def weight : Tree Rule → Nat
  | .leaf r _ _ => ownNodes r
  | .node r _ ts => ownNodes r + weightAll ts

def weightAll : List (Tree Rule) → Nat
  | [] => 0
  | t :: rest => weight t + weightAll rest

end

section Nodes

variable {r : Rule} {s : Span} {t : Tree Rule} {ts : List (Tree Rule)} {es es' : List Expr}

/-- What is made of the first node, and of the others. -/
theorem allWithin_cons (hes : AllWithin (levels t) (weight t) es)
    (hes' : AllWithin (levelsAll ts) (weightAll ts) es') :
    AllWithin (levelsAll (t :: ts)) (weightAll (t :: ts)) (es ++ es') := by
  rw [levelsAll, weightAll]
  exact (hes.mono (Nat.le_max_left _ _) (Nat.le_refl _)).append
    (hes'.mono (Nat.le_max_right _ _) (Nat.le_refl _))

theorem allWithin_node (h : AllWithin (levelsAll ts) (weightAll ts) es) :
    AllWithin (levels (.node r s ts)) (weight (.node r s ts)) es := by
  rw [levels, weight]
  exact h.mono (Nat.le_add_left _ _) (Nat.le_add_left _ _)

/-- A matched node that accounts for the node made from it. -/
theorem within_node {e : Expr} (hlevels : ownLevels r ts = 1) (hnodes : ownNodes r = 1)
    (h : AllWithin (levelsAll ts) (weightAll ts) e.children) :
    e.Within (levels (.node r s ts)) (weight (.node r s ts)) := by
  rw [levels, weight, hlevels, hnodes, Nat.add_comm 1, Nat.add_comm 1]
  exact within_succ_iff.mpr h

end Nodes

namespace Build

/-- What is built of a node is as high as the levels and as large as the weight of the node. -/
def TreeWithin (t : Tree Rule) : Prop := (expr t).Ensures (Expr.Within (levels t) (weight t))

theorem literal_within (r : Rule) (s : Span) (text : List Char) (d : Nat) :
    (literal r s text).Ensures (Expr.Within (d + 1) (ownNodes r)) := by
  unfold literal
  dsimp only
  split
  · split
    · exact within_leaf rfl
    · trivial
  · split
    · exact within_leaf rfl
    · trivial
  · cases readQuoted s.start text with
    | error err => trivial
    | ok str => exact within_leaf rfl
  · exact within_leaf rfl
  · exact within_leaf rfl
  · exact within_leaf rfl
  · trivial

/-- A display adds one level and one node to its parts. -/
theorem display_within {α : Type} {m : Built α} {make : α → Expr} {d k : Nat}
    (parts : α → List Expr) (hm : m.Ensures fun x => AllWithin d k (parts x))
    (hmake : ∀ x, (make x).children = parts x) :
    (m.map make).Ensures (Expr.Within (d + 1) (1 + k)) := by
  refine Except.Satisfies.map hm fun x hx => ?_
  rw [Nat.add_comm 1, within_succ_iff, hmake]
  exact hx

section Parts

variable {n : Nat} (hbelow : ∀ t : Tree Rule, sizeOf t < n → TreeWithin t)
include hbelow

theorem elements_within (ts : List (Tree Rule)) :
    sizeOf ts ≤ n → (elements ts).Ensures (AllWithin (levelsAll ts) (weightAll ts)) := by
  induction ts with
  | nil =>
    intro _
    rw [elements]
    exact allWithin_nil
  | cons t ts ih =>
    intro hn
    have hrest := ih (Nat.le_trans (by simp) hn)
    unfold elements
    split
    · next heq => cases heq
    · next s value rest heq =>
      cases heq
      have hvalue := hbelow value (by simp at hn; omega)
      refine Except.Satisfies.bind hvalue fun e he => Except.Satisfies.bind hrest fun es hes => ?_
      exact allWithin_cons
        (within_node rfl rfl (allWithin_cons he.single allWithin_nil)).single hes
    · next heq =>
      cases heq
      have ht := hbelow t (by simp at hn; omega)
      exact Except.Satisfies.bind ht fun e he => Except.Satisfies.bind hrest fun es hes =>
        allWithin_cons he.single hes

theorem entries_within (ts : List (Tree Rule)) :
    sizeOf ts ≤ n → (entries ts).Ensures fun es =>
      AllWithin (levelsAll ts) (weightAll ts) (es.flatMap fun (k, v) => [k, v]) := by
  induction ts with
  | nil =>
    intro _
    rw [entries]
    exact allWithin_nil
  | cons t ts ih =>
    intro hn
    have hrest := ih (Nat.le_trans (by simp) hn)
    unfold entries
    split
    · next heq => cases heq
    · next s key value rest heq =>
      cases heq
      have hkey := hbelow key (by simp at hn; omega)
      have hvalue := hbelow value (by simp at hn; omega)
      refine Except.Satisfies.bind hkey fun k hk => Except.Satisfies.bind hvalue fun v hv => ?_
      refine Except.Satisfies.bind hrest fun es hes => ?_
      exact allWithin_cons
        (allWithin_node (allWithin_cons hk.single (allWithin_cons hv.single allWithin_nil))) hes
    · trivial

theorem conditions_within (ts : List (Tree Rule)) :
    sizeOf ts ≤ n → (conditions ts).Ensures (AllWithin (levelsAll ts) (weightAll ts)) := by
  induction ts with
  | nil =>
    intro _
    rw [conditions]
    exact allWithin_nil
  | cons t ts ih =>
    intro hn
    have hrest := ih (Nat.le_trans (by simp) hn)
    unfold conditions
    split
    · next heq => cases heq
    · next s word test rest heq =>
      cases heq
      have htest := hbelow test (by simp at hn; omega)
      refine Except.Satisfies.bind htest fun e he => Except.Satisfies.bind hrest fun es hes => ?_
      have hword : AllWithin (levels word) (weight word) [] := allWithin_nil
      exact allWithin_cons
        (allWithin_node (allWithin_cons hword (allWithin_cons he.single allWithin_nil))) hes
    · trivial

theorem clauses_within (ts : List (Tree Rule)) :
    sizeOf ts ≤ n → (clauses ts).Ensures fun cs =>
      AllWithin (levelsAll ts) (weightAll ts) (cs.flatMap Expr.clauseParts) := by
  induction ts with
  | nil =>
    intro _
    rw [clauses]
    exact allWithin_nil
  | cons t ts ih =>
    intro hn
    have hrest := ih (Nat.le_trans (by simp) hn)
    unfold clauses
    split
    · next heq => cases heq
    · next s word targets word' source tests rest heq =>
      cases heq
      have hsource := hbelow source (by simp at hn; omega)
      have htests := conditions_within hbelow tests (by simp at hn; omega)
      refine Except.Satisfies.bind hsource fun i hi => ?_
      refine Except.Satisfies.bind htests fun cs hcs => Except.Satisfies.bind hrest fun es hes => ?_
      have hnothing : ∀ u : Tree Rule, AllWithin (levels u) (weight u) [] :=
        fun _ => allWithin_nil
      exact allWithin_cons (allWithin_node (allWithin_cons (hnothing word)
        (allWithin_cons (hnothing targets) (allWithin_cons (hnothing word')
          (allWithin_cons hi.single hcs))))) hes
    · trivial

theorem comprehension_within (kind : ComprehensionKind) (s : Span) (ts : List (Tree Rule))
    (hn : sizeOf ts ≤ n) :
    (comprehension kind s ts).Ensures (Expr.Within (levelsAll ts + 1) (weightAll ts + 1)) := by
  unfold comprehension
  split
  · next s' key value rest =>
    have hkey := hbelow key (by simp at hn; omega)
    have hvalue := hbelow value (by simp at hn; omega)
    have hclauses := clauses_within hbelow rest (by simp at hn; omega)
    refine Except.Satisfies.bind hkey fun k hk => Except.Satisfies.bind hvalue fun v hv => ?_
    refine Except.Satisfies.bind hclauses fun cs hcs => within_succ_iff.mpr ?_
    exact allWithin_cons
      (allWithin_node (allWithin_cons hk.single (allWithin_cons hv.single allWithin_nil))) hcs
  · next head rest _ =>
    have hhead := hbelow head (by simp at hn; omega)
    have hclauses := clauses_within hbelow rest (by simp at hn; omega)
    refine Except.Satisfies.bind hhead fun e he => ?_
    refine Except.Satisfies.bind hclauses fun cs hcs => within_succ_iff.mpr ?_
    exact allWithin_cons he.single hcs
  · trivial

theorem arguments_within (ts : List (Tree Rule)) :
    ∀ seen, sizeOf ts ≤ n → (arguments seen ts).Ensures fun as =>
      AllWithin (levelsAll ts) (weightAll ts) (as.map Argument.value) := by
  induction ts with
  | nil =>
    intro seen _
    rw [arguments]
    exact allWithin_nil
  | cons t ts ih =>
    intro seen hn
    have hrest := fun seen => ih seen (Nat.le_trans (by simp) hn)
    unfold arguments
    split
    · next heq => cases heq
    · next s parts rest heq =>
      cases heq
      have hinner := comprehension_within hbelow .generator s parts (by simp at hn; omega)
      refine Except.Satisfies.bind hinner fun e he =>
        Except.Satisfies.bind (hrest seen) fun as has => ?_
      exact allWithin_cons (within_node rfl rfl (within_succ_iff.mp he)).single has
    · next s r s' name value rest heq =>
      cases heq
      have hvalue := hbelow value (by simp at hn; omega)
      refine Except.Satisfies.bind hvalue fun e he =>
        Except.Satisfies.bind (hrest true) fun as has => ?_
      have hname : AllWithin (levels (.leaf r s' name)) (weight (.leaf r s' name)) [] :=
        allWithin_nil
      exact allWithin_cons
        (allWithin_node (allWithin_cons hname (allWithin_cons he.single allWithin_nil))) has
    · next s value rest heq =>
      cases heq
      have hvalue := hbelow value (by simp at hn; omega)
      refine Except.Satisfies.bind hvalue fun e he =>
        Except.Satisfies.bind (hrest true) fun as has => ?_
      exact allWithin_cons
        (within_node rfl rfl (allWithin_cons he.single allWithin_nil)).single has
    · next s value rest heq =>
      cases heq
      have hvalue := hbelow value (by simp at hn; omega)
      refine Except.Satisfies.bind hvalue fun e he =>
        Except.Satisfies.bind (hrest seen) fun as has => ?_
      exact allWithin_cons
        (within_node rfl rfl (allWithin_cons he.single allWithin_nil)).single has
    · next value rest _ _ _ _ heq =>
      cases heq
      have ht := hbelow t (by simp at hn; omega)
      split
      · trivial
      · exact Except.Satisfies.bind ht fun e he =>
          Except.Satisfies.bind (hrest seen) fun as has => allWithin_cons he.single has

theorem bounds_within (s : Span) (d : Nat) (ts : List (Tree Rule)) :
    ∀ (lower upper step : Option Expr) (j k m : Nat), sizeOf ts ≤ n → levelsAll ts ≤ d →
      AllWithin d j lower.toList → AllWithin d k upper.toList → AllWithin d m step.toList →
      (bounds s lower upper step ts).Ensures
        (Expr.Within (d + 1) (j + k + m + weightAll ts + 1)) := by
  induction ts with
  | nil =>
    intro lower upper step j k m _ _ hlower hupper hstep
    rw [bounds]
    exact within_succ_iff.mpr ((hlower.append hupper).append hstep)
  | cons t ts ih =>
    intro lower upper step j k m hn hd hlower hupper hstep
    rw [levelsAll, Nat.max_le] at hd
    have hrest := fun lower upper step j k m =>
      ih lower upper step j k m (Nat.le_trans (by simp) hn) hd.2
    have hbound : ∀ {r : Rule} {s' : Span} {u : Tree Rule}, t = .node r s' [u] →
        (expr u).Ensures fun e => AllWithin d (weight t) [e] := by
      rintro r s' u rfl
      refine (hbelow u (by simp at hn; omega)).imp fun e he => ?_
      exact (allWithin_node (allWithin_cons he.single allWithin_nil)).mono hd.1 (Nat.le_refl _)
    rw [weightAll]
    unfold bounds
    split
    · next heq => cases heq
    · next heq =>
      cases heq
      refine Except.Satisfies.bind (hbound rfl) fun e he => ?_
      exact (hrest _ _ _ _ _ _ he hupper hstep).imp fun x hx => hx.mono (Nat.le_refl _) (by omega)
    · next heq =>
      cases heq
      refine Except.Satisfies.bind (hbound rfl) fun e he => ?_
      exact (hrest _ _ _ _ _ _ hlower he hstep).imp fun x hx => hx.mono (Nat.le_refl _) (by omega)
    · next heq =>
      cases heq
      refine Except.Satisfies.bind (hbound rfl) fun e he => ?_
      exact (hrest _ _ _ _ _ _ hlower hupper he).imp fun x hx => hx.mono (Nat.le_refl _) (by omega)
    · trivial

theorem item_within (t : Tree Rule) (hn : sizeOf t ≤ n) {d : Nat} (hd : levels t ≤ d) :
    (item t).Within (d + 1) (weight t) := by
  have hinner : ∀ {r : Rule} {s : Span} {ts : List (Tree Rule)}, t = .node r s ts →
      sizeOf ts < n ∧ levelsAll ts ≤ d := by
    rintro r s ts rfl
    rw [levels] at hd
    simp only [Tree.node.sizeOf_spec] at hn
    exact ⟨by omega, by omega⟩
  have helements : ∀ {r : Rule} {s : Span} {parts : List (Tree Rule)}, t = .node r s parts →
      (elements parts).Ensures (AllWithin d (weightAll parts)) := by
    intro r s parts ht
    obtain ⟨hsize, hle⟩ := hinner ht
    exact (elements_within hbelow parts (Nat.le_of_lt hsize)).imp fun es hes =>
      hes.mono hle (Nat.le_refl _)
  have hcomprehension : ∀ {r : Rule} {s : Span} {parts : List (Tree Rule)}
      (kind : ComprehensionKind), t = .node r s parts →
        (comprehension kind s parts).Ensures (Expr.Within (d + 1) (1 + weightAll parts)) := by
    intro r s parts kind ht
    obtain ⟨hsize, hle⟩ := hinner ht
    refine (comprehension_within hbelow kind s parts (Nat.le_of_lt hsize)).imp fun x hx => ?_
    exact hx.mono (by omega) (by omega)
  have hbetween : ∀ {c : Built Expr} (op : Infix) {k : Nat}, c.Ensures (Expr.Within (d + 1) k) →
      (betweenOf c op).Within (d + 1) k := by
    intro c op k hc
    cases op <;> first | exact hc | trivial
  unfold item
  split
  · exact Nat.le_refl 1
  · exact Nat.le_add_right 1 _
  · exact ⟨0, hbetween _ trivial, Nat.le_refl 1⟩
  · next op s word condition word' =>
    obtain ⟨hsize, hle⟩ := hinner rfl
    have hcondition := hbelow condition (by simp at hsize; omega)
    have hmem : levels condition ≤ levelsAll [word, condition, word'] :=
      levels_le_of_mem (by simp)
    refine ⟨weight condition, hbetween _ ?_, ?_⟩
    · exact hcondition.imp fun x hx => hx.mono (by omega) (Nat.le_refl _)
    · simp only [weight, weightAll, ownNodes]
      omega
  · exact ⟨0, hbetween _ trivial, Nat.le_add_right 1 _⟩
  · next s args =>
    obtain ⟨hsize, hle⟩ := hinner rfl
    refine ⟨weightAll args, ?_, ?_⟩
    · refine (arguments_within hbelow args false (Nat.le_of_lt hsize)).imp fun as has => ?_
      exact has.mono (by omega) (Nat.le_refl _)
    · simp only [weight, ownNodes]
      omega
  · next s s' parts =>
    obtain ⟨hsize, hle⟩ := hinner rfl
    have hparts := bounds_within hbelow s' (levelsAll parts) parts none none none 0 0 0
      (by simp at hsize; omega) (Nat.le_refl _) allWithin_nil allWithin_nil allWithin_nil
    simp only [levelsAll, levels, ownLevels] at hle
    refine ⟨weightAll parts + 1, hparts.imp fun x hx => hx.mono (by omega) (by omega), ?_⟩
    simp only [weight, weightAll, ownNodes]
    omega
  · next s index _ =>
    obtain ⟨hsize, hle⟩ := hinner rfl
    have hindex := hbelow index (by simp at hsize; omega)
    have hmem : levels index ≤ levelsAll [index] := levels_le_of_mem (by simp)
    refine ⟨weight index, hindex.imp fun x hx => hx.mono (by omega) (Nat.le_refl _), ?_⟩
    simp only [weight, weightAll, ownNodes]
    omega
  · exact ⟨0, trivial, Nat.le_add_right 1 _⟩
  · exact literal_within _ _ _ d
  · next s inner =>
    obtain ⟨hsize, hle⟩ := hinner rfl
    have he := hbelow inner (by simp at hsize; omega)
    have hmem : levels inner ≤ levelsAll [inner] := levels_le_of_mem (by simp)
    refine display_within (fun x => [x]) (he.imp fun x hx => ?_) fun _ => rfl
    exact (hx.mono (Nat.le_trans hmem hle) (by simp [weightAll])).single
  · exact display_within id (helements rfl) fun _ => rfl
  · exact display_within id (helements rfl) fun _ => rfl
  · exact display_within id (helements rfl) fun _ => rfl
  · next s parts =>
    obtain ⟨hsize, hle⟩ := hinner rfl
    refine display_within (List.flatMap fun (k, v) => [k, v]) ?_ fun _ => rfl
    exact (entries_within hbelow parts (Nat.le_of_lt hsize)).imp fun es hes =>
      hes.mono hle (Nat.le_refl _)
  · exact hcomprehension _ rfl
  · exact hcomprehension _ rfl
  · exact hcomprehension _ rfl
  · exact hcomprehension _ rfl
  · trivial

theorem items_within {d : Nat} (ts : List (Tree Rule)) :
    sizeOf ts ≤ n → levelsAll ts ≤ d →
      List.Forall₂ (fun i k => Item.Within (d + 1) k i) (items ts) (ts.map weight) := by
  induction ts with
  | nil =>
    intro _ _
    rw [items]
    exact .nil
  | cons t ts ih =>
    intro hn hd
    rw [levelsAll, Nat.max_le] at hd
    rw [items, List.map_cons]
    exact .cons (item_within hbelow t (by simp at hn; omega) hd.1)
      (ih (Nat.le_trans (by simp) hn) hd.2)

end Parts

theorem sum_map_weight (ts : List (Tree Rule)) :
    (ts.map weight).foldr (· + ·) 0 = weightAll ts := by
  induction ts with
  | nil => rfl
  | cons t ts ih => rw [List.map_cons, List.foldr_cons, ih, weightAll]

/-- Only the nodes that are counted as operators become operators. -/
theorem isOperator_item (t : Tree Rule) (h : (item t).isOperator = true) :
    t.rule.isOperator = true := by
  unfold item at h
  split at h <;> first | rfl | cases h

theorem countP_items_le (ts : List (Tree Rule)) :
    (items ts).countP Item.isOperator ≤ (ts.filter (·.rule.isOperator)).length := by
  rw [← List.countP_eq_length_filter]
  induction ts with
  | nil =>
    rw [items]
    exact Nat.le_refl 0
  | cons t ts ih =>
    have ht := isOperator_item t
    rw [items, List.countP_cons, List.countP_cons]
    split
    · next hitem =>
      rw [if_pos (ht hitem)]
      exact Nat.succ_le_succ ih
    · exact Nat.le_trans ih (Nat.le_add_right _ _)

/-- **What is built of an expression is no higher than its levels.** -/
theorem expr_within (t : Tree Rule) : TreeWithin t := by
  induction hn : sizeOf t using Nat.strongRecOn generalizing t with
  | ind n ih =>
    subst hn
    unfold TreeWithin expr
    split
    · next s parts =>
      have hitems := items_within (n := sizeOf (Tree.node Rule.expression s parts))
        (fun t ht => ih _ ht t rfl) parts (by simp) (Nat.le_refl (levelsAll parts))
      refine (resolve_within hitems).imp fun e he => he.mono ?_ ?_
      · have := countP_items_le parts
        simp only [levels, ownLevels]
        omega
      · rw [sum_map_weight, weight]
        exact Nat.le_add_left _ _
    · trivial

/-- **What is built of a whole text is no higher than its levels**, or a single node. -/
theorem source_within (t : Tree Rule) :
    (Build.source t).Ensures (Expr.Within (max 1 (levels t)) (weight t)) := by
  have hfirst : ∀ {s : Span} {t : Tree Rule} {more : List (Tree Rule)} {e : Expr},
      e.Within (levels t) (weight t) →
        e.Within (max 1 (levels (.node .source s (t :: more))))
          (weight (.node .source s (t :: more))) := by
    intro s t more e he
    have hmem : levels t ≤ levelsAll (t :: more) := levels_le_of_mem List.mem_cons_self
    refine he.mono ?_ ?_
    · simp only [levels]
      omega
    · simp only [weight, weightAll]
      omega
  unfold Build.source
  split
  · refine (within_leaf (d := 0) (n := 0) rfl).mono (Nat.le_max_left _ _) ?_
    simp only [weight, weightAll, ownNodes]
    omega
  · next s span target r s' op value more =>
    refine Except.Satisfies.bind (expr_within target) fun x hx => ?_
    refine Except.Ensures.then fun op' => ?_
    refine Except.Satisfies.bind (expr_within value) fun v hv => hfirst (within_node rfl rfl ?_)
    have hop : AllWithin (levels (.leaf r s' op)) (weight (.leaf r s' op)) [] := allWithin_nil
    exact allWithin_cons hx.single (allWithin_cons hop (allWithin_cons hv.single allWithin_nil))
  · next s e more _ _ => exact (expr_within e).imp fun x hx => hfirst hx
  · trivial

end Build

end SafeExpr
