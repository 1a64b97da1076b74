/-
  SafeExpr/Proofs/Evaluation/Relation.lean
  ========================================
  **Evaluations of one tree, related node by node.**

  A property of evaluations is often shown for two of them at once: the same tree under
  other variables, or under other limits.  This module goes through the tree once for all
  such properties.  A relation is `Lawful` if sequencing respects it.  It also carries a
  list of nodes, the grade: what the evaluation may visit, each entry at most once.

  `expr_related` is the main statement: if a lawful relation holds between what the two
  evaluations do at each single node (`NodeRelated`), it holds between the evaluations of
  the whole tree, and the grade is the list of its nodes.
-/
import SafeExpr.Proofs.Evaluation.Outcome
import Mathlib.Data.List.Perm.Subperm

namespace SafeExpr.Eval

open List (Subperm)

/-- A relation between two evaluations of the same kind of result, with a grade. -/
abbrev Relation := ∀ ⦃α : Type⦄, List Expr → EvalM α → EvalM α → Prop

/-- A relation that sequencing respects.  What comes second is only related for values that
    what comes first can return. -/
structure Lawful (R : Relation) : Prop where
  pure {α : Type} (a : α) : R [] (Pure.pure a) (Pure.pure a)
  bind {α β : Type} {l l' : List Expr} {m m' : EvalM α} {k k' : α → EvalM β} :
    R l m m' → (∀ a, Returns m' a → R l' (k a) (k' a)) → R (l ++ l') (m >>= k) (m' >>= k')
  weaken {α : Type} {l l' : List Expr} {m m' : EvalM α} : Subperm l l' → R l m m' → R l' m m'

/-! ### What happens at a single node -/

/-- The errors that a node raises by itself, once its parts have values. -/
inductive OwnError : Expr → EvalError → Prop
  | unary {span op e v err} (h : Operators.unary op v = .error err) :
    OwnError (.unary span op e) (.ofOperator span err)
  | binary {span op l r a b err} (h : Operators.binary op a b = .error err) :
    OwnError (.binary span op l r) (.ofOperator span err)
  | compare {span l links op e a b err} (hlink : (op, e) ∈ links)
    (h : Operators.compare op a b = .error err) :
    OwnError (.compare span l links) (.ofOperator e.span err)
  | set {span es vs err} (h : Value.mkSet vs = .error err) :
    OwnError (.set span es) ⟨.typeMismatch (.value err), span⟩
  | dict {span es vs err} (h : Value.mkDict vs = .error err) :
    OwnError (.dict span es) ⟨.typeMismatch (.value err), span⟩
  | indirect {span callee args} (h : callee.asName = none) :
    OwnError (.call span callee args) ⟨.unsupported .indirectCall, callee.peel.span⟩
  | forbidden {e construct} (h : e.forbidden? = some construct) :
    OwnError e ⟨.unsupported construct, e.span⟩

/-- The node is a call, at this place, of a function that the namespace has. -/
inductive Calls (ns : Namespace) :
    Expr → Span → String → NativeFunction → List (Argument Expr) → Prop
  | mk {span callee args name f} (hname : callee.asName = some name)
    (hf : ns.function? name = some f) : Calls ns (.call span callee args) span name f args

/-- The relation holds between what two evaluations do at a node, its parts aside. -/
structure NodeRelated (R : Relation) (sc sc' : Scope) (depth : Nat) (e : Expr) : Prop where
  enter : R [e] (enter sc depth e) (enter sc' depth e)
  throws (α : Type) (err : EvalError) : OwnError e err → R [] (throw err : EvalM α) (throw err)
  name (span : Span) (n : String) : e = .name span n →
    R [] (resolve sc n span) (resolve sc' n span)
  function (span : Span) (callee : Expr) (args : List (Argument Expr)) (n : String) :
    e = .call span callee args → callee.asName = some n →
      R [] (resolveFunction sc n callee.peel.span) (resolveFunction sc' n callee.peel.span)
  implied (span : Span) (n : String) (f : NativeFunction) (args : List (Argument Expr)) :
    Calls sc'.namespaces e span n f args → ∀ i ∈ f.signature.impliedNames,
      R [] (resolve sc i span) (resolve sc' i span)
  invoke (span : Span) (n : String) (f : NativeFunction) (args : List (Argument Expr))
    (ps : List Value) (ks : List (String × Value)) (is : List Value) :
    Calls sc'.namespaces e span n f args → Returns (arguments sc' (depth + 1) args) (ps, ks) →
      is.length = f.signature.impliedNames.length →
        R [] (invoke span n f ps ks is) (invoke span n f ps ks is)

/-! ### Lists of nodes -/

section Lists

variable {R : Relation} (hR : Lawful R) {sc sc' : Scope} {depth depth' : Nat}
include hR

/-- Sequencing behind a part that visits no node. -/
theorem Lawful.bind_nil {α β : Type} {l : List Expr} {m m' : EvalM α} {k k' : α → EvalM β}
    (hm : R [] m m') (hk : ∀ a, Returns m' a → R l (k a) (k' a)) :
    R l (m >>= k) (m' >>= k') := hR.bind hm hk

/-- Sequencing behind the visit of a node. -/
theorem Lawful.visit {α β : Type} {e : Expr} {l : List Expr} {m m' : EvalM α}
    {k k' : α → EvalM β} (hm : R [e] m m') (hk : ∀ a, Returns m' a → R l (k a) (k' a)) :
    R (e :: l) (m >>= k) (m' >>= k') := hR.bind hm hk

/-- Going on with a function of the value, without visiting another node. -/
theorem Lawful.map {α β : Type} {l : List Expr} {m m' : EvalM α} (f : α → β)
    (hm : R l m m') : R l (m >>= fun a => Pure.pure (f a)) (m' >>= fun a => Pure.pure (f a)) := by
  have h := hR.bind hm fun a _ => hR.pure (f a)
  rwa [List.append_nil] at h

theorem items_related {es : List Expr}
    (hes : ∀ e ∈ es, R e.nodes (expr sc depth e) (expr sc' depth' e)) :
    R (es.flatMap Expr.nodes) (items sc depth es) (items sc' depth' es) := by
  induction es with
  | nil => exact hR.pure []
  | cons e rest ih =>
    have hrest := ih fun x hx => hes x (List.mem_cons_of_mem e hx)
    rw [List.flatMap_cons]
    exact hR.bind (hes e List.mem_cons_self) fun v _ => hR.map (v :: ·) hrest

theorem entries_related {es : List (Expr × Expr)}
    (hes : ∀ p ∈ es, ∀ e ∈ [p.1, p.2], R e.nodes (expr sc depth e) (expr sc' depth' e)) :
    R ((es.flatMap fun (k, v) => [k, v]).flatMap Expr.nodes) (entries sc depth es)
      (entries sc' depth' es) := by
  induction es with
  | nil => exact hR.pure []
  | cons p rest ih =>
    obtain ⟨k, v⟩ := p
    have hrest := ih fun q hq => hes q (List.mem_cons_of_mem (k, v) hq)
    have hpair := hes (k, v) List.mem_cons_self
    simp only [List.flatMap_cons, List.cons_append, List.nil_append]
    refine hR.bind (hpair k (by simp)) fun key _ => ?_
    refine hR.bind (hpair v (by simp)) fun value _ => ?_
    exact hR.map ((key, value) :: ·) hrest

theorem arguments_related {args : List (Argument Expr)}
    (hargs : ∀ a ∈ args, R a.value.nodes (expr sc depth a.value) (expr sc' depth' a.value)) :
    R ((args.map Argument.value).flatMap Expr.nodes) (arguments sc depth args)
      (arguments sc' depth' args) := by
  induction args with
  | nil => exact hR.pure ([], [])
  | cons a rest ih =>
    have hrest := ih fun x hx => hargs x (List.mem_cons_of_mem a hx)
    have ha := hargs a List.mem_cons_self
    simp only [List.map_cons, List.flatMap_cons]
    cases a with
    | positional e =>
      exact hR.bind ha fun v _ => hR.map (fun pk => (v :: pk.1, pk.2)) hrest
    | keyword span n e =>
      exact hR.bind ha fun v _ => hR.map (fun pk => (pk.1, (n, v) :: pk.2)) hrest

/-- The outcome of an operator is related to itself if its errors are. -/
theorem ofOperator_related {α : Type} {span : Span} {r : Except OperatorError α}
    (h : ∀ err, r = .error err → R [] (throw (.ofOperator span err) : EvalM α)
      (throw (.ofOperator span err))) :
    R [] (ofOperator span r) (ofOperator span r) := by
  cases r with
  | ok a => exact hR.pure a
  | error err => exact h err rfl

theorem ofValue_related {α : Type} {span : Span} {r : Except ValueError α}
    (h : ∀ err, r = .error err →
      R [] (throw ⟨.typeMismatch (.value err), span⟩ : EvalM α)
        (throw ⟨.typeMismatch (.value err), span⟩)) :
    R [] (ofValue span r) (ofValue span r) := by
  cases r with
  | ok a => exact hR.pure a
  | error err => exact h err rfl

/-- A comparison stops at the first link that is false, so it may visit fewer nodes than
    there are. -/
theorem links_related {ls : List (CompareOp × Expr)} (l : Value)
    (hls : ∀ p ∈ ls, R p.2.nodes (expr sc depth p.2) (expr sc' depth' p.2))
    (hop : ∀ p ∈ ls, ∀ a b err, Operators.compare p.1 a b = .error err →
      R [] (throw (.ofOperator p.2.span err) : EvalM Bool) (throw (.ofOperator p.2.span err))) :
    R ((ls.map Prod.snd).flatMap Expr.nodes) (links sc depth l ls) (links sc' depth' l ls) := by
  induction ls generalizing l with
  | nil => exact hR.pure (Value.bool true)
  | cons p rest ih =>
    obtain ⟨op, e⟩ := p
    have hrest := fun r => ih r (fun q hq => hls q (List.mem_cons_of_mem (op, e) hq))
      fun q hq => hop q (List.mem_cons_of_mem (op, e) hq)
    simp only [List.map_cons, List.flatMap_cons]
    refine hR.bind (hls (op, e) List.mem_cons_self) fun r _ => ?_
    refine hR.bind_nil (ofOperator_related hR (hop (op, e) List.mem_cons_self l r))
      fun holds _ => ?_
    cases holds with
    | true => exact hrest r
    | false => exact hR.weaken List.nil_subperm (hR.pure (Value.bool false))

theorem resolveAll_related {span : Span} {names : List String}
    (hnames : ∀ n ∈ names, R [] (resolve sc n span) (resolve sc' n span)) :
    R [] (resolveAll sc span names) (resolveAll sc' span names) := by
  induction names with
  | nil => exact hR.pure []
  | cons n rest ih =>
    have hrest := ih fun x hx => hnames x (List.mem_cons_of_mem n hx)
    exact hR.bind_nil (hnames n List.mem_cons_self) fun v _ => hR.map (v :: ·) hrest

end Lists

/-! ### Whole trees -/

/-- The relation holds at the nodes of a tree, wherever evaluation may meet them.  A node
    is never met deeper than the height of the tree allows. -/
def TreeRelated (R : Relation) (sc sc' : Scope) (depth : Nat) (e : Expr) : Prop :=
  ∀ n ∈ e.nodes, ∀ d, d + n.depth ≤ depth + e.depth → NodeRelated R sc sc' d n

theorem TreeRelated.self {R : Relation} {sc sc' : Scope} {depth : Nat} {e : Expr}
    (h : TreeRelated R sc sc' depth e) : NodeRelated R sc sc' depth e :=
  h e e.mem_nodes_self depth (Nat.le_refl _)

theorem TreeRelated.child {R : Relation} {sc sc' : Scope} {depth : Nat} {c e : Expr}
    (h : TreeRelated R sc sc' depth e) (hc : c ∈ e.children) :
    TreeRelated R sc sc' (depth + 1) c := by
  intro n hn d hd
  have := Expr.depth_child_lt hc
  exact h n (Expr.mem_nodes_of_child hc hn) d (by omega)

/-- A node of a forbidden shape is visited and refused. -/
theorem expr_forbidden {sc : Scope} {depth : Nat} {e : Expr} {construct : Construct}
    (h : e.forbidden? = some construct) :
    expr sc depth e = enter sc depth e >>= fun _ => fail e.span (.unsupported construct) := by
  cases e with
  | starred span double value => cases double <;> cases h <;> simp [expr, Expr.forbidden?]
  | assign span op target value => cases op <;> cases h <;> simp [expr, Expr.forbidden?]
  | member | subscript | slice | lambda | comprehension | named | statement =>
    cases h
    simp [expr, Expr.forbidden?]
  | _ => cases h

/-- The call at a node, behind the visit of the node. -/
theorem call_related {R : Relation} (hR : Lawful R) {sc sc' : Scope} {depth depth' : Nat}
    {span : Span} {callee : Expr} {args : List (Argument Expr)} {n : String}
    (h : NodeRelated R sc sc' depth' (.call span callee args)) (hn : callee.asName = some n)
    (hargs : R ((args.map Argument.value).flatMap Expr.nodes) (arguments sc (depth + 1) args)
      (arguments sc' (depth' + 1) args)) :
    R ((args.map Argument.value).flatMap Expr.nodes)
      (resolveFunction sc n callee.peel.span >>= fun f =>
        arguments sc (depth + 1) args >>= fun (ps, ks) => applyFunction sc span n f ps ks)
      (resolveFunction sc' n callee.peel.span >>= fun f =>
        arguments sc' (depth' + 1) args >>= fun (ps, ks) => applyFunction sc' span n f ps ks) := by
  refine hR.bind_nil (h.function span callee args n rfl hn) fun f hf => ?_
  have hcall : Calls sc'.namespaces (.call span callee args) span n f args :=
    .mk hn (function_of_returns_resolveFunction hf)
  have happly : ∀ pk : List Value × List (String × Value),
      Returns (arguments sc' (depth' + 1) args) pk →
        R [] (applyFunction sc span n f pk.1 pk.2) (applyFunction sc' span n f pk.1 pk.2) := by
    rintro ⟨ps, ks⟩ hpk
    refine hR.bind_nil (resolveAll_related hR (h.implied span n f args hcall)) fun is his => ?_
    exact h.invoke span n f args ps ks is hcall hpk (length_of_returns_resolveAll his)
  have hboth := hR.bind hargs happly
  rwa [List.append_nil] at hboth

/-- A node of a permitted shape, whose parts are related. -/
theorem permitted_related {R : Relation} (hR : Lawful R) {sc sc' : Scope} {depth depth' : Nat}
    {e : Expr} (henter : R [e] (enter sc depth e) (enter sc' depth' e))
    (hself : NodeRelated R sc sc' depth' e) (hf : e.forbidden? = none)
    (hchild : ∀ c ∈ e.children,
      R c.nodes (expr sc (depth + 1) c) (expr sc' (depth' + 1) c)) :
    R e.nodes (expr sc depth e) (expr sc' depth' e) := by
  rw [Expr.nodes_eq]
  cases e with
  | literal span v =>
    rw [expr, expr]
    exact hR.visit henter fun _ _ => hR.pure v.toValue
  | name span n =>
    rw [expr, expr]
    exact hR.visit henter fun _ _ => hself.name span n rfl
  | paren span inner =>
    rw [expr, expr]
    refine hR.visit henter fun _ _ => ?_
    rw [Expr.children, List.flatMap_singleton]
    exact hchild inner (by simp [Expr.children])
  | unary span op operand =>
    rw [expr, expr]
    refine hR.visit henter fun _ _ => ?_
    have hx := hchild operand (by simp [Expr.children])
    have hop := hR.bind hx fun v _ => ofOperator_related hR (r := Operators.unary op v)
      fun err herr => hself.throws Value _ (.unary herr)
    simpa [Expr.children] using hop
  | binary span op left right =>
    rw [expr, expr]
    refine hR.visit henter fun _ _ => ?_
    simp only [Expr.children, List.flatMap_cons, List.flatMap_nil]
    refine hR.bind (hchild left (by simp [Expr.children])) fun l _ => ?_
    refine hR.bind (hchild right (by simp [Expr.children])) fun r _ => ?_
    exact ofOperator_related hR fun err herr => hself.throws Value _ (.binary herr)
  | boolOp span op left right =>
    rw [expr, expr]
    refine hR.visit henter fun _ _ => ?_
    have hright := hchild right (by simp [Expr.children])
    simp only [Expr.children, List.flatMap_cons, List.flatMap_nil, List.append_nil]
    refine hR.bind (hchild left (by simp [Expr.children])) fun l _ => ?_
    by_cases hdecides : decides op l = true
    · simp only [if_pos hdecides]
      exact hR.weaken List.nil_subperm (hR.pure l)
    · simp only [if_neg hdecides]
      exact hright
  | compare span left links =>
    rw [expr, expr]
    refine hR.visit henter fun _ _ => ?_
    simp only [Expr.children, List.flatMap_cons]
    refine hR.bind (hchild left (by simp [Expr.children])) fun l _ => ?_
    refine links_related hR l (fun p hp => hchild p.2 ?_) fun p hp a b err herr => ?_
    · exact List.mem_cons_of_mem left (List.mem_map_of_mem hp)
    · exact hself.throws Bool _ (.compare hp herr)
  | conditional span condition yes no =>
    rw [expr, expr]
    refine hR.visit henter fun _ _ => ?_
    have hyes := hchild yes (by simp [Expr.children])
    have hno := hchild no (by simp [Expr.children])
    -- the condition is evaluated before the branch that stands to the left of it
    have horder : Subperm (condition.nodes ++ (yes.nodes ++ no.nodes))
        ((Expr.conditional span condition yes no).children.flatMap Expr.nodes) := by
      simp only [Expr.children, List.flatMap_cons, List.flatMap_nil, List.append_nil]
      exact (List.perm_append_comm_assoc _ _ _).subperm
    refine hR.weaken horder (hR.bind (hchild condition (by simp [Expr.children])) fun c _ => ?_)
    by_cases hc : c.truthy = true
    · simp only [if_pos hc]
      exact hR.weaken (List.sublist_append_left _ _).subperm hyes
    · simp only [if_neg hc]
      exact hR.weaken (List.sublist_append_right _ _).subperm hno
  | call span callee args =>
    have hargs : R ((args.map Argument.value).flatMap Expr.nodes)
        (arguments sc (depth + 1) args) (arguments sc' (depth' + 1) args) :=
      arguments_related hR fun a ha =>
        hchild a.value (List.mem_cons_of_mem callee (List.mem_map_of_mem ha))
    rw [expr, expr]
    refine hR.visit henter fun _ _ => ?_
    simp only [Expr.children, List.flatMap_cons]
    cases hn : callee.asName with
    | none => exact hR.weaken List.nil_subperm (hself.throws Value _ (.indirect hn))
    | some n =>
      exact hR.weaken (List.sublist_append_right _ _).subperm (call_related hR hself hn hargs)
  | list span es =>
    rw [expr, expr]
    exact hR.visit henter fun _ _ => hR.map Value.list (items_related hR hchild)
  | tuple span es =>
    rw [expr, expr]
    exact hR.visit henter fun _ _ => hR.map Value.tuple (items_related hR hchild)
  | set span es =>
    rw [expr, expr]
    refine hR.visit henter fun _ _ => ?_
    have hset := hR.bind (items_related hR hchild) fun vs _ =>
      ofValue_related hR (r := Value.mkSet vs) fun err herr => hself.throws Value _ (.set herr)
    simpa [Expr.children] using hset
  | dict span es =>
    rw [expr, expr]
    refine hR.visit henter fun _ _ => ?_
    have hes : R ((es.flatMap fun (k, v) => [k, v]).flatMap Expr.nodes)
        (entries sc (depth + 1) es) (entries sc' (depth' + 1) es) :=
      entries_related hR fun p hp e he => hchild e (List.mem_flatMap.mpr ⟨p, hp, he⟩)
    have hdict := hR.bind hes fun vs _ =>
      ofValue_related hR (r := Value.mkDict vs) fun err herr => hself.throws Value _ (.dict herr)
    simpa [Expr.children] using hdict
  | starred span double value => cases double <;> cases hf
  | assign span op target value => cases op <;> cases hf
  | member | subscript | slice | lambda | comprehension | named | statement => cases hf

/-- The second evaluation may start at another depth, if that makes no difference to the visits
    of the nodes. -/
theorem expr_related_shifted {R : Relation} (hR : Lawful R) {sc sc' : Scope} (e : Expr) :
    ∀ depth depth', (∀ n ∈ e.nodes, ∀ k, k + n.depth ≤ e.depth →
      R [n] (enter sc (depth + k) n) (enter sc' (depth' + k) n)) →
    TreeRelated R sc sc' depth' e → R e.nodes (expr sc depth e) (expr sc' depth' e) := by
  induction e using Expr.induction with
  | step e ih =>
    intro depth depth' henter h
    have hself := henter e e.mem_nodes_self 0 (by omega)
    have hchild : ∀ c ∈ e.children,
        R c.nodes (expr sc (depth + 1) c) (expr sc' (depth' + 1) c) := by
      intro c hc
      refine ih c hc _ _ (fun n hn k hk => ?_) (h.child hc)
      have := Expr.depth_child_lt hc
      rw [Nat.add_assoc, Nat.add_assoc]
      exact henter n (Expr.mem_nodes_of_child hc hn) (1 + k) (by omega)
    cases hf : e.forbidden? with
    | none => exact permitted_related hR hself h.self hf hchild
    | some construct =>
      rw [Expr.nodes_eq, expr_forbidden hf, expr_forbidden hf]
      refine hR.visit hself fun _ _ => ?_
      exact hR.weaken List.nil_subperm (h.self.throws Value _ (.forbidden hf))

/-- **Relations at the nodes give a relation at the tree.**  The grade of the whole is the
    list of the nodes, so no node is visited twice. -/
theorem expr_related {R : Relation} (hR : Lawful R) {sc sc' : Scope} (e : Expr) (depth : Nat)
    (h : TreeRelated R sc sc' depth e) : R e.nodes (expr sc depth e) (expr sc' depth e) :=
  expr_related_shifted hR e depth depth (fun n hn k hk => (h n hn (depth + k) (by omega)).enter) h

end SafeExpr.Eval
