/-
  SafeExpr/Proofs/Evaluation/Constant.lean
  ========================================
  **Trees of literals and displays.**

  A tree without names and calls passes all checks, whatever the namespace.  `Spells e v`
  says more of such a tree: it is no higher than the text of `v` nests, and wherever the
  limits allow for its height its value is `v`.  A display spells the container of what its
  items spell; sets and dicts do so if they are rebuilt as they were.
-/
import Mathlib.Data.List.Forall2
import SafeExpr.Proofs.Evaluation.Budget
import SafeExpr.Proofs.Value.Spelling

namespace SafeExpr

/-! ### Without names and calls -/

namespace Expr

/-- Is the node a literal, a sign or a display? -/
def isPlain : Expr → Bool
  | literal .. | unary .. | list .. | tuple .. | set .. | dict .. => true
  | _ => false

/-- All nodes are literals, signs or displays. -/
def Plain (e : Expr) : Prop := ∀ n ∈ e.nodes, n.isPlain = true

theorem plain_of_children {e : Expr} (hself : e.isPlain = true) (h : ∀ c ∈ e.children, Plain c) :
    e.Plain := by
  intro n hn
  rw [nodes_eq, List.mem_cons, List.mem_flatMap] at hn
  rcases hn with rfl | ⟨c, hc, hn⟩
  · exact hself
  · exact h c hc n hn

theorem Plain.child {c e : Expr} (h : e.Plain) (hc : c ∈ e.children) : c.Plain := by
  intro n hn
  exact h n (mem_nodes_of_child hc hn)

theorem forbidden_of_isPlain {e : Expr} (h : e.isPlain = true) : e.forbidden? = none := by
  cases e with
  | literal | unary | list | tuple | set | dict => rfl
  | _ => cases h

theorem Plain.validate {e : Expr} (h : e.Plain) : e.validate = .ok () := by
  induction e using Expr.induction with
  | step e ih =>
    have hself := h e e.mem_nodes_self
    rw [Expr.validate, fold_eq]
    apply validateNode_eq_ok_iff.mpr
    refine ⟨forbidden_of_isPlain hself, ?_, ?_⟩
    · rintro span callee args rfl
      cases hself
    · intro c hc
      exact ih c hc (h.child hc)

theorem Plain.checkCalls {e : Expr} (h : e.Plain) (ns : Namespace) : e.checkCalls ns = .ok () := by
  apply firstFailure_eq_ok_iff.mpr
  intro check hcheck
  obtain ⟨n, hn, rfl⟩ := List.mem_map.mp hcheck
  have hplain := h n hn
  cases n with
  | literal | unary | list | tuple | set | dict => rfl
  | _ => cases hplain

end Expr

/-! ### Containers rebuilt -/

namespace Value

theorem addElement_of_differs {made : List Value} {v : Value}
    (h : ∀ x ∈ made, x.eq v = false) : addElement made v = made ++ [v] := by
  have hnot : ¬ v.memberOf made = true := by
    rw [memberOf, List.any_eq_true]
    rintro ⟨x, hx, heq⟩
    rw [h x hx] at heq
    cases heq
  rw [addElement, if_neg hnot]

theorem putEntry_of_differs {made : List (Value × Value)} {k v : Value}
    (h : ∀ e ∈ made, e.1.eq k = false) : putEntry made k v = made ++ [(k, v)] := by
  induction made with
  | nil => rfl
  | cons e rest ih =>
    obtain ⟨hfirst, hrest⟩ := List.forall_mem_cons.mp h
    rw [putEntry, if_neg (by rw [hfirst]; decide), ih hrest]
    rfl

theorem mkSet_go (made : List Value) {vs : List Value} (hhash : ∀ v ∈ vs, v.isHashable = true)
    (hdiffer : (made ++ vs).Pairwise fun v w => v.eq w = false) :
    mkSet.go made vs = .ok (.set (made ++ vs)) := by
  induction vs generalizing made with
  | nil => rw [mkSet.go, List.append_nil]
  | cons v rest ih =>
    obtain ⟨hfirst, hrest⟩ := List.forall_mem_cons.mp hhash
    have hnew : ∀ x ∈ made, x.eq v = false := fun x hx =>
      (List.pairwise_append.mp hdiffer).2.2 x hx v List.mem_cons_self
    have hadd : made ++ v :: rest = made ++ [v] ++ rest := by simp
    rw [hadd] at hdiffer ⊢
    rw [mkSet.go, requireHashable, if_pos hfirst]
    dsimp only
    rw [addElement_of_differs hnew, ih _ hrest hdiffer]

theorem mkDict_go (made : List (Value × Value)) {es : List (Value × Value)}
    (hhash : ∀ e ∈ es, e.1.isHashable = true)
    (hdiffer : (made ++ es).Pairwise fun e e' => e.1.eq e'.1 = false) :
    mkDict.go made es = .ok (.dict (made ++ es)) := by
  induction es generalizing made with
  | nil => rw [mkDict.go, List.append_nil]
  | cons e rest ih =>
    obtain ⟨hfirst, hrest⟩ := List.forall_mem_cons.mp hhash
    have hnew : ∀ x ∈ made, x.1.eq e.1 = false := fun x hx =>
      (List.pairwise_append.mp hdiffer).2.2 x hx e List.mem_cons_self
    have hadd : made ++ e :: rest = made ++ [e] ++ rest := by simp
    rw [hadd] at hdiffer ⊢
    rw [mkDict.go, requireHashable, if_pos hfirst]
    dsimp only
    rw [putEntry_of_differs hnew, ih _ hrest hdiffer]

/-- **A set of unequal elements is rebuilt as it is**, in the same order. -/
theorem mkSet_eq_ok {vs : List Value} (hhash : ∀ v ∈ vs, v.isHashable = true)
    (hdiffer : vs.Pairwise fun v w => v.eq w = false) : mkSet vs = .ok (.set vs) :=
  mkSet_go [] hhash hdiffer

/-- **A dict of unequal keys is rebuilt as it is**, in the same order. -/
theorem mkDict_eq_ok {es : List (Value × Value)} (hhash : ∀ e ∈ es, e.1.isHashable = true)
    (hdiffer : es.Pairwise fun e e' => e.1.eq e'.1 = false) : mkDict es = .ok (.dict es) :=
  mkDict_go [] hhash hdiffer

end Value

/-! ### Values given from every trace on -/

namespace Eval

/-- The evaluation gives the value, whatever was visited before. -/
def Gives {α : Type} (m : EvalM α) (a : α) : Prop := ∀ t, ∃ t', outcome m t = (.ok a, t')

theorem gives_pure {α : Type} (a : α) : Gives (pure a) a := fun t => ⟨t, rfl⟩

theorem gives_bind {α β : Type} {m : EvalM α} {k : α → EvalM β} {a : α} {b : β}
    (hm : Gives m a) (hk : Gives (k a) b) : Gives (m >>= k) b := by
  intro t
  obtain ⟨u, hu⟩ := hm t
  obtain ⟨t', ht'⟩ := hk u
  exact ⟨t', by rw [outcome_bind_ok hu, ht']⟩

theorem gives_enter {sc : Scope} {depth : Nat} (e : Expr) (hsteps : sc.options.maxSteps = none)
    (hdepth : depth < sc.options.maxDepth) : Gives (enter sc depth e) () := by
  obtain ⟨ns, vars, o⟩ := sc
  intro t
  have hallows : Allows o depth t := ⟨hdepth, by simp [show o.maxSteps = none from hsteps]⟩
  exact ⟨_, outcome_enter_of_allows hallows⟩

/-- The tree is plain, and evaluates to the value wherever there is room for its height. -/
structure Spells (e : Expr) (v : Value) : Prop where
  height : e.depth ≤ v.levels
  plain : e.Plain
  gives (sc : Scope) (depth : Nat) : sc.options.maxSteps = none →
    depth + e.depth ≤ sc.options.maxDepth → Gives (expr sc depth e) v

/-- The parts of a node have room for their height if the node has. -/
theorem room_of_child {c e : Expr} {depth limit : Nat} (hc : c ∈ e.children)
    (h : depth + e.depth ≤ limit) : depth + 1 + c.depth ≤ limit := by
  have := Expr.depth_child_lt hc
  omega

theorem gives_node {sc : Scope} {depth : Nat} {e : Expr} {k : Unit → EvalM Value} {v : Value}
    (hsteps : sc.options.maxSteps = none) (hroom : depth + e.depth ≤ sc.options.maxDepth)
    (hk : Gives (k ()) v) : Gives (enter sc depth e >>= k) v := by
  have := depth_pos e
  exact gives_bind (gives_enter e hsteps (by omega)) hk

/-! ### Literals -/

theorem spells_literal (span : Span) (l : Literal) (h : 1 ≤ l.toValue.levels) :
    Spells (.literal span l) l.toValue where
  height := h
  plain := Expr.plain_of_children rfl (List.forall_mem_nil _)
  gives sc depth hsteps hroom := by
    rw [expr]
    exact gives_node hsteps hroom (gives_pure l.toValue)

/-- A minus sign in front of a number spells its opposite. -/
theorem spells_negative (span span' : Span) {n m : Int64} (hneg : m.toInt < 0)
    (hopposite : n.toInt = -m.toInt) :
    Spells (.unary span .neg (.literal span' (.int n))) (.int m) where
  height := by
    rw [Value.levels_negative hneg]
    exact Nat.le_refl 2
  plain := by
    apply Expr.plain_of_children rfl
    intro c hc
    rw [Expr.children, List.mem_singleton] at hc
    subst hc
    exact Expr.plain_of_children rfl (List.forall_mem_nil _)
  gives sc depth hsteps hroom := by
    have hoperand : Gives (expr sc (depth + 1) (.literal span' (.int n))) (.int n) := by
      rw [expr]
      exact gives_node hsteps (room_of_child List.mem_cons_self hroom) (gives_pure _)
    have hop : Operators.unary .neg (.int n) = .ok (.int m) := by
      change Operators.exact (-n.toInt) = _
      rw [hopposite, Int.neg_neg, Operators.exact, fitInt64_toInt]
    rw [expr]
    refine gives_node hsteps hroom (gives_bind hoperand ?_)
    rw [hop]
    exact gives_pure _

/-! ### Displays -/

theorem height_of_spells {es : List Expr} {vs : List Value} (h : List.Forall₂ Spells es vs) :
    (es.map Expr.depth).foldr max 0 ≤ Value.levelsAll vs := by
  induction h with
  | nil => exact Nat.le_refl 0
  | cons hfirst hrest ih =>
    have := hfirst.height
    rw [List.map_cons, List.foldr_cons, Value.levelsAll]
    omega

theorem plain_of_spells {es : List Expr} {vs : List Value} (h : List.Forall₂ Spells es vs) :
    ∀ e ∈ es, e.Plain := by
  induction h with
  | nil => nofun
  | cons hfirst hrest ih => exact List.forall_mem_cons.mpr ⟨hfirst.plain, ih⟩

theorem gives_items {sc : Scope} {depth : Nat} {es : List Expr} {vs : List Value}
    (h : List.Forall₂ Spells es vs) (hsteps : sc.options.maxSteps = none)
    (hroom : ∀ e ∈ es, depth + e.depth ≤ sc.options.maxDepth) : Gives (items sc depth es) vs := by
  induction h with
  | nil => exact gives_pure []
  | cons hfirst hrest ih =>
    obtain ⟨hroom₁, hroom₂⟩ := List.forall_mem_cons.mp hroom
    exact gives_bind (hfirst.gives sc depth hsteps hroom₁) (gives_bind (ih hroom₂) (gives_pure _))

/-- A display spells what is made of the values of its items. -/
theorem spells_display {es : List Expr} {vs : List Value} (h : List.Forall₂ Spells es vs)
    {e : Expr} {v : Value} {make : List Value → EvalM Value} (hplain : e.isPlain = true)
    (hchildren : e.children = es) (hlevels : v.levels = 1 + Value.levelsAll vs)
    (hexpr : ∀ sc depth, expr sc depth e =
      enter sc depth e >>= fun _ => items sc (depth + 1) es >>= make)
    (hmake : Gives (make vs) v) : Spells e v where
  height := by
    have := height_of_spells h
    rw [Expr.depth_eq, hchildren, hlevels]
    exact Nat.add_le_add_left this 1
  plain := Expr.plain_of_children hplain (hchildren ▸ plain_of_spells h)
  gives sc depth hsteps hroom := by
    have hitems := gives_items h hsteps fun c hc => room_of_child (hchildren ▸ hc) hroom
    rw [hexpr]
    exact gives_node hsteps hroom (gives_bind hitems hmake)

section Items

variable {es : List Expr} {vs : List Value} (h : List.Forall₂ Spells es vs) (span : Span)
include h

theorem spells_list : Spells (.list span es) (.list vs) :=
  spells_display h rfl rfl (Value.levels_list vs) (fun _ _ => by rw [expr]) (gives_pure _)

theorem spells_tuple : Spells (.tuple span es) (.tuple vs) :=
  spells_display h rfl rfl (Value.levels_tuple vs) (fun _ _ => by rw [expr]) (gives_pure _)

theorem spells_set (hset : Value.mkSet vs = .ok (.set vs)) :
    Spells (.set span es) (.set vs) := by
  refine spells_display h rfl rfl (Value.levels_set vs) (fun _ _ => by rw [expr]) ?_
  rw [hset]
  exact gives_pure _

end Items

/-- The key spells a key, and the value a value. -/
def SpellsEntry (e : Expr × Expr) (entry : Value × Value) : Prop :=
  Spells e.1 entry.1 ∧ Spells e.2 entry.2

theorem gives_entries {sc : Scope} {depth : Nat} {es : List (Expr × Expr)}
    {vs : List (Value × Value)} (h : List.Forall₂ SpellsEntry es vs)
    (hsteps : sc.options.maxSteps = none)
    (hroom : ∀ e ∈ es.flatMap fun (k, v) => [k, v], depth + e.depth ≤ sc.options.maxDepth) :
    Gives (entries sc depth es) vs := by
  induction h with
  | nil => exact gives_pure []
  | cons hfirst hrest ih =>
    obtain ⟨hkey, hvalue⟩ := hfirst
    simp only [List.flatMap_cons, List.cons_append, List.nil_append, List.forall_mem_cons] at hroom
    obtain ⟨hroomKey, hroomValue, hroom⟩ := hroom
    exact gives_bind (hkey.gives sc depth hsteps hroomKey) (gives_bind (hvalue.gives sc depth hsteps hroomValue)
      (gives_bind (ih hroom) (gives_pure _)))

theorem height_of_spellsEntry {es : List (Expr × Expr)} {vs : List (Value × Value)}
    (h : List.Forall₂ SpellsEntry es vs) :
    ((es.flatMap fun (k, v) => [k, v]).map Expr.depth).foldr max 0 ≤ Value.levelsEntries vs := by
  induction h with
  | nil => exact Nat.le_refl 0
  | @cons e entry _ _ hfirst hrest ih =>
    have hkey := hfirst.1.height
    have hvalue := hfirst.2.height
    rw [List.flatMap_cons, List.cons_append, List.singleton_append, List.map_cons, List.map_cons,
      List.foldr_cons, List.foldr_cons, Value.levelsEntries]
    omega

theorem plain_of_spellsEntry {es : List (Expr × Expr)} {vs : List (Value × Value)}
    (h : List.Forall₂ SpellsEntry es vs) : ∀ e ∈ es.flatMap fun (k, v) => [k, v], e.Plain := by
  induction h with
  | nil => nofun
  | cons hfirst hrest ih =>
    simp only [List.flatMap_cons, List.cons_append, List.nil_append, List.forall_mem_cons]
    exact ⟨hfirst.1.plain, hfirst.2.plain, ih⟩

theorem spells_dict {es : List (Expr × Expr)} {vs : List (Value × Value)}
    (h : List.Forall₂ SpellsEntry es vs) (span : Span)
    (hdict : Value.mkDict vs = .ok (.dict vs)) : Spells (.dict span es) (.dict vs) where
  height := by
    have := height_of_spellsEntry h
    rw [Expr.depth_eq, Value.levels_dict]
    exact Nat.add_le_add_left this 1
  plain := Expr.plain_of_children rfl (plain_of_spellsEntry h)
  gives sc depth hsteps hroom := by
    have hentries := gives_entries h hsteps fun e he =>
      room_of_child (e := .dict span es) he hroom
    rw [expr]
    refine gives_node hsteps hroom (gives_bind hentries ?_)
    rw [hdict]
    exact gives_pure _

end Eval

end SafeExpr
