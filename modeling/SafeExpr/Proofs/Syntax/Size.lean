/-
  SafeExpr/Proofs/Syntax/Size.lean
  ================================
  **How high a tree is, and how many nodes it has.**

  `Within d n` bounds both numbers.  Below a node of a tree, heights are taken together by
  their maximum and numbers of nodes by their sum; the node itself adds one to both.
-/
import SafeExpr.Syntax.Expr

namespace SafeExpr

theorem foldr_max_le_iff {ns : List Nat} {k : Nat} : ns.foldr max 0 ≤ k ↔ ∀ n ∈ ns, n ≤ k := by
  induction ns with
  | nil => simp
  | cons n ns ih => rw [List.foldr_cons, Nat.max_le, ih, List.forall_mem_cons]

theorem foldr_max_mem (ns : List Nat) : ns.foldr max 0 = 0 ∨ ns.foldr max 0 ∈ ns := by
  induction ns with
  | nil => exact Or.inl rfl
  | cons n ns ih =>
    rw [List.foldr_cons]
    rcases Nat.le_total n (ns.foldr max 0) with hle | hle
    · rw [Nat.max_eq_right hle]
      exact ih.imp_right (List.mem_cons_of_mem n)
    · rw [Nat.max_eq_left hle]
      exact Or.inr List.mem_cons_self

namespace Expr

/-- At most `d` levels and at most `n` nodes. -/
structure Within (d n : Nat) (e : Expr) : Prop where
  depth : e.depth ≤ d
  nodes : e.nodes.length ≤ n

/-- At most `d` levels each, and at most `n` nodes together. -/
structure AllWithin (d n : Nat) (es : List Expr) : Prop where
  depth : ∀ e ∈ es, e.depth ≤ d
  nodes : (es.flatMap nodes).length ≤ n

variable {d d' n n' m : Nat} {e : Expr} {es es' : List Expr}

theorem Within.mono (h : e.Within d n) (hd : d ≤ d') (hn : n ≤ n') : e.Within d' n' :=
  ⟨Nat.le_trans h.depth hd, Nat.le_trans h.nodes hn⟩

theorem AllWithin.mono (h : AllWithin d n es) (hd : d ≤ d') (hn : n ≤ n') :
    AllWithin d' n' es :=
  ⟨fun e he => Nat.le_trans (h.depth e he) hd, Nat.le_trans h.nodes hn⟩

theorem allWithin_nil : AllWithin d n [] := ⟨List.forall_mem_nil _, Nat.zero_le n⟩

theorem Within.append (he : e.Within d n) (hes : AllWithin d m es) :
    AllWithin d (n + m) (e :: es) := by
  refine ⟨List.forall_mem_cons.mpr ⟨he.depth, hes.depth⟩, ?_⟩
  rw [List.flatMap_cons, List.length_append]
  exact Nat.add_le_add he.nodes hes.nodes

theorem Within.single (he : e.Within d n) : AllWithin d n [e] :=
  he.append (allWithin_nil (n := 0))

theorem AllWithin.append (hes : AllWithin d n es) (hes' : AllWithin d m es') :
    AllWithin d (n + m) (es ++ es') := by
  refine ⟨List.forall_mem_append.mpr ⟨hes.depth, hes'.depth⟩, ?_⟩
  rw [List.flatMap_append, List.length_append]
  exact Nat.add_le_add hes.nodes hes'.nodes

/-- **A node adds one level and one node to its parts.** -/
theorem within_succ_iff : e.Within (d + 1) (n + 1) ↔ AllWithin d n e.children := by
  have hdepth : e.depth ≤ d + 1 ↔ ∀ c ∈ e.children, c.depth ≤ d := by
    rw [depth_eq, Nat.add_comm 1, Nat.add_le_add_iff_right, foldr_max_le_iff, List.forall_mem_map]
  have hnodes : e.nodes.length ≤ n + 1 ↔ (e.children.flatMap nodes).length ≤ n := by
    rw [nodes_eq, List.length_cons, Nat.add_le_add_iff_right]
  constructor
  · intro h
    exact ⟨hdepth.mp h.depth, hnodes.mp h.nodes⟩
  · intro h
    exact ⟨hdepth.mpr h.depth, hnodes.mpr h.nodes⟩

theorem within_leaf (h : e.children = []) : e.Within (d + 1) (n + 1) := by
  rw [within_succ_iff, h]
  exact allWithin_nil

end Expr

end SafeExpr
