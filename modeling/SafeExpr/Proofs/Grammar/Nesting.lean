/-
  SafeExpr/Proofs/Grammar/Nesting.lean
  ====================================
  **How deep the brackets of a matched text nest.**

  Some nodes stand in brackets of their own.  A path leads from the root of a tree to one
  of the nodes, from each node to a child of it, and the brackets nest as deep as the path
  that leads through most of these nodes (`Tree.Nests`).  `Tree.brackets` lists the nodes in
  brackets in the order of the text, each with the number of them on the path to it, so the
  two agree on how deep a tree nests.
-/
import Mathlib.Data.List.Chain
import SafeExpr.Grammar.Pattern
import SafeExpr.Grammar.Rule

namespace SafeExpr

/-- The rules that read a text in brackets. -/
def Rule.isBracketed : Rule → Bool
  | .callOp | .subscriptOp | .grouped | .tuple | .generator | .list | .listComp | .dict
  | .dictComp | .set | .setComp => true
  | _ => false

namespace Tree

/-- A property of a tree that follows from that of its children. -/
theorem induction {R : Type} {P : Tree R → Prop}
    (h : ∀ t : Tree R, (∀ u ∈ t.children, P u) → P t) (t : Tree R) : P t := by
  refine h t fun u hu => ?_
  have : sizeOf u < sizeOf t := by
    cases t with
    | leaf r span text => cases hu
    | node r span ts =>
      have := List.sizeOf_lt_of_mem hu
      simp only [children, node.sizeOf_spec] at this ⊢
      omega
  exact induction h u
termination_by sizeOf t

/-- What a node adds to the brackets that it stands in. -/
def ownBracket (t : Tree Rule) : Nat := if t.rule.isBracketed then 1 else 0

/-! ### Paths -/

/-- The path leads from each node to one of its children. -/
def Descends (path : List (Tree Rule)) : Prop := path.IsChain fun t u => u ∈ t.children

/-- On some path that begins at the root, `n` nodes stand in brackets of their own. -/
def Nests (t : Tree Rule) (n : Nat) : Prop :=
  ∃ path, Descends (t :: path) ∧ (t :: path).countP (·.rule.isBracketed) = n

variable {t u : Tree Rule} {n above : Nat}

theorem countP_cons (t : Tree Rule) (path : List (Tree Rule)) :
    (t :: path).countP (·.rule.isBracketed) =
      path.countP (·.rule.isBracketed) + t.ownBracket := List.countP_cons

theorem nests_self (t : Tree Rule) : t.Nests t.ownBracket :=
  ⟨[], .singleton t, by rw [countP_cons, List.countP_nil, Nat.zero_add]⟩

/-- A path may begin one node higher. -/
theorem Nests.of_child (h : u.Nests n) (hu : u ∈ t.children) : t.Nests (n + t.ownBracket) := by
  obtain ⟨path, hpath, rfl⟩ := h
  exact ⟨u :: path, .cons_cons hu hpath, countP_cons t (u :: path)⟩

/-- A path ends with its first node or goes on at a child of it. -/
theorem Nests.cases (h : t.Nests n) :
    n = t.ownBracket ∨ ∃ u ∈ t.children, ∃ m, u.Nests m ∧ n = m + t.ownBracket := by
  obtain ⟨path, hpath, rfl⟩ := h
  rw [countP_cons]
  cases path with
  | nil =>
    rw [List.countP_nil, Nat.zero_add]
    exact Or.inl rfl
  | cons u path =>
    obtain ⟨hu, hrest⟩ := List.isChain_cons_cons.mp hpath
    exact Or.inr ⟨u, hu, _, ⟨path, hrest, rfl⟩, rfl⟩

/-! ### The nodes in brackets -/

mutual

/-- The nodes in brackets of their own, each as its first byte and the number of them on
    the path to it, behind the `above` ones on the path to the tree. -/
def brackets (above : Nat) : Tree Rule → List (Nat × Nat)
  | .leaf r span _ => if r.isBracketed then [(span.start, above + 1)] else []
  | .node r span ts =>
    if r.isBracketed then (span.start, above + 1) :: bracketsAll (above + 1) ts
    else bracketsAll above ts

def bracketsAll (above : Nat) : List (Tree Rule) → List (Nat × Nat)
  | [] => []
  | t :: ts => brackets above t ++ bracketsAll above ts

end

theorem bracketsAll_eq (above : Nat) (ts : List (Tree Rule)) :
    bracketsAll above ts = ts.flatMap (brackets above) := by
  induction ts with
  | nil => rfl
  | cons t ts ih => rw [bracketsAll, ih, List.flatMap_cons]

theorem bracketsAll_append (above : Nat) (ts us : List (Tree Rule)) :
    bracketsAll above (ts ++ us) = bracketsAll above ts ++ bracketsAll above us := by
  simp only [bracketsAll_eq, List.flatMap_append]

/-- The own bracket of a node, and those of its children. -/
theorem mem_brackets_iff {o : Nat × Nat} :
    o ∈ t.brackets above ↔ t.rule.isBracketed = true ∧ o = (t.span.start, above + 1) ∨
      ∃ u ∈ t.children, o ∈ u.brackets (above + t.ownBracket) := by
  cases t with
  | leaf r span text =>
    by_cases hr : r.isBracketed = true <;> simp [brackets, rule, children, Tree.span, hr]
  | node r span ts =>
    by_cases hr : r.isBracketed = true <;>
      simp [brackets, rule, children, Tree.span, ownBracket, hr, bracketsAll_eq]

/-- A node in brackets ends a path. -/
theorem nests_of_mem_brackets (t : Tree Rule) {o : Nat × Nat} :
    ∀ {above : Nat}, o ∈ t.brackets above → ∃ n, t.Nests n ∧ o.2 = above + n := by
  induction t using Tree.induction with
  | h t ih =>
    intro above ho
    rcases mem_brackets_iff.mp ho with ⟨hr, rfl⟩ | ⟨u, hu, ho⟩
    · exact ⟨_, nests_self t, by rw [ownBracket, if_pos hr]⟩
    · obtain ⟨n, hn, heq⟩ := ih u hu ho
      exact ⟨_, hn.of_child hu, by omega⟩

/-- The last node in brackets on a path is listed with the number of them. -/
theorem mem_brackets_of_nests (t : Tree Rule) : ∀ (above : Nat) {n : Nat}, t.Nests n → 0 < n →
    ∃ pos, (pos, above + n) ∈ t.brackets above := by
  induction t using Tree.induction with
  | h t ih =>
    intro above n hn hpos
    have hself : t.ownBracket = n → ∃ pos, (pos, above + n) ∈ t.brackets above := by
      rintro rfl
      unfold ownBracket at hpos ⊢
      split
      · next hr => exact ⟨_, mem_brackets_iff.mpr (Or.inl ⟨hr, rfl⟩)⟩
      · next hr =>
        rw [if_neg hr] at hpos
        cases hpos
    rcases hn.cases with rfl | ⟨u, hu, m, hm, rfl⟩
    · exact hself rfl
    · rcases Nat.eq_zero_or_pos m with rfl | hm0
      · exact hself (Nat.zero_add _).symm
      · obtain ⟨pos, hmem⟩ := ih u hu (above + t.ownBracket) hm hm0
        refine ⟨pos, mem_brackets_iff.mpr (Or.inr ⟨u, hu, ?_⟩)⟩
        rwa [Nat.add_comm m, ← Nat.add_assoc]

end Tree

end SafeExpr
