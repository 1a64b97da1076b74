/-
  SafeExpr/Proofs/Depth.lean
  ==========================
  **The limit on nesting only ever cuts.**

  Whatever passes the checks of its brackets and operators is built into a tree within the
  limit, so the check at the end never refuses it.  A larger limit changes the outcome only
  where the smaller one was the reason for an error.
-/
import SafeExpr.Proofs.Parse.Size

namespace SafeExpr

/-- Parsing without the check of the height at the end. -/
def parseUnmeasured (maxDepth : Nat) (source : String) : Except ParseError Expr := do
  checkBrackets maxDepth source.toList
  let tree ← matchSource source.toList
  checkOperators maxDepth 0 tree
  Build.source tree

/-- What the operators allow for is no higher than the limit. -/
theorem depth_le_of_checkOperators {maxDepth : Nat} {tree : Tree Rule} {e : Expr}
    (hsome : 1 ≤ maxDepth) (hoperators : checkOperators maxDepth 0 tree = .ok ())
    (hbuild : Build.source tree = .ok e) : e.depth ≤ maxDepth := by
  rw [checkOperators_ok_iff, Nat.zero_add] at hoperators
  have hwithin := (Build.source_within tree).of_ok hbuild
  exact Nat.le_trans hwithin.depth (Nat.max_le.mpr ⟨hsome, hoperators⟩)

/-- **The check at the end never fires.** -/
theorem parseWith_eq_unmeasured {maxDepth : Nat} (hsome : 1 ≤ maxDepth) (source : String) :
    parseWith maxDepth source = parseUnmeasured maxDepth source := by
  unfold parseWith parseUnmeasured
  refine Except.bind_congr_of_ok fun _ _ => Except.bind_congr_of_ok fun tree _ => ?_
  refine Except.bind_congr_of_ok fun _ hoperators => ?_
  cases hbuild : Build.source tree with
  | error err => rfl
  | ok e =>
    have hdepth := depth_le_of_checkOperators hsome hoperators hbuild
    simp only [bind, Except.bind, if_neg (Nat.not_lt.mpr hdepth)]
    rfl

/-! ### Larger limits -/

/-- The first computation ends with an error about the limit, or as the second one does. -/
def Cuts {α : Type} (m m' : Except ParseError α) : Prop :=
  (∃ err, m = .error err ∧ err.IsDepth) ∨ m = m'

theorem Cuts.bind {α β : Type} {m m' : Except ParseError α} {k k' : α → Except ParseError β}
    (hm : Cuts m m') (hk : ∀ a, Cuts (k a) (k' a)) : Cuts (m >>= k) (m' >>= k') := by
  rcases hm with ⟨err, rfl, herr⟩ | rfl
  · exact Or.inl ⟨err, rfl, herr⟩
  · cases m with
    | error err => exact Or.inr rfl
    | ok a => exact hk a

section Larger

variable {d₁ d₂ : Nat} (hle : d₁ ≤ d₂)
include hle

theorem checkBrackets_cuts (cs : List Char) : Cuts (checkBrackets d₁ cs) (checkBrackets d₂ cs) := by
  cases h : checkBrackets d₁ cs with
  | error err => exact Or.inl ⟨err, rfl, isDepth_of_checkBrackets h⟩
  | ok _ =>
    have := Nat.le_trans (checkBrackets_ok_iff.mp h) hle
    exact Or.inr (checkBrackets_ok_iff.mpr this).symm

theorem checkOperators_cuts (t : Tree Rule) :
    Cuts (checkOperators d₁ 0 t) (checkOperators d₂ 0 t) := by
  cases h : checkOperators d₁ 0 t with
  | error err => exact Or.inl ⟨err, rfl, isDepth_of_checkOperators t h⟩
  | ok _ =>
    have := Nat.le_trans ((checkOperators_ok_iff t).mp h) hle
    exact Or.inr ((checkOperators_ok_iff t).mpr this).symm

theorem parseWith_cuts (source : String) : Cuts (parseWith d₁ source) (parseWith d₂ source) := by
  unfold parseWith
  refine (checkBrackets_cuts hle _).bind fun _ => Cuts.bind (Or.inr rfl) fun tree => ?_
  refine (checkOperators_cuts hle tree).bind fun _ => Cuts.bind (Or.inr rfl) fun e => ?_
  by_cases hdeep : d₁ < e.depth
  · rw [if_pos hdeep]
    exact Or.inl ⟨_, rfl, _, _, rfl⟩
  · rw [if_neg hdeep, if_neg (by omega)]
    exact Or.inr rfl

end Larger

/-- **The limit is sound and only ever cuts.**  Within a limit of at least one level, every
    tree that is built after both checks is within the limit, and the last check never fires.
    Any outcome but an error about the limit is the same within all larger limits. -/
theorem depth_limit_cuts (source : String) :
    (∀ maxDepth, 1 ≤ maxDepth →
      (∀ tree e, checkBrackets maxDepth source.toList = .ok () →
        matchSource source.toList = .ok tree → checkOperators maxDepth 0 tree = .ok () →
          Build.source tree = .ok e → e.depth ≤ maxDepth) ∧
      parseWith maxDepth source = parseUnmeasured maxDepth source) ∧
    ∀ d₁ d₂, d₁ ≤ d₂ → (∀ err, parseWith d₁ source = .error err → ¬ err.IsDepth) →
      parseWith d₂ source = parseWith d₁ source := by
  refine ⟨fun maxDepth hsome => ⟨?_, parseWith_eq_unmeasured hsome source⟩, ?_⟩
  · intro tree e _ _ hoperators hbuild
    exact depth_le_of_checkOperators hsome hoperators hbuild
  · intro d₁ d₂ hle h
    rcases parseWith_cuts hle source with ⟨err, herr, hdepth⟩ | heq
    · exact absurd hdepth (h err herr)
    · exact heq.symm

/-- An operator in a condition makes four levels, here and within larger limits. -/
theorem depth_limit_cuts_conditional :
    ∃ e, parseWith 4 "x if -y else z" = .ok e ∧ e.depth ≤ 4 ∧ parseWith 256 "x if -y else z" = .ok e := by
  have hparse : (parseWith 4 "x if -y else z").toOption.isSome = true := by decide +kernel
  obtain ⟨e, he⟩ := Option.isSome_iff_exists.mp hparse
  rw [Except.toOption_eq_some_iff] at he
  obtain ⟨hbrackets, tree, hmatch, hlevels, hbuild, -⟩ := parseWith_ok_iff.mp he
  rw [← Nat.zero_add (levels tree), ← checkOperators_ok_iff] at hlevels
  obtain ⟨hsound, hlarger⟩ := depth_limit_cuts "x if -y else z"
  have hdepth := (hsound 4 (by decide)).1 tree e (checkBrackets_ok_iff.mpr hbrackets) hmatch
    hlevels hbuild
  refine ⟨e, he, hdepth, ?_⟩
  have hnot : ∀ err, parseWith 4 "x if -y else z" = .error err → ¬ err.IsDepth := by
    intro err herr
    rw [he] at herr
    cases herr
  have hsame := hlarger 4 256 (by decide) hnot
  exact hsame.trans he

end SafeExpr
