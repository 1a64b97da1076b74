/-
  SafeExpr/Proofs/Parse/Limit.lean
  ================================
  **What the limit on nesting is compared with.**

  Each of the two checks comes down to one number: the brackets that are open at once
  (`bracketDepth`) and the levels that the matched nodes may add (`levels`).  A check passes
  if the limit is not below its number, and fails with an error about the limit otherwise.
-/
import SafeExpr.Parse.Basic
import SafeExpr.Proofs.Except
import SafeExpr.Proofs.Syntax.Size

namespace SafeExpr

/-- The error is about the limit on nesting. -/
def ParseError.IsDepth (err : ParseError) : Prop :=
  ∃ depth limit, err.kind = .maxDepthExceeded depth limit

/-! ### Brackets -/

/-- The most brackets that are open at once. -/
def bracketDepth (cs : List Char) : Nat :=
  ((openings .code 0 0 cs).map Prod.snd).foldr max 0

theorem checkBrackets_ok_iff {maxDepth : Nat} {cs : List Char} :
    checkBrackets maxDepth cs = .ok () ↔ bracketDepth cs ≤ maxDepth := by
  rw [bracketDepth, foldr_max_le_iff, List.forall_mem_map, checkBrackets]
  constructor
  · intro h o ho
    split at h
    · cases h
    · next hnone =>
      have hnot := List.find?_eq_none.mp hnone o ho
      simp only [decide_eq_true_eq] at hnot
      exact Nat.le_of_not_lt hnot
  · intro h
    split
    · next pos depth hfind =>
      have hover := List.find?_some hfind
      have hle := h _ (List.mem_of_find?_eq_some hfind)
      simp only [decide_eq_true_eq] at hover
      exact absurd hover (Nat.not_lt.mpr hle)
    · rfl

theorem checkBrackets_error_iff {maxDepth : Nat} {cs : List Char} :
    (∃ err, checkBrackets maxDepth cs = .error err) ↔ maxDepth < bracketDepth cs := by
  rw [← Nat.not_le, ← checkBrackets_ok_iff]
  cases checkBrackets maxDepth cs with
  | error err => simp
  | ok u => simp

theorem isDepth_of_checkBrackets {maxDepth : Nat} {cs : List Char} {err : ParseError}
    (h : checkBrackets maxDepth cs = .error err) : err.IsDepth := by
  unfold checkBrackets at h
  split at h
  · cases h
    exact ⟨_, _, rfl⟩
  · cases h

/-! ### Nodes -/

mutual

/-- The most levels that nodes below one another add. -/
def levels : Tree Rule → Nat
  | .leaf r _ _ => ownLevels r []
  | .node r _ ts => ownLevels r ts + levelsAll ts

def levelsAll : List (Tree Rule) → Nat
  | [] => 0
  | t :: rest => max (levels t) (levelsAll rest)

end

theorem levels_eq (t : Tree Rule) :
    levels t = ownLevels t.rule t.children + levelsAll t.children := by
  cases t <;> rfl

theorem levels_le_of_mem {t : Tree Rule} {ts : List (Tree Rule)} (h : t ∈ ts) :
    levels t ≤ levelsAll ts := by
  induction ts with
  | nil => cases h
  | cons u rest ih =>
    rw [levelsAll]
    rcases List.mem_cons.mp h with rfl | h
    · exact Nat.le_max_left _ _
    · exact Nat.le_trans (ih h) (Nat.le_max_right _ _)

theorem checkLevel_ok_iff {maxDepth depth : Nat} {span : Span} :
    checkLevel maxDepth depth span = .ok () ↔ depth ≤ maxDepth := by
  unfold checkLevel
  split
  · next h =>
    constructor
    · intro h'
      cases h'
    · intro hle
      exact absurd h (Nat.not_lt.mpr hle)
  · next h => exact ⟨fun _ => Nat.le_of_not_lt h, fun _ => rfl⟩

theorem isDepth_of_checkLevel {maxDepth depth : Nat} {span : Span} {err : ParseError}
    (h : checkLevel maxDepth depth span = .error err) : err.IsDepth := by
  unfold checkLevel at h
  split at h
  · cases h
    exact ⟨_, _, rfl⟩
  · cases h

mutual

theorem checkOperators_ok_iff {maxDepth above : Nat} (t : Tree Rule) :
    checkOperators maxDepth above t = .ok () ↔ above + levels t ≤ maxDepth := by
  cases t with
  | leaf r span text => rw [checkOperators, checkLevel_ok_iff, levels]
  | node r span ts =>
    rw [checkOperators, levels]
    by_cases hself : above + ownLevels r ts ≤ maxDepth
    · rw [checkLevel_ok_iff.mpr hself, ← Nat.add_assoc]
      exact checkOperatorsAll_ok_iff hself ts
    · unfold checkLevel
      rw [if_pos (Nat.lt_of_not_le hself)]
      constructor
      · intro h
        cases h
      · intro h
        omega

theorem checkOperatorsAll_ok_iff {maxDepth above : Nat} (habove : above ≤ maxDepth)
    (ts : List (Tree Rule)) :
    checkOperatorsAll maxDepth above ts = .ok () ↔ above + levelsAll ts ≤ maxDepth := by
  cases ts with
  | nil =>
    rw [checkOperatorsAll, levelsAll]
    exact ⟨fun _ => habove, fun _ => rfl⟩
  | cons t rest =>
    have ht : checkOperators maxDepth above t = .ok () ↔ above + levels t ≤ maxDepth :=
      checkOperators_ok_iff t
    have hrest := checkOperatorsAll_ok_iff habove rest
    rw [checkOperatorsAll, levelsAll, ← Nat.add_max_add_left, Nat.max_le, ← ht, ← hrest]
    cases checkOperators maxDepth above t with
    | error err =>
      constructor
      · intro h
        cases h
      · rintro ⟨h, -⟩
        cases h
    | ok u => exact ⟨fun h => ⟨rfl, h⟩, fun h => h.2⟩

end

mutual

theorem isDepth_of_checkOperators {maxDepth above : Nat} {err : ParseError} (t : Tree Rule)
    (h : checkOperators maxDepth above t = .error err) : err.IsDepth := by
  cases t with
  | leaf r span text =>
    rw [checkOperators] at h
    exact isDepth_of_checkLevel h
  | node r span ts =>
    rw [checkOperators, Except.bind_eq_error_iff] at h
    rcases h with h | ⟨-, -, h⟩
    · exact isDepth_of_checkLevel h
    · exact isDepth_of_checkOperatorsAll ts h

theorem isDepth_of_checkOperatorsAll {maxDepth above : Nat} {err : ParseError}
    (ts : List (Tree Rule)) (h : checkOperatorsAll maxDepth above ts = .error err) :
    err.IsDepth := by
  cases ts with
  | nil =>
    rw [checkOperatorsAll] at h
    cases h
  | cons t rest =>
    rw [checkOperatorsAll, Except.bind_eq_error_iff] at h
    rcases h with h | ⟨-, -, h⟩
    · exact isDepth_of_checkOperators t h
    · exact isDepth_of_checkOperatorsAll rest h

end

/-! ### All stages -/

/-- A text is parsed within every limit that none of the three numbers exceeds. -/
theorem parseWith_ok_iff {maxDepth : Nat} {source : String} {e : Expr} :
    parseWith maxDepth source = .ok e ↔
      bracketDepth source.toList ≤ maxDepth ∧ ∃ tree, matchSource source.toList = .ok tree ∧
        levels tree ≤ maxDepth ∧ Build.source tree = .ok e ∧ e.depth ≤ maxDepth := by
  have hlast : ∀ e', (do
      if maxDepth < e'.depth then throw ⟨.maxDepthExceeded e'.depth maxDepth, e'.span⟩
      return e' : Except ParseError Expr) = .ok e ↔ e' = e ∧ e.depth ≤ maxDepth := by
    intro e'
    by_cases hdeep : maxDepth < e'.depth
    · rw [if_pos hdeep]
      constructor
      · intro h
        cases h
      · rintro ⟨rfl, hle⟩
        exact absurd hdeep (Nat.not_lt.mpr hle)
    · rw [if_neg hdeep]
      constructor
      · intro h
        cases h
        exact ⟨rfl, Nat.le_of_not_lt hdeep⟩
      · rintro ⟨rfl, -⟩
        rfl
  simp only [parseWith, Except.bind_eq_ok_iff]
  constructor
  · rintro ⟨_, hbrackets, tree, hmatch, _, hlevels, e', hbuild, h⟩
    obtain ⟨rfl, hdepth⟩ := (hlast e').mp h
    rw [checkOperators_ok_iff, Nat.zero_add] at hlevels
    exact ⟨checkBrackets_ok_iff.mp hbrackets, tree, hmatch, hlevels, hbuild, hdepth⟩
  · rintro ⟨hbrackets, tree, hmatch, hlevels, hbuild, hdepth⟩
    rw [← Nat.zero_add (levels tree), ← checkOperators_ok_iff] at hlevels
    exact ⟨(), checkBrackets_ok_iff.mpr hbrackets, tree, hmatch, (), hlevels, e, hbuild,
      (hlast e).mpr ⟨rfl, hdepth⟩⟩

end SafeExpr
