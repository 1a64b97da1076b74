/-
  SafeExpr/Proofs/Grammar/Source.lean
  ===================================
  **Reading a whole source text.**

  The rules of the expression grammar have ranks, so the fuel of `readSource` suffices for
  every text.  What is read is then what the grammar says (`readSource_eq`), and a text is
  refused for its characters alone, never for the fuel.
-/
import SafeExpr.Grammar.Expression
import SafeExpr.Parse.Basic
import SafeExpr.Proofs.Grammar.Fuel

namespace SafeExpr.Grammar

open Outcome (matched failed)

/-! ### Ranks of the rules -/

/-- The end of the input, and the free text of a statement, may be no text at all. -/
def eatsRule : Rule → Bool
  | .endOfInput | .statementBody => false
  | _ => true

/-- Tokens first, then what begins with a token or a bracket, then what begins with an
    expression. -/
def rankRule : Rule → Nat
  | .endOfInput | .statementBody | .statementKeyword | .assignOp | .memberName | .float
  | .integer | .string | .boolean | .none | .ident | .keyword _ => 50
  | .expression => 100
  | .sliceLower | .sliceUpper | .sliceStep | .callGenerator | .dictEntry | .assignment => 110
  | .slice => 120
  | .source => 130
  | _ => 60

/-- Skipping leaves no more than there was. -/
theorem skip_length_le (n : Nat) : ∀ pos (cs : List Char), cs.length ≤ n →
    (skipLayout pos cs).rest.length ≤ cs.length ∧
      (skipComment pos cs).rest.length ≤ cs.length := by
  induction n with
  | zero =>
    intro pos cs hcs
    rw [List.length_eq_zero_iff.mp (Nat.le_zero.mp hcs)]
    exact ⟨by simp [skipLayout], by simp [skipComment]⟩
  | succ n ih =>
    intro pos cs hcs
    constructor
    · have hskip : ∀ k rest, rest.length + k ≤ n →
          (skipLayout (pos + (k + 1)) rest).rest.length ≤ rest.length + (k + 1) := by
        intro k rest hrest
        have := (ih (pos + (k + 1)) rest (by omega)).1
        omega
      unfold skipLayout
      split
      · next rest => exact hskip 0 rest (Nat.le_of_succ_le_succ hcs)
      · next rest => exact hskip 0 rest (Nat.le_of_succ_le_succ hcs)
      · next rest => exact hskip 0 rest (Nat.le_of_succ_le_succ hcs)
      · next rest => exact hskip 0 rest (Nat.le_of_succ_le_succ hcs)
      · next rest => exact hskip 1 rest (Nat.le_of_succ_le_succ hcs)
      · next rest => exact hskip 2 rest (Nat.le_of_succ_le_succ hcs)
      · next rest =>
        have := (ih (pos + 1) rest (Nat.le_of_succ_le_succ hcs)).2
        rw [List.length_cons]
        omega
      · exact Nat.le_refl _
    · unfold skipComment
      split
      · exact Nat.le_refl _
      · next rest =>
        simp only [List.length_cons] at hcs ⊢
        have := (ih (pos + 1) rest (by omega)).1
        omega
      · next c rest _ =>
        simp only [List.length_cons] at hcs ⊢
        have := (ih (pos + c.utf8Size) rest (by omega)).2
        omega

def expressionRanking : Ranking expression where
  eats := eatsRule
  rank := rankRule
  eats_pattern r h := by
    cases r with
    | before op => cases op <;> decide
    | between op => cases op <;> decide
    | keyword k => cases k <;> decide
    | _ => first | decide | cases h
  rank_pattern r := by
    cases r with
    | before op => cases op <;> decide +kernel
    | between op => cases op <;> decide +kernel
    | keyword k => cases k <;> decide +kernel
    | _ => decide +kernel
  fits_pattern r := by
    cases r with
    | before op => cases op <;> decide
    | between op => cases op <;> decide
    | keyword k => cases k <;> decide
    | _ => decide
  skip_le c := (skip_length_le _ c.pos c.rest (Nat.le_refl _)).1

/-! ### Reading -/

/-- **The fuel suffices for every text.** -/
theorem readSource_ne_outOfFuel (cs : List Char) : (readSource cs).1 ≠ .outOfFuel := by
  apply run_ne_outOfFuel expressionRanking
  · rfl
  · change unitsPerChar * cs.length + 130 ≤ 256 * (cs.length + 2)
    unfold unitsPerChar
    omega

theorem reads_readSource (cs : List Char) :
    Reads expression false (.one (.rule .source)) (.start cs) (readSource cs).1 :=
  reads_of_run (readSource_ne_outOfFuel cs)

/-- **What is read is what the grammar says.** -/
theorem readSource_eq {cs : List Char} {o : Outcome Rule}
    (h : Reads expression false (.one (.rule .source)) (.start cs) o) : (readSource cs).1 = o :=
  (reads_readSource cs).deterministic h

theorem matchSource_eq_ok {cs : List Char} {d : Cursor} {tree : Tree Rule}
    (h : Reads expression false (.one (.rule .source)) (.start cs) (matched d [tree])) :
    matchSource cs = .ok tree := by
  have hread := readSource_eq h
  unfold matchSource
  rcases hrun : readSource cs with ⟨o, t⟩
  rw [hrun] at hread
  cases hread
  rfl

end SafeExpr.Grammar
