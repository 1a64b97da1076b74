/-
  SafeExpr/Proofs/Value/Sort.lean
  ===============================
  **Sorting only rearranges.**

  Whatever the comparison answers, a sort that succeeds gives the items that went in, each
  as often as before.  Nothing is assumed of the comparison, which need not be an order.
-/
import SafeExpr.Value.Sort
import SafeExpr.Proofs.Except

namespace SafeExpr.Sort

open List (Perm)
open Except (Ensures Satisfies)

variable {α ε : Type} (less : α → α → Except ε Bool)

theorem insertDown_perm (x : α) (ys : List α) :
    (insertDown less x ys).Ensures (·.Perm (x :: ys)) := by
  induction ys with
  | nil => exact Perm.refl _
  | cons y ys ih =>
    unfold insertDown
    split
    · exact ih.map fun zs hzs => (hzs.cons y).trans (Perm.swap x y ys)
    · exact Perm.refl _
    · trivial

theorem insertAll_perm (sorted xs : List α) :
    (insertAll less sorted xs).Ensures (·.Perm (xs ++ sorted)) := by
  induction xs generalizing sorted with
  | nil => exact List.reverse_perm sorted
  | cons x xs ih =>
    unfold insertAll
    split
    · next zs h =>
      have hzs : zs.Perm (x :: sorted) := (insertDown_perm less x sorted).of_ok h
      exact (ih zs).imp fun r hr =>
        hr.trans ((hzs.append_left xs).trans List.perm_middle)
    · trivial

/-- A run and what is left after it are the items. -/
theorem takeRun_perm (falling : Bool) (last : α) (run xs : List α) :
    (takeRun less falling last run xs).Ensures fun r => (r.1 ++ r.2).Perm (run ++ xs) := by
  induction xs generalizing last run with
  | nil => exact Perm.refl _
  | cons x xs ih =>
    unfold takeRun
    split
    · split
      · exact (ih x (x :: run)).imp fun r hr => hr.trans List.perm_middle.symm
      · exact Perm.refl _
    · trivial

theorem length_takeRun_le (falling : Bool) (last : α) (run xs : List α) :
    (takeRun less falling last run xs).Ensures fun r => r.2.length ≤ xs.length := by
  induction xs generalizing last run with
  | nil => exact Nat.le_refl _
  | cons x xs ih =>
    unfold takeRun
    split
    · split
      · exact (ih x (x :: run)).imp fun r hr => Nat.le_succ_of_le hr
      · exact Nat.le_refl _
    · trivial

theorem runs_perm (found : List (List α)) (fuel : Nat) (xs : List α) (hfuel : xs.length ≤ fuel) :
    (runs less found fuel xs).Ensures fun r => r.flatten.Perm (xs ++ found.flatten) := by
  have hfound : found.reverse.flatten.Perm found.flatten := (List.reverse_perm found).flatten
  induction fuel generalizing found xs with
  | zero =>
    rw [List.length_eq_zero_iff.mp (Nat.le_zero.mp hfuel), runs]
    exact hfound
  | succ fuel ih =>
    match xs with
    | [] =>
      rw [runs]
      · exact hfound
      · simp
    | [x] =>
      rw [runs]
      · exact (List.reverse_perm _).flatten
      · simp
    | x :: y :: rest =>
      rw [runs]
      split
      · next falling _ =>
        split
        · next run left h =>
          have hrun := (takeRun_perm less falling y [y, x] rest).of_ok h
          have hleft := (length_takeRun_le less falling y [y, x] rest).of_ok h
          simp only [List.length_cons] at hfuel hleft
          refine (ih _ left (by omega) (List.reverse_perm _).flatten).imp fun r hr => ?_
          have hone : (if falling then run else run.reverse).Perm run := by
            split
            · exact Perm.refl _
            · exact List.reverse_perm run
          refine hr.trans ?_
          rw [List.flatten_cons, ← List.append_assoc]
          refine Perm.append_right _ ?_
          refine (hone.append_left left).trans (List.perm_append_comm.trans (hrun.trans ?_))
          exact (Perm.swap x y []).append_right rest
        · trivial
      · trivial

theorem mergeOnto_perm (merged : List α) (fuel : Nat) (xs ys : List α) :
    (mergeOnto less merged fuel xs ys).Ensures (·.Perm (merged ++ (xs ++ ys))) := by
  induction fuel generalizing merged xs ys with
  | zero =>
    unfold mergeOnto
    split
    · exact (List.reverse_perm merged).append_right _
    · rw [List.append_nil]
      exact (List.reverse_perm merged).append_right _
    · rw [List.append_assoc]
      exact (List.reverse_perm merged).append_right _
    · contradiction
  | succ fuel ih =>
    cases xs with
    | nil => exact (List.reverse_perm merged).append_right _
    | cons x xs =>
      cases ys with
      | nil => simpa [mergeOnto] using (List.reverse_perm merged).append_right (x :: xs)
      | cons y ys =>
        unfold mergeOnto
        split
        · refine (ih (y :: merged) (x :: xs) ys).imp fun r hr => hr.trans ?_
          rw [List.cons_append]
          exact (Perm.cons y (Perm.refl _)).trans
            (List.perm_middle.symm.trans (List.perm_middle.symm.append_left merged))
        · exact (ih (x :: merged) xs (y :: ys)).imp fun r hr => hr.trans List.perm_middle.symm
        · trivial

theorem merge_perm (xs ys : List α) : (merge less xs ys).Ensures (·.Perm (xs ++ ys)) :=
  mergeOnto_perm less [] _ xs ys

theorem mergePairs_perm (merged lists : List (List α)) :
    (mergePairs less merged lists).Ensures fun r =>
      r.flatten.Perm (merged.flatten ++ lists.flatten) := by
  fun_induction mergePairs less merged lists with
  | case1 merged xs ys rest zs h ih =>
    refine ih.imp fun r hr => hr.trans ?_
    have hzs : zs.Perm (xs ++ ys) := (merge_perm less xs ys).of_ok h
    simp only [List.flatten_cons, List.append_assoc]
    rw [← List.append_assoc xs]
    refine ((hzs.append_right _).trans ?_)
    exact List.perm_append_comm_assoc _ _ _
  | case2 => trivial
  | case3 merged xs =>
    refine (List.reverse_perm _).flatten.trans ?_
    simpa using List.perm_append_comm
  | case4 merged => simpa using (List.reverse_perm merged).flatten

theorem mergeAll_perm (fuel : Nat) (lists : List (List α)) :
    (mergeAll less fuel lists).Ensures (·.Perm lists.flatten) := by
  fun_induction mergeAll less fuel lists with
  | case1 lists => exact Perm.refl _
  | case2 => exact Perm.refl _
  | case3 fuel xs => simp [Ensures, Satisfies]
  | case4 fuel lists _ _ next h ih =>
    have hnext := (mergePairs_perm less [] lists).of_ok h
    exact ih.imp fun r hr => hr.trans hnext
  | case5 => trivial

/-- **A sorted list is a rearrangement of the items.** -/
theorem sort_perm (items : List α) : (sort less items).Ensures (·.Perm items) := by
  unfold sort
  split
  · simpa using insertAll_perm less [] items
  · split
    · next found h =>
      have hruns := (runs_perm less [] items.length items (Nat.le_refl _)).of_ok h
      refine (mergeAll_perm less _ found).imp fun r hr => hr.trans ?_
      simpa using hruns
    · trivial

end SafeExpr.Sort
