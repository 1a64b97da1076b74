/-
  SafeExpr/Proofs/Library/WellFormed.lean
  =======================================
  **Operators and library functions keep values well-formed.**

  Most results are scalars, which cannot be otherwise.  The others are put together from
  the operands: sequences are joined and repeated, sets are filtered and joined, items are
  sorted and chosen.
-/
import SafeExpr.Proofs.Library.Kept
import SafeExpr.Proofs.Value.WellFormed

namespace SafeExpr

open Except (Ensures)
open Value (WellFormed Distinct IsScalar)

theorem Value.IsScalar.wellFormed {v : Value} (h : v.IsScalar) : v.WellFormed := by
  cases h with
  | none => exact .none
  | bool b => exact .bool b
  | int n => exact .int n
  | float x => exact .float x

/-- Results that are well-formed if the arguments are. -/
def NativeFunction.KeepsWellFormed (f : NativeFunction) : Prop :=
  ∀ args, (∀ v ∈ args, v.WellFormed) → (f.run args).Ensures WellFormed

namespace Operators

/-! ### Operators -/

theorem unary_wellFormed (op : UnaryOp) (v : Value) : (unary op v).Ensures WellFormed :=
  (unary_scalar op v).imp fun _ => IsScalar.wellFormed

theorem numeric_wellFormed (op : BinaryOp) (v w : Value) : (numeric op v w).Ensures WellFormed :=
  (numeric_scalar op v w).imp fun _ => IsScalar.wellFormed

theorem mem_of_mem_copies {α : Type} {n : Nat} {x : α} {xs : List α} (h : x ∈ copies n xs) :
    x ∈ xs := by
  cases xs with
  | nil => simp [copies] at h
  | cons y ys =>
    simp only [copies, List.mem_flatten, List.mem_replicate] at h
    obtain ⟨l, ⟨-, rfl⟩, hx⟩ := h
    exact hx

theorem repeated_wellFormed (n : Int64) {v : Value} (hv : v.WellFormed) :
    (repeated n v).Ensures WellFormed := by
  unfold repeated
  dsimp only
  split
  · trivial
  · cases hv with
    | list h => exact .list fun w hw => h w (mem_of_mem_copies hw)
    | tuple h => exact .tuple fun w hw => h w (mem_of_mem_copies hw)
    | str s => exact .str _
    | none => exact .none
    | bool b => exact .bool b
    | int n => exact .int n
    | float x => exact .float x
    | set h => exact .set h
    | dict hkeys hvalues => exact .dict hkeys hvalues

/-- Each operation of set algebra leaves distinct elements. -/
theorem setOperation_distinct (op : BinaryOp) {vs ws : List Value} (hvs : Distinct vs)
    (hws : Distinct ws) : Distinct (setOperation op vs ws) := by
  have honly : ∀ us : List Value, us ⊆ vs → Distinct us →
      Distinct (us ++ ws.filter fun w => !w.memberOf vs) := by
    intro us hsub hus
    apply hus.append (hws.filter _)
    intro v hv w hw
    obtain ⟨-, hw⟩ := List.mem_filter.mp hw
    exact Distinct.eq_eq_false_of_not_member (by simpa using hw) v (hsub hv)
  unfold setOperation
  split
  · exact hvs.filter _
  · exact honly vs (List.Subset.refl _) hvs
  · exact honly _ (fun v hv => (List.mem_filter.mp hv).1) (hvs.filter _)
  · exact hvs.filter _

theorem capped_wellFormed (n : Nat) {v : Value} (hv : v.WellFormed) :
    (capped n v).Ensures WellFormed := by
  unfold capped
  split
  · trivial
  · exact hv

theorem times_wellFormed {v w : Value} (hv : v.WellFormed) (hw : w.WellFormed) :
    (times v w).Ensures WellFormed := by
  unfold times
  split
  · exact repeated_wellFormed _ hv
  · exact repeated_wellFormed _ hw
  · exact numeric_wellFormed _ _ _

/-- **Operators on well-formed values have well-formed results.** -/
theorem binary_wellFormed (op : BinaryOp) {v w : Value} (hv : v.WellFormed)
    (hw : w.WellFormed) : (binary op v w).Ensures WellFormed := by
  unfold binary
  split
  · exact capped_wellFormed _ (.str _)
  · cases hv with
    | list hv =>
      cases hw with
      | list hw => exact capped_wellFormed _ (.list (List.forall_mem_append.mpr ⟨hv, hw⟩))
  · cases hv with
    | tuple hv =>
      cases hw with
      | tuple hw => exact capped_wellFormed _ (.tuple (List.forall_mem_append.mpr ⟨hv, hw⟩))
  · exact times_wellFormed hv hw
  · cases hv with
    | set hv =>
      cases hw with
      | set hw =>
        split
        · exact .set (setOperation_distinct _ hv hw)
        · exact numeric_wellFormed _ _ _
  · split
    · exact .bool _
    · exact numeric_wellFormed _ _ _
  · exact numeric_wellFormed _ _ _

end Operators

/-! ### Library functions -/

theorem wellFormed_kept : Kept WellFormed where
  scalar _ h := h.wellFormed
  text s _ := .str s
  scalars _ _ h := .list fun w hw => (h w hw).wellFormed
  items _ _ hv h := hv.items h
  arranged _ _ _ hv h hperm := .list fun w hw => hv.items h w (hperm.mem_iff.mp hw)
  sum _ _ hv hw := Operators.binary_wellFormed .add hv hw

/-- **Every builtin function keeps values well-formed.** -/
theorem builtins_keepWellFormed : ∀ f ∈ builtins, f.KeepsWellFormed :=
  fun f hf => builtins_keep wellFormed_kept f hf fun _ _ _ => .str _

/-- **Every function of the math module keeps values well-formed.** -/
theorem MathModule.functions_keepWellFormed : ∀ f ∈ functions, f.KeepsWellFormed :=
  fun f hf args _ => (functions_scalar f hf args).imp fun _ => IsScalar.wellFormed

end SafeExpr
