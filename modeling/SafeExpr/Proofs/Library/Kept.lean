/-
  SafeExpr/Proofs/Library/Kept.lean
  =================================
  **Properties of values that the general functions keep.**

  An answer that is no scalar is a text of bounded length, or has been put together from the
  arguments: one of their items, their items in another order, or their sum.  `Kept` is what a
  property has to satisfy so that it holds of all these, and `builtins_keep` says that every
  general function then keeps it.  Only the texts of `str` may have any length.
-/
import SafeExpr.Proofs.Library.Scalar
import SafeExpr.Proofs.Value.Sort

namespace SafeExpr

open Except (Ensures)
open Value (IsScalar)

/-- What makes a property of the arguments one of the answers. -/
structure Kept (P : Value → Prop) : Prop where
  scalar : ∀ v : Value, v.IsScalar → P v
  text : ∀ s : String, s.length ≤ maxSequenceLength → P (.str s)
  scalars : ∀ vs : List Value, vs.length ≤ maxSequenceLength → (∀ v ∈ vs, v.IsScalar) → P (.list vs)
  items : ∀ (v : Value) (vs : List Value), P v → v.items = .ok vs → ∀ w ∈ vs, P w
  arranged : ∀ (v : Value) (vs ws : List Value), P v → v.items = .ok vs → ws.Perm vs → P (.list ws)
  sum : ∀ v w : Value, P v → P w → (Operators.binary .add v w).Ensures P

namespace Library

/-! ### Arguments -/

variable {P : Value → Prop}

theorem itemsArg_ensures (v : Value) : (itemsArg v).Ensures fun vs => v.items = .ok vs := by
  unfold itemsArg
  split
  · next h => exact h
  · trivial

theorem of_given {v w : Value} (hv : P v) (h : v.given = some w) : P w := by
  cases v <;> cases h <;> exact hv

end Library

namespace Builtins

open Library

/-! ### Texts -/

/-- A sign, a mark of two characters, and at most sixty-four digits. -/
theorem length_radixText_le {mark : String} (hmark : mark.length = 2) {radix : Nat}
    (hradix : 1 < radix) (n : Int64) : (radixText mark radix n).length ≤ maxSequenceLength := by
  have hsign : (if n < 0 then "-" else "").length ≤ 1 := by split <;> decide
  have hn : n.toInt.natAbs < 2 ^ 64 := Nat.lt_of_le_of_lt (natAbs_toInt_le n) (by decide)
  have hdigits : (Nat.toDigits radix n.toInt.natAbs).length ≤ 64 :=
    (Nat.length_toDigits_le_iff hradix (by decide)).mpr
      (Nat.lt_of_lt_of_le hn (Nat.pow_le_pow_left hradix 64))
  have hcap : 67 ≤ maxSequenceLength := by decide
  rw [radixText, String.length_append, String.length_append, String.length_ofList]
  omega

section Kept

variable {P : Value → Prop} (hP : Kept P)
include hP

theorem inRadix_keeps (function : String) {mark : String} (hmark : mark.length = 2) {radix : Nat}
    (hradix : 1 < radix) (v : Value) : (inRadix function mark radix v).Ensures P :=
  .then fun n => hP.text _ (length_radixText_le hmark hradix n)

theorem chr_keeps (v : Value) : (chr v).Ensures P := by
  refine .then fun n => ?_
  dsimp only
  split
  · trivial
  · split
    · exact hP.text _ (by rw [String.length_singleton]; decide)
    · trivial

/-! ### Items -/

omit hP in
theorem best_mem (wanted : Ordering) (champion : Value) (vs : List Value) :
    (best wanted champion vs).Ensures (· ∈ champion :: vs) := by
  induction vs generalizing champion with
  | nil => exact List.mem_cons_self
  | cons v rest ih =>
    unfold best
    split
    · refine (ih _).imp fun w hw => ?_
      rcases List.mem_cons.mp hw with rfl | hw
      · split <;> simp
      · simp [hw]
    · trivial

theorem extremum_keeps (function : String) (wanted : Ordering) {args : List Value}
    (hargs : ∀ v ∈ args, P v) : (extremum function wanted args).Ensures P := by
  unfold extremum
  dsimp only
  split
  · trivial
  · refine (itemsArg_ensures _).bind fun vs hvs => ?_
    have hitems := hP.items _ vs (hargs _ List.mem_cons_self) hvs
    split
    · trivial
    · split
      · next h => exact hitems _ ((best_mem _ _ _).of_ok h)
      · trivial
  · rw [pure_bind]
    split
    · trivial
    · split
      · next h => exact hargs _ ((best_mem _ _ _).of_ok h)
      · trivial

theorem sorted_keeps {v : Value} (reverse : Value) (hv : P v) : (sorted v reverse).Ensures P := by
  unfold sorted
  refine (itemsArg_ensures v).bind fun vs hvs => ?_
  split
  · next h => exact hP.arranged v vs _ hv hvs ((Sort.sort_perm _ vs).of_ok h)
  · trivial

/-! ### Ranges and sums -/

theorem rangeItems_keeps (start stop step : Int) : (rangeItems start stop step).Ensures P := by
  unfold rangeItems
  split
  · trivial
  · dsimp only
    split
    · trivial
    · next hlength =>
      refine hP.scalars _ ?_ fun v hv => ?_
      · rw [List.length_map, List.length_range]
        exact Nat.le_of_not_lt hlength
      · obtain ⟨i, -, rfl⟩ := List.mem_map.mp hv
        exact .int _

theorem range_keeps (first stop step : Value) : (range first stop step).Ensures P := by
  refine .then fun first => .then fun stop => .then fun step => ?_
  dsimp only
  split
  · exact rangeItems_keeps hP _ _ _
  · exact rangeItems_keeps hP _ _ _

theorem foldlM_keeps {vs : List Value} {start : Value} (hstart : P start)
    (hvs : ∀ v ∈ vs, P v) : (vs.foldlM (Operators.binary .add) start).Ensures P := by
  induction vs generalizing start with
  | nil => exact hstart
  | cons v vs ih =>
    obtain ⟨hv, hvs⟩ := List.forall_mem_cons.mp hvs
    rw [List.foldlM_cons]
    exact (hP.sum start v hstart hv).bind fun w hw => ih hw hvs

theorem sum_keeps {v start : Value} (hv : P v) (hstart : P start) : (sum v start).Ensures P := by
  have hgiven : P (start.given.getD (.int 0)) := by
    cases h : start.given with
    | none => exact hP.scalar _ (.int 0)
    | some w => exact of_given hstart h
  unfold sum
  split
  · trivial
  · exact (itemsArg_ensures v).bind fun vs hvs =>
      applied_ensures (foldlM_keeps hP hgiven (hP.items v vs hv hvs))

end Kept

end Builtins

open Library Builtins in
/-- **Every general function keeps a property of this kind**, `str` if its texts have it. -/
theorem builtins_keep {P : Value → Prop} (hP : Kept P) :
    ∀ f ∈ builtins, (f.name = "str" → ∀ v, P v → (str v).Ensures P) →
      ∀ args, (∀ v ∈ args, P v) → (f.run args).Ensures P := by
  have hscalar : ∀ {r : Answer}, r.Ensures IsScalar → r.Ensures P := fun h => h.imp hP.scalar
  have hunary : ∀ {name signature f}, (∀ v, P v → (f v).Ensures P) → ∀ args, (∀ v ∈ args, P v) →
      ((native name signature (unary name f)).run args).Ensures P :=
    fun h _ hargs => native_ensures (unary_ensures h hargs)
  have hbinary : ∀ {name signature f}, (∀ v w, P v → P w → (f v w).Ensures P) → ∀ args,
      (∀ v ∈ args, P v) → ((native name signature (binary name f)).run args).Ensures P :=
    fun h _ hargs => native_ensures (binary_ensures h hargs)
  have hternary : ∀ {name signature f}, (∀ u v w, P u → P v → P w → (f u v w).Ensures P) →
      ∀ args, (∀ v ∈ args, P v) → ((native name signature (ternary name f)).run args).Ensures P :=
    fun h _ hargs => native_ensures (ternary_ensures h hargs)
  simp only [builtins, List.forall_mem_cons]
  refine ⟨?abs, ?all, ?any, ?bin, ?bool, ?chr, ?float, ?hex, ?int, ?len, ?max, ?min, ?oct, ?ord,
    ?pow, ?range, ?round, ?sorted, ?str, ?sum, List.forall_mem_nil _⟩
  case abs => exact fun _ => hunary fun v _ => hscalar (abs_scalar v)
  case all => exact fun _ => hunary fun v _ => hscalar (.then fun _ => .bool _)
  case any => exact fun _ => hunary fun v _ => hscalar (.then fun _ => .bool _)
  case bin => exact fun _ => hunary fun v _ => inRadix_keeps hP _ rfl (by decide) v
  case bool => exact fun _ => hunary fun v _ => hP.scalar _ (.bool _)
  case chr => exact fun _ => hunary fun v _ => chr_keeps hP v
  case float => exact fun _ => hunary fun v _ => hscalar (float_scalar v)
  case hex => exact fun _ => hunary fun v _ => inRadix_keeps hP _ rfl (by decide) v
  case int => exact fun _ => hbinary fun v base _ _ => hscalar (int_scalar v base)
  case len => exact fun _ => hunary fun v _ => hscalar (len_scalar v)
  case max => exact fun _ args hargs => native_ensures (extremum_keeps hP _ _ hargs)
  case min => exact fun _ args hargs => native_ensures (extremum_keeps hP _ _ hargs)
  case oct => exact fun _ => hunary fun v _ => inRadix_keeps hP _ rfl (by decide) v
  case ord => exact fun _ => hunary fun v _ => hscalar (ord_scalar v)
  case pow => exact fun _ => hternary fun b e m _ _ _ => hscalar (pow_scalar b e m)
  case range => exact fun _ => hternary fun a b c _ _ _ => range_keeps hP a b c
  case round => exact fun _ => hbinary fun v n _ _ => hscalar (round_scalar v n)
  case sorted => exact fun _ => hbinary fun v r hv _ => sorted_keeps hP r hv
  case str => exact fun hstr => hunary (hstr rfl)
  case sum => exact fun _ => hbinary fun v s hv hs => sum_keeps hP hv hs

end SafeExpr
