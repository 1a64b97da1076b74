/-
  SafeExpr/Proofs/Library/Capped.lean
  ===================================
  **Which functions keep sequences short.**

  `Value.Capped` says that no sequence in a value is longer than `maxSequenceLength`, at any
  depth.  Concatenation and repetition refuse to make a longer one, `range` does so itself, and
  `sum` does it by concatenation; what else a general function puts together is no longer than
  the items it was given.

  All but one: `str` writes out a container without measuring the text.  The text of a list has
  at least three characters for each item (`three_mul_length_le`), so lists from a third of the
  greatest length on have texts that are longer than any string is meant to be.
-/
import SafeExpr.Proofs.Evaluation.Sequences
import SafeExpr.Proofs.Library.Kept
import SafeExpr.Proofs.Library.Numerals

namespace SafeExpr

open Except (Ensures)
open Value (IsScalar)

namespace Value

/-- Strings and containers have at most `maxSequenceLength` items, and so have their items. -/
inductive Capped : Value → Prop
  | scalar {v : Value} (h : v.IsScalar) : Capped v
  | str {s : String} (hlength : s.length ≤ maxSequenceLength) : Capped (str s)
  | list {vs : List Value} (hlength : vs.length ≤ maxSequenceLength) (hitems : ∀ v ∈ vs, Capped v) :
    Capped (list vs)
  | tuple {vs : List Value} (hlength : vs.length ≤ maxSequenceLength)
    (hitems : ∀ v ∈ vs, Capped v) : Capped (tuple vs)
  | set {vs : List Value} (hlength : vs.length ≤ maxSequenceLength) (hitems : ∀ v ∈ vs, Capped v) :
    Capped (set vs)
  | dict {es : List (Value × Value)} (hlength : es.length ≤ maxSequenceLength)
    (hkeys : ∀ e ∈ es, Capped e.1) (hvalues : ∀ e ∈ es, Capped e.2) : Capped (dict es)

theorem Capped.itemCount_le {v : Value} (h : v.Capped) : v.itemCount ≤ maxSequenceLength := by
  cases h with
  | scalar h => cases h <;> exact Nat.zero_le _
  | str hlength => exact hlength
  | list hlength | tuple hlength | set hlength | dict hlength => exact hlength

/-- Iteration gives no more items, and each of them is as short. -/
theorem Capped.items {v : Value} {vs : List Value} (hv : v.Capped) (h : v.items = .ok vs) :
    vs.length ≤ maxSequenceLength ∧ ∀ w ∈ vs, w.Capped := by
  cases hv with
  | scalar hv => cases hv <;> cases h
  | str hlength =>
    cases h
    constructor
    · rwa [List.length_map, String.length_toList]
    · intro w hw
      obtain ⟨c, -, rfl⟩ := List.mem_map.mp hw
      exact .str (by rw [String.length_singleton]; decide)
  | list hlength hitems | tuple hlength hitems | set hlength hitems =>
    cases h
    exact ⟨hlength, hitems⟩
  | dict hlength hkeys =>
    cases h
    constructor
    · rwa [List.length_map]
    · intro w hw
      obtain ⟨e, he, rfl⟩ := List.mem_map.mp hw
      exact hkeys e he

end Value

open Value (Capped)

/-! ### Operators -/

namespace Operators

theorem capped_ensures {size : Nat} {w : Value} {P : Value → Prop}
    (h : size ≤ maxSequenceLength → P w) : (capped size w).Ensures P := by
  rcases Nat.lt_or_ge maxSequenceLength size with hlong | hfits
  · rw [capped_of_lt hlong]
    trivial
  · rw [capped_of_le hfits]
    exact h hfits

theorem repeated_capped (n : Int64) {v : Value} (hseq : isSequence v = true) (hv : v.Capped) :
    (repeated n v).Ensures Capped := by
  obtain ⟨w, hw⟩ := exists_copied n.toInt.toNat hseq
  rw [repeated_eq hw]
  refine capped_ensures fun hfits => ?_
  have hcopies : ∀ {vs : List Value}, (∀ u ∈ vs, u.Capped) →
      ∀ u ∈ (List.replicate n.toInt.toNat vs).flatten, u.Capped := by
    intro vs hvs u hu
    obtain ⟨copy, hcopy, hu⟩ := List.mem_flatten.mp hu
    rw [List.eq_of_mem_replicate hcopy] at hu
    exact hvs u hu
  cases hw with
  | str s =>
    rw [Value.itemCount_str] at hfits
    exact .str hfits
  | list vs => exact .list hfits (hcopies (hv.items rfl).2)
  | tuple vs => exact .tuple hfits (hcopies (hv.items rfl).2)

theorem times_capped {v w : Value} (hv : v.Capped) (hw : w.Capped) :
    (times v w).Ensures Capped := by
  unfold times
  split
  · next hseq _ => exact repeated_capped _ hseq hv
  · next hseq _ _ => exact repeated_capped _ hseq hw
  · exact (numeric_scalar .mul v w).imp fun _ => .scalar

theorem joined_capped {u v w : Value} (h : Joined u v w) (hu : u.Capped) (hv : v.Capped) :
    (binary .add u v).Ensures Capped := by
  rw [add_eq h]
  refine capped_ensures fun hsize => ?_
  have hfits : w.itemCount ≤ maxSequenceLength := Nat.le_trans w.itemCount_le_joinedSize hsize
  cases h with
  | str a b => exact .str hfits
  | list xs ys =>
    exact .list hfits (List.forall_mem_append.mpr ⟨(hu.items rfl).2, (hv.items rfl).2⟩)
  | tuple xs ys =>
    exact .tuple hfits (List.forall_mem_append.mpr ⟨(hu.items rfl).2, (hv.items rfl).2⟩)

/-- **Operators make no long sequence.**  Only the operators of sets may exceed the length,
    since a union has the elements of both. -/
theorem binary_capped {op : BinaryOp} (hop : isSetOperator op = false) {v w : Value}
    (hv : v.Capped) (hw : w.Capped) : (binary op v w).Ensures Capped := by
  have hnumeric : (numeric op v w).Ensures Capped := (numeric_scalar op v w).imp fun _ => .scalar
  unfold binary
  split
  · exact joined_capped (.str _ _) hv hw
  · exact joined_capped (.list _ _) hv hw
  · exact joined_capped (.tuple _ _) hv hw
  · exact times_capped hv hw
  · rwa [hop]
  · rwa [hop]
  · exact hnumeric

end Operators

/-! ### Library functions -/

theorem capped_kept : Kept Capped where
  scalar _ := .scalar
  text _ := .str
  scalars _ hlength h := .list hlength fun v hv => .scalar (h v hv)
  items _ _ hv h := (hv.items h).2
  arranged _ _ _ hv h hperm :=
    .list (Nat.le_trans (Nat.le_of_eq hperm.length_eq) (hv.items h).1) fun w hw =>
      (hv.items h).2 w (hperm.mem_iff.mp hw)
  sum _ _ := Operators.binary_capped rfl

/-- The general function with this name writes its argument out. -/
theorem run_str {f : NativeFunction} (hf : f ∈ builtins) (hname : f.name = "str")
    (args : List Value) :
    (f.run args).Ensures fun w => ∃ v, args = [v] ∧ Builtins.str v = .ok w := by
  cases Builtins.builtins_name_inj hf Builtins.strFunction_mem hname
  apply Library.native_ensures
  rcases args with _ | ⟨v, _ | ⟨u, rest⟩⟩
  · trivial
  · exact ⟨v, rfl, rfl⟩
  · trivial

/-- `w` is the text of `v`, written out to more than the greatest length. -/
structure LongText (v w : Value) : Prop where
  written : w = .str v.render
  not_str : ∀ s, v ≠ .str s
  long : maxSequenceLength < v.render.length

theorem capped_or_longText {v : Value} (hv : ∀ s, v ≠ .str s) :
    (Value.str v.render).Capped ∨ LongText v (.str v.render) := by
  rcases Nat.lt_or_ge maxSequenceLength v.render.length with hlong | hfits
  · exact .inr ⟨rfl, hv, hlong⟩
  · exact .inl (.str hfits)

theorem str_capped {v : Value} (hv : v.Capped) :
    (Builtins.str v).Ensures fun w => w.Capped ∨ LongText v w := by
  cases v with
  | none => exact .inl (.str (Nat.zero_le _))
  | str s => exact .inl hv
  | bool | int | float | list | tuple | dict | set =>
    exact capped_or_longText fun s h => by cases h

/-- **The general functions make no long sequence, except for `str`**, and that only of a value
    which is no string itself and has a long text. -/
theorem builtins_escape {f : NativeFunction} (hf : f ∈ builtins) {args : List Value}
    (hargs : ∀ v ∈ args, v.Capped) {w : Value} (h : f.run args = .ok w) :
    w.Capped ∨ f.name = "str" ∧ ∃ v, args = [v] ∧ LongText v w := by
  by_cases hname : f.name = "str"
  · obtain ⟨v, rfl, hv⟩ := (run_str hf hname args).of_ok h
    rcases (str_capped (hargs v List.mem_cons_self)).of_ok hv with hw | hw
    · exact .inl hw
    · exact .inr ⟨hname, v, rfl, hw⟩
  · exact .inl ((builtins_keep capped_kept f hf (absurd · hname) args hargs).of_ok h)

/-! ### Long texts of short lists -/

theorem length_continued {texts : List (List Char)} (h : ∀ cs ∈ texts, cs ≠ []) :
    3 * texts.length ≤ (continued texts).length := by
  induction texts with
  | nil => exact Nat.zero_le _
  | cons cs texts ih =>
    obtain ⟨hcs, htexts⟩ := List.forall_mem_cons.mp h
    have hrest := ih htexts
    have hpos := List.length_pos_of_ne_nil hcs
    simp only [continued, List.flatMap_cons, List.length_append, List.length_cons] at hrest ⊢
    omega

/-- Between brackets, each item of a list takes its own text and two more characters. -/
theorem three_mul_length_le (vs : List Value) : 3 * vs.length ≤ (Value.list vs).render.length := by
  rw [← String.length_toList]
  change _ ≤ (Value.list vs).spelling.length
  rw [Value.spelling_list]
  cases vs with
  | nil => decide
  | cons v vs =>
    have hv := List.length_pos_of_ne_nil v.spelling_ne_nil
    have hvs : 3 * vs.length ≤ (continued (vs.map Value.spelling)).length := by
      rw [← List.length_map]
      apply length_continued
      rw [List.forall_mem_map]
      exact fun w _ => w.spelling_ne_nil
    simp only [List.map_cons, separated, List.length_append, List.length_cons, List.length_nil]
    omega

/-- **The text of any list of more than a third of the greatest length is too long**, and `str`
    gives it all the same. -/
theorem str_of_long_list {vs : List Value} (h : maxSequenceLength < 3 * vs.length) :
    ∃ t, Builtins.str (.list vs) = .ok (.str t) ∧ maxSequenceLength < t.length :=
  ⟨_, rfl, Nat.lt_of_lt_of_le h (three_mul_length_le vs)⟩

/-- **So `str` does not keep sequences short.** -/
theorem not_str_capped :
    ∃ v w : Value, v.Capped ∧ Builtins.str v = .ok w ∧ ¬w.Capped := by
  let zeros : List Value := .replicate maxSequenceLength (.int 0)
  have hlength : zeros.length = maxSequenceLength := List.length_replicate
  have hitems : ∀ v ∈ zeros, v.Capped := by
    intro v hv
    rw [List.eq_of_mem_replicate hv]
    exact .scalar (.int 0)
  have hthird : maxSequenceLength < 3 * zeros.length := by
    rw [hlength]
    decide
  obtain ⟨t, ht, hlong⟩ := str_of_long_list hthird
  refine ⟨_, _, .list (Nat.le_of_eq hlength) hitems, ht, fun h => ?_⟩
  exact Nat.not_le.mpr hlong h.itemCount_le

end SafeExpr
