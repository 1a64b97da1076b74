/-
  SafeExpr/Proofs/Evaluation/Sequences.lean
  =========================================
  **How long concatenations and repetitions may be.**

  `w` is `u` joined with `v` (`Joined`), or `n` copies of `v` (`Copied`), whatever its length.
  An operator gives this `w` if it is short enough, and reports that it is too long else; it
  never cuts anything off.

  Repetition measures `w` by its length.  Concatenation measures a string by its bytes in
  UTF-8, which are as many as its characters just if each of them takes one byte (`Narrow`).
  On sequences of this kind repetition is concatenation over and over (`mul_succ`); on others
  a string may be repeated to a length to which it cannot be put together.
-/
import SafeExpr.Evaluation.Operators

namespace SafeExpr

namespace Value

/-- The number of items, zero for a scalar. -/
def itemCount (v : Value) : Nat := v.length?.getD 0

@[simp] theorem itemCount_str (s : String) : (str s).itemCount = s.length := rfl

/-- The characters of a string take one byte each. -/
def Narrow : Value → Prop
  | str s => ∀ c ∈ s.toList, c.utf8Size = 1
  | _ => True

/-- The size that concatenation goes by: of a string in bytes, else in items. -/
def joinedSize : Value → Nat
  | str s => s.utf8ByteSize
  | v => v.itemCount

theorem length_le_utf8ByteSize (s : String) : s.length ≤ s.utf8ByteSize := by
  induction s using String.push_induction with
  | empty => exact Nat.zero_le _
  | push s c ih =>
    rw [String.length_push, String.utf8ByteSize_push]
    exact Nat.add_le_add ih c.utf8Size_pos

theorem utf8ByteSize_eq_length {s : String} (h : ∀ c ∈ s.toList, c.utf8Size = 1) :
    s.utf8ByteSize = s.length := by
  induction s using String.push_induction with
  | empty => rfl
  | push s c ih =>
    rw [String.toList_push, List.forall_mem_append] at h
    rw [String.length_push, String.utf8ByteSize_push, ih h.1, h.2 c List.mem_cons_self]

/-- Nothing is longer than its size. -/
theorem itemCount_le_joinedSize (v : Value) : v.itemCount ≤ v.joinedSize := by
  cases v with
  | str s => exact length_le_utf8ByteSize s
  | _ => exact Nat.le_refl _

theorem Narrow.joinedSize_eq {v : Value} (h : v.Narrow) : v.joinedSize = v.itemCount := by
  cases v with
  | str s => exact utf8ByteSize_eq_length h
  | _ => rfl

end Value

namespace Operators

open Value (itemCount joinedSize Narrow)

theorem capped_of_le {size : Nat} (h : size ≤ maxSequenceLength) (w : Value) :
    capped size w = .ok w := if_neg (Nat.not_lt.mpr h)

theorem capped_of_lt {size : Nat} (h : maxSequenceLength < size) (w : Value) :
    capped size w = .error (.arithmetic .sequenceTooLong) := if_pos h

theorem capped_eq_ok_iff {size : Nat} {w w' : Value} :
    capped size w = .ok w' ↔ size ≤ maxSequenceLength ∧ w = w' := by
  rcases Nat.lt_or_ge maxSequenceLength size with hlong | hfits
  · simp [capped_of_lt hlong, Nat.not_le.mpr hlong]
  · simp [capped_of_le hfits, hfits]

/-! ### Concatenation -/

/-- `w` is `u` with `v` behind it, and all three are of one type. -/
inductive Joined : Value → Value → Value → Prop
  | str (a b : String) : Joined (.str a) (.str b) (.str (a ++ b))
  | list (xs ys : List Value) : Joined (.list xs) (.list ys) (.list (xs ++ ys))
  | tuple (xs ys : List Value) : Joined (.tuple xs) (.tuple ys) (.tuple (xs ++ ys))

theorem Joined.itemCount_eq {u v w : Value} (h : Joined u v w) :
    w.itemCount = u.itemCount + v.itemCount := by
  cases h with
  | str a b => exact String.length_append a b
  | list xs ys | tuple xs ys => exact List.length_append

theorem Joined.narrow {u v w : Value} (h : Joined u v w) (hu : u.Narrow) (hv : v.Narrow) :
    w.Narrow := by
  cases h with
  | str a b =>
    simp only [Narrow, String.toList_append]
    exact List.forall_mem_append.mpr ⟨hu, hv⟩
  | list xs ys | tuple xs ys => trivial

/-- **Concatenation goes by the size of the result.** -/
theorem add_eq {u v w : Value} (h : Joined u v w) :
    binary .add u v = capped w.joinedSize w := by
  cases h with
  | str a b =>
    rw [joinedSize, String.utf8ByteSize_append]
    rfl
  | list xs ys | tuple xs ys =>
    simp only [joinedSize, itemCount, Value.length?, Option.getD_some, List.length_append]
    rfl

/-- A concatenation is not longer than sequences may be. -/
theorem itemCount_of_add {u v w : Value} (h : Joined u v w) (hok : binary .add u v = .ok w) :
    w.itemCount ≤ maxSequenceLength := by
  rw [add_eq h, capped_eq_ok_iff] at hok
  exact Nat.le_trans w.itemCount_le_joinedSize hok.1

/-- **Lists, tuples, and strings of narrow characters are concatenated up to the greatest
    length.** -/
theorem add_exact {u v w : Value} (h : Joined u v w) (hu : u.Narrow) (hv : v.Narrow) :
    binary .add u v = capped (u.itemCount + v.itemCount) w := by
  rw [add_eq h, (h.narrow hu hv).joinedSize_eq, h.itemCount_eq]

/-! ### Repetition -/

/-- `w` is `n` copies of `v`, one behind the other. -/
inductive Copied (n : Nat) : Value → Value → Prop
  | str (s : String) : Copied n (.str s) (.str (String.ofList (List.replicate n s.toList).flatten))
  | list (xs : List Value) : Copied n (.list xs) (.list (List.replicate n xs).flatten)
  | tuple (xs : List Value) : Copied n (.tuple xs) (.tuple (List.replicate n xs).flatten)

theorem length_flatten_replicate {α : Type} (n : Nat) (xs : List α) :
    (List.replicate n xs).flatten.length = xs.length * n := by
  rw [List.length_flatten, List.map_replicate, List.sum_replicate_nat, Nat.mul_comm]

theorem Copied.itemCount_eq {n : Nat} {v w : Value} (h : Copied n v w) :
    w.itemCount = v.itemCount * n := by
  cases h with
  | str s =>
    simp only [Value.itemCount_str, String.length_ofList, length_flatten_replicate,
      String.length_toList]
  | list xs | tuple xs => exact length_flatten_replicate n xs

theorem copies_eq {α : Type} (n : Nat) (xs : List α) : copies n xs = (List.replicate n xs).flatten := by
  cases xs with
  | nil => simp [copies]
  | cons x xs => rfl

/-- **Repetition goes by the length of the result**, and a negative number of times is zero
    times. -/
theorem repeated_eq {n : Int64} {v w : Value} (h : Copied n.toInt.toNat v w) :
    repeated n v = capped w.itemCount w := by
  rw [h.itemCount_eq]
  cases h <;> simp only [repeated, copies_eq] <;> rfl

/-- **A sequence is repeated up to the greatest length**, whichever operand it is. -/
theorem mul_exact {n : Int64} {v w : Value} (h : Copied n.toInt.toNat v w) :
    binary .mul v (.int n) = capped (v.itemCount * n.toInt.toNat) w ∧
      binary .mul (.int n) v = capped (v.itemCount * n.toInt.toNat) w := by
  rw [← h.itemCount_eq, ← repeated_eq h]
  cases h <;> exact ⟨rfl, rfl⟩

/-! ### Repetition as concatenation -/

theorem exists_copied (n : Nat) {v : Value} (hv : isSequence v = true) : ∃ w, Copied n v w := by
  cases v with
  | str s => exact ⟨_, .str s⟩
  | list xs => exact ⟨_, .list xs⟩
  | tuple xs => exact ⟨_, .tuple xs⟩
  | none | bool | int | float | dict | set => cases hv

/-- One more copy is joined to the others. -/
theorem Copied.joined {n : Nat} {v w w' : Value} (h : Copied n v w) (h' : Copied (n + 1) v w') :
    Joined w v w' := by
  have hsucc : ∀ {α : Type} (xs : List α),
      (List.replicate (n + 1) xs).flatten = (List.replicate n xs).flatten ++ xs := by
    intro α xs
    rw [List.replicate_succ', List.flatten_append, List.flatten_singleton]
  cases h with
  | str s =>
    cases h'
    rw [hsucc, String.ofList_append, String.ofList_toList]
    exact .str _ _
  | list xs =>
    cases h'
    rw [hsucc]
    exact .list _ _
  | tuple xs =>
    cases h'
    rw [hsucc]
    exact .tuple _ _

theorem Copied.narrow {n : Nat} {v w : Value} (h : Copied n v w) (hv : v.Narrow) : w.Narrow := by
  cases h with
  | str s =>
    simp only [Narrow, String.toList_ofList, List.mem_flatten, List.mem_replicate]
    rintro c ⟨cs, ⟨-, rfl⟩, hc⟩
    exact hv c hc
  | list xs | tuple xs => trivial

/-- **One more repetition is one more concatenation**, of sequences without wide characters:
    with the same result, or too long in either way. -/
theorem mul_succ {v : Value} (hv : isSequence v = true) (hnarrow : v.Narrow) {n m : Int64}
    (hn : 0 ≤ n.toInt) (hm : m.toInt = n.toInt + 1) :
    binary .mul v (.int m) = binary .mul v (.int n) >>= fun w => binary .add w v := by
  have hcount : m.toInt.toNat = n.toInt.toNat + 1 := by omega
  obtain ⟨w, hw⟩ := exists_copied n.toInt.toNat hv
  obtain ⟨w', hw'⟩ := exists_copied m.toInt.toNat hv
  have hjoined : Joined w v w' := hw.joined (hcount ▸ hw')
  have hadd := add_exact hjoined (hw.narrow hnarrow) hnarrow
  rw [(mul_exact hw').1, (mul_exact hw).1, hcount, Nat.mul_succ, ← hw.itemCount_eq]
  by_cases hfits : w.itemCount ≤ maxSequenceLength
  · rw [capped_of_le hfits, ← hadd]
    rfl
  · have hlong := Nat.lt_of_not_le hfits
    rw [capped_of_lt hlong, capped_of_lt (Nat.lt_of_lt_of_le hlong (Nat.le_add_right _ _))]
    rfl

/-! ### Wide characters -/

theorem copied_singleton (n : Nat) (c : Char) :
    Copied n (.str (String.singleton c)) (.str (String.ofList (List.replicate n c))) := by
  have h := Copied.str (n := n) (String.singleton c)
  rwa [String.toList_singleton, List.flatten_replicate_singleton] at h

theorem utf8ByteSize_replicate (n : Nat) (c : Char) :
    (String.ofList (List.replicate n c)).utf8ByteSize = n * c.utf8Size := by
  induction n with
  | zero => simp
  | succ n ih =>
    rw [List.replicate_succ', String.ofList_append, String.utf8ByteSize_append, ih,
      ← String.singleton_eq_ofList, String.utf8ByteSize_singleton, Nat.succ_mul]

/-- **Wide characters can be repeated to a length to which they cannot be joined**, not even
    with the empty string. -/
theorem wide_mul_add {c : Char} (hc : 1 < c.utf8Size) {n : Int64}
    (hlow : maxSequenceLength < n.toInt.toNat * 2) (hhigh : n.toInt.toNat ≤ maxSequenceLength) :
    ∃ w, binary .mul (.str (String.singleton c)) (.int n) = .ok w ∧
      binary .add w (.str "") = .error (.arithmetic .sequenceTooLong) := by
  have hcopied := copied_singleton n.toInt.toNat c
  have hjoined := Joined.str (String.ofList (List.replicate n.toInt.toNat c)) ""
  rw [String.append_empty] at hjoined
  refine ⟨.str (String.ofList (List.replicate n.toInt.toNat c)), ?_, ?_⟩
  · rw [(mul_exact hcopied).1]
    exact capped_of_le (by simpa using hhigh) _
  · rw [add_eq hjoined, joinedSize, utf8ByteSize_replicate]
    exact capped_of_lt (Nat.lt_of_lt_of_le hlow (Nat.mul_le_mul_left _ hc)) _

example : ∃ w, binary .mul (.str "é") (.int 524289) = .ok w ∧
    binary .add w (.str "") = .error (.arithmetic .sequenceTooLong) :=
  wide_mul_add (c := 'é') (by decide) (by decide) (by decide)

end Operators

end SafeExpr
