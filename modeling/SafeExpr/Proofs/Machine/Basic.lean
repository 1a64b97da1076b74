/-
  SafeExpr/Proofs/Machine/Basic.lean
  ==================================
  **Integers of fixed width, indices, and what stops a program dead.**

  The functions of this library compute with exact numbers and take lists apart by their
  constructors.  A program on a machine has integers of a fixed width, looks into slices by
  index and cuts texts at byte offsets.  Where one of these goes wrong it does not report an
  error of the expression: it panics.

  The modules of this part redo, with such operations, every function that needs them
  (`Machine.…`), and prove that they come to the same results without a panic.  The one
  thing that may keep them from a result is that the memory does not hold a string or a list.
-/
import SafeExpr.Proofs.Syntax.Placed

namespace SafeExpr.Machine

/-! ### Outcomes -/

/-- What stops a program dead. -/
inductive Panic where
  /-- A case that the program takes to be impossible. -/
  | unreachable
  /-- Reading by precedence finds no operand, or no operator, where one has to be. -/
  | expectedOperand | expectedOperator
  /-- An index outside of a slice. -/
  | index
  /-- A text cut outside of it, or within a character. -/
  | slice
  /-- Digits in a radix that is not between 2 and 36. -/
  | radix
  | overflow
  | divisionByZero
deriving DecidableEq, Repr

/-- Why there is no result. -/
inductive Halt where
  | panic (p : Panic)
  | outOfMemory
deriving DecidableEq, Repr

/-- A computation on a machine. -/
abbrev Checked (α : Type) := Except Halt α

def panic {α : Type} (p : Panic) : Checked α := .error (.panic p)

/-- The computation comes to `a`, unless the memory is too small. -/
def Gives {α : Type} (m : Checked α) (a : α) : Prop := m = .ok a ∨ m = .error .outOfMemory

section Gives

variable {α β : Type} {m : Checked α} {a : α} {b : β}

theorem Gives.of_eq (h : m = .ok a) : Gives m a := Or.inl h

theorem Gives.bind {k : α → Checked β} (hm : Gives m a) (hk : Gives (k a) b) :
    Gives (m >>= k) b := by
  rcases hm with rfl | rfl
  · exact hk
  · exact Or.inr rfl

theorem Gives.map (f : α → β) (hm : Gives m a) : Gives (f <$> m) (f a) := by
  rcases hm with rfl | rfl
  · exact Or.inl rfl
  · exact Or.inr rfl

theorem Gives.ne_panic (h : Gives m a) (p : Panic) : m ≠ panic p := by
  intro hpanic
  rcases h with rfl | rfl
  · cases hpanic
  · cases hpanic

end Gives

/-! ### Signed integers and those of a given width -/

/-- A type of machine integers. -/
structure IntType where
  min : Int
  max : Int

namespace IntType

def i64 : IntType := ⟨-9223372036854775808, 9223372036854775807⟩

def i128 : IntType :=
  ⟨-170141183460469231731687303715884105728, 170141183460469231731687303715884105727⟩

def u32 : IntType := ⟨0, 4294967295⟩

def u64 : IntType := ⟨0, 18446744073709551615⟩

/-- Is the number one of the type? -/
def Holds (ty : IntType) (n : Int) : Prop := ty.min ≤ n ∧ n ≤ ty.max

instance (ty : IntType) (n : Int) : Decidable (ty.Holds n) := inferInstanceAs (Decidable (_ ∧ _))

/-- The operations that answer nothing where the result is out of range. -/
def fit? (ty : IntType) (n : Int) : Option Int := if ty.Holds n then some n else none

/-- The operations that panic where the result is out of range. -/
def fit (ty : IntType) (n : Int) : Checked Int :=
  if ty.Holds n then .ok n else panic .overflow

def add (ty : IntType) (a b : Int) : Checked Int := ty.fit (a + b)

def sub (ty : IntType) (a b : Int) : Checked Int := ty.fit (a - b)

def mul (ty : IntType) (a b : Int) : Checked Int := ty.fit (a * b)

def neg (ty : IntType) (a : Int) : Checked Int := ty.fit (-a)

/-- The remainder that has the sign of `a`; it fails where the quotient does not fit. -/
def rem (ty : IntType) (a b : Int) : Checked Int :=
  if b = 0 then panic .divisionByZero
  else do
    let _ ← ty.fit (a.tdiv b)
    return a.tmod b

/-- The quotient that leaves a remainder of at least zero. -/
def divEuclid (ty : IntType) (a b : Int) : Checked Int :=
  if b = 0 then panic .divisionByZero else ty.fit (a / b)

/-- The remainder that is at least zero; it fails where the quotient does not fit. -/
def remEuclid (ty : IntType) (a b : Int) : Checked Int := do
  let _ ← ty.divEuclid a b
  return a % b

/-- Shifts of 64 bits, to the left and to the right, by less than that. -/
def shiftLeft (a n : Int) : Checked Int :=
  if 0 ≤ n ∧ n < 64 then .ok ((a * Int.pow 2 n.toNat).bmod 18446744073709551616)
  else panic .overflow

def shiftRight (a n : Int) : Checked Int :=
  if 0 ≤ n ∧ n < 64 then .ok (a >>> n.toNat) else panic .overflow

variable {ty : IntType} {a b n : Int}

theorem holds_i64 : i64.Holds n ↔ -9223372036854775808 ≤ n ∧ n ≤ 9223372036854775807 := Iff.rfl

theorem holds_i128 : i128.Holds n ↔ -170141183460469231731687303715884105728 ≤ n ∧
    n ≤ 170141183460469231731687303715884105727 := Iff.rfl

theorem fit_eq (h : ty.Holds n) : ty.fit n = .ok n := by
  rw [fit, if_pos h]

theorem add_eq (h : ty.Holds (a + b)) : ty.add a b = .ok (a + b) := fit_eq h

theorem sub_eq (h : ty.Holds (a - b)) : ty.sub a b = .ok (a - b) := fit_eq h

theorem mul_eq (h : ty.Holds (a * b)) : ty.mul a b = .ok (a * b) := fit_eq h

theorem rem_eq (hb : b ≠ 0) (h : ty.Holds (a.tdiv b)) : ty.rem a b = .ok (a.tmod b) := by
  rw [rem, if_neg hb, fit_eq h]
  rfl

theorem divEuclid_eq (hb : b ≠ 0) (h : ty.Holds (a / b)) : ty.divEuclid a b = .ok (a / b) := by
  rw [divEuclid, if_neg hb, fit_eq h]

theorem remEuclid_eq (hb : b ≠ 0) (h : ty.Holds (a / b)) : ty.remEuclid a b = .ok (a % b) := by
  rw [remEuclid, divEuclid_eq hb h]
  rfl

end IntType

/-! ### Sizes -/

/-- The largest number of bytes, or of items, that anything in memory has. -/
def maxBytes : Nat := 9223372036854775807

/-- The largest size, on a machine of 64 bits. -/
def maxSize : Nat := 18446744073709551615

/-- The length of something in memory. -/
def lengthInMemory (n : Nat) : Checked Nat :=
  if n ≤ maxBytes then .ok n else .error .outOfMemory

/-- A size, if it is one. -/
def size (n : Nat) : Checked Nat := if n ≤ maxSize then .ok n else panic .overflow

def addSize (a b : Nat) : Checked Nat := size (a + b)

def subSize (a b : Nat) : Checked Nat := if b ≤ a then .ok (a - b) else panic .overflow

def mulSize (a b : Nat) : Checked Nat := size (a * b)

section Sizes

variable {a b n : Nat}

theorem size_eq (h : n ≤ maxSize) : size n = .ok n := by
  rw [size, if_pos h]

theorem addSize_eq (h : a + b ≤ maxSize) : addSize a b = .ok (a + b) := size_eq h

theorem mulSize_eq (h : a * b ≤ maxSize) : mulSize a b = .ok (a * b) := size_eq h

theorem subSize_eq (h : b ≤ a) : subSize a b = .ok (a - b) := by
  rw [subSize, if_pos h]

end Sizes

/-! ### Slices and texts -/

section Slices

variable {α : Type}

/-- The item at an index. -/
def itemAt (xs : List α) (i : Nat) : Checked α :=
  match xs[i]? with
  | some x => .ok x
  | none => panic .index

/-- Another item at an index. -/
def setAt (xs : List α) (i : Nat) (x : α) : Checked (List α) :=
  if i < xs.length then .ok (xs.set i x) else panic .index

theorem itemAt_eq {xs : List α} {i : Nat} {x : α} (h : xs[i]? = some x) : itemAt xs i = .ok x := by
  rw [itemAt, h]

theorem setAt_eq {xs : List α} {i : Nat} (h : i < xs.length) (x : α) :
    setAt xs i x = .ok (xs.set i x) := by
  rw [setAt, if_pos h]

end Slices

/-- A text in two parts, the first one of `n` bytes. -/
def splitText : Nat → List Char → Checked (List Char × List Char)
  | 0, cs => .ok ([], cs)
  | _ + 1, [] => panic .slice
  | n + 1, c :: cs =>
    if c.utf8Size ≤ n + 1 then do
      let (front, back) ← splitText (n + 1 - c.utf8Size) cs
      return (c :: front, back)
    else panic .slice

theorem splitText_append (cs ds : List Char) :
    splitText (byteLength cs) (cs ++ ds) = .ok (cs, ds) := by
  induction cs with
  | nil => simp [splitText]
  | cons c cs ih =>
    have hc := c.utf8Size_pos
    obtain ⟨n, hn⟩ : ∃ n, byteLength (c :: cs) = n + 1 :=
      ⟨_, (Nat.succ_pred_eq_of_pos (by rw [byteLength_cons]; omega)).symm⟩
    have hrest : n + 1 - c.utf8Size = byteLength cs := by
      rw [byteLength_cons] at hn
      omega
    have hle : c.utf8Size ≤ n + 1 := by
      rw [byteLength_cons] at hn
      omega
    rw [hn, List.cons_append, splitText, if_pos hle, hrest, ih]
    rfl

/-- The bytes of a text from one offset up to another. -/
def sliceText (start stop : Nat) (cs : List Char) : Checked (List Char) := do
  let (front, _) ← splitText stop cs
  let (_, back) ← splitText start front
  return back

theorem sliceText_append (cs ds es : List Char) :
    sliceText (byteLength cs) (byteLength (cs ++ ds)) (cs ++ ds ++ es) = .ok ds := by
  rw [sliceText, splitText_append]
  change (do
    let (_, back) ← splitText (byteLength cs) (cs ++ ds)
    return back) = Except.ok ds
  rw [splitText_append]
  rfl

end SafeExpr.Machine
