/-
  SafeExpr/Proofs/Machine/Library.lean
  ====================================
  **The functions of the library on a machine.**

  A function looks up its arguments by index, up to the number of its parameters; binding
  has left a value for each.  Beyond that, most of them need no operation that may panic.
-/
import Mathlib.Data.List.Basic
import SafeExpr.Library.Math
import SafeExpr.Proofs.Machine.Builtins

namespace SafeExpr.Machine

open Library

/-! ### Definitions -/

/-- The greatest common divisor by repeated remainders. -/
def gcdLoop (a b : Nat) : Checked Nat :=
  if b = 0 then return a
  else do
    let _ ← IntType.u64.rem a b
    gcdLoop b (a % b)
termination_by b
decreasing_by exact Nat.mod_lt a (Nat.pos_of_ne_zero ‹_›)

def gcdFrom (found : Nat) : List Value → Checked Answer
  | [] => return Library.exact "gcd" found
  | v :: rest =>
    attempt (intArg "gcd" v) fun n => do gcdFrom (← gcdLoop found n.toInt.natAbs) rest

/-- The functions that do more on a machine than to look at their arguments. -/
def ownBody? : String → Option (List Value → Checked Answer)
  | "int" => some fun args => do int (← itemAt args 0) (← itemAt args 1)
  | "pow" => some fun args => do pow (← itemAt args 0) (← itemAt args 1) (← itemAt args 2)
  | "range" => some fun args => do range (← itemAt args 0) (← itemAt args 1) (← itemAt args 2)
  | "round" => some fun args => do round (← itemAt args 0) (← itemAt args 1)
  | "sum" => some fun args => do sum (← itemAt args 0) (← itemAt args 1)
  | "gcd" => some (gcdFrom 0)
  | _ => none

/-- What the caller of a function gets. -/
def report (answer : Answer) : Except BackendError Value :=
  match answer with
  | .ok v => .ok v
  | .error fault => .error { message := fault.message }

/-- A call of a library function: all arguments are looked up, then its body runs. -/
def call (f : NativeFunction) (args : List Value) : Checked (Except BackendError Value) := do
  let _ ← (List.range f.signature.params.length).mapM (itemAt args)
  match ownBody? f.name with
  | some body => report <$> body args
  | none => return f.run args

/-! ### Common divisors -/

theorem gcdLoop_eq {a b : Nat} (ha : a ≤ maxSize) (hb : b ≤ maxSize) :
    gcdLoop a b = .ok (MathModule.euclid a b) := by
  induction a, b using MathModule.euclid.induct with
  | case1 a =>
    rw [gcdLoop, MathModule.euclid, if_pos rfl, if_pos rfl]
    rfl
  | case2 a b h ih =>
    rw [gcdLoop, MathModule.euclid, if_neg h, if_neg h]
    have hquotient : IntType.u64.Holds ((a : Int).tdiv b) := by
      have hle : a / b ≤ maxSize := Nat.le_trans (Nat.div_le_self a b) ha
      exact ⟨Int.natCast_nonneg (a / b), Int.ofNat_le.mpr hle⟩
    rw [IntType.rem_eq (Int.natCast_ne_zero.mpr h) hquotient]
    exact ih hb (Nat.le_trans (Nat.mod_le a b) ha)

/-- No remainder is larger than what it is a remainder of. -/
theorem euclid_le {a b size : Nat} (ha : a ≤ size) (hb : b ≤ size) :
    MathModule.euclid a b ≤ size := by
  induction a, b using MathModule.euclid.induct with
  | case1 a =>
    rw [MathModule.euclid, if_pos rfl]
    exact ha
  | case2 a b h ih =>
    rw [MathModule.euclid, if_neg h]
    exact ih hb (Nat.le_trans (Nat.mod_le a b) ha)

theorem gcdFrom_gives {found : Nat} (hfound : found ≤ maxSize) (args : List Value) :
    Gives (gcdFrom found args) (MathModule.gcdFrom found args) := by
  induction args generalizing found with
  | nil => exact .of_eq rfl
  | cons v rest ih =>
    unfold gcdFrom MathModule.gcdFrom
    cases intArg "gcd" v with
    | error fault => exact .of_eq rfl
    | ok n =>
      have hmagnitude : n.toInt.natAbs ≤ maxSize :=
        Nat.le_trans (natAbs_toInt_le n) (by decide)
      exact Gives.bind (.of_eq (gcdLoop_eq hfound hmagnitude)) (ih (euclid_le hfound hmagnitude))

/-! ### Calls -/

/-- So many arguments may reach a function: one for each parameter, and surplus ones only
    if it takes them. -/
def Takes (s : Signature) (n : Nat) : Prop :=
  s.params.length ≤ n ∧ (s.variadic = false → n = s.params.length)

section Calls

variable {f : NativeFunction} {args : List Value}

theorem mapM_itemAt {n : Nat} (h : n ≤ args.length) :
    (List.range n).mapM (itemAt args) = .ok ((List.range n).map fun i => args.getD i .none) := by
  refine mapM_eq_map fun i hi => itemAt_eq ?_
  have hlt : i < args.length := Nat.lt_of_lt_of_le (List.mem_range.mp hi) h
  rw [List.getD_eq_getElem?_getD, List.getElem?_eq_getElem hlt]
  rfl

/-- Most functions only look at their arguments. -/
theorem call_of_none (hbody : ownBody? f.name = none) (htakes : Takes f.signature args.length) :
    Gives (call f args) (f.run args) := by
  rw [call, mapM_itemAt htakes.1, hbody]
  exact .of_eq rfl

/-- The others do, on a machine, what they are said to do. -/
theorem call_of_some {body : List Value → Checked Answer} {answer : Answer}
    (hbody : ownBody? f.name = some body) (htakes : Takes f.signature args.length)
    (hrun : f.run args = report answer) (h : Gives (body args) answer) :
    Gives (call f args) (f.run args) := by
  rw [call, mapM_itemAt htakes.1, hbody, hrun]
  exact h.map report

variable {name : String} {s : Signature}

theorem call_two {g : Value → Value → Checked Answer} {g' : Value → Value → Answer}
    (hbody : ownBody? name = some fun args => do g (← itemAt args 0) (← itemAt args 1))
    (hparams : s.params.length = 2) (hvariadic : s.variadic = false)
    (h : ∀ a b, Gives (g a b) (g' a b)) (htakes : Takes s args.length) :
    Gives (call (native name s (Builtins.binary name g')) args)
      ((native name s (Builtins.binary name g')).run args) := by
  obtain ⟨a, b, rfl⟩ : ∃ a b, args = [a, b] :=
    List.length_eq_two.mp ((htakes.2 hvariadic).trans hparams)
  exact call_of_some hbody htakes rfl (h a b)

theorem call_three {g : Value → Value → Value → Checked Answer}
    {g' : Value → Value → Value → Answer}
    (hbody : ownBody? name = some fun args => do
      g (← itemAt args 0) (← itemAt args 1) (← itemAt args 2))
    (hparams : s.params.length = 3) (hvariadic : s.variadic = false)
    (h : ∀ a b c, Gives (g a b c) (g' a b c)) (htakes : Takes s args.length) :
    Gives (call (native name s (Builtins.ternary name g')) args)
      ((native name s (Builtins.ternary name g')).run args) := by
  obtain ⟨a, b, c, rfl⟩ : ∃ a b c, args = [a, b, c] :=
    List.length_eq_three.mp ((htakes.2 hvariadic).trans hparams)
  exact call_of_some hbody htakes rfl (h a b c)

end Calls

/-- **No function of the library panics.** -/
theorem call_gives {f : NativeFunction} (hf : f ∈ builtins ++ MathModule.functions)
    {args : List Value} (htakes : Takes f.signature args.length) :
    Gives (call f args) (f.run args) := by
  simp only [builtins, MathModule.functions, List.cons_append, List.nil_append, List.mem_cons,
    List.not_mem_nil, or_false] at hf
  rcases hf with rfl | rfl | rfl | rfl | rfl | rfl | rfl | rfl | rfl | rfl | rfl | rfl | rfl | rfl |
    rfl | rfl | rfl | rfl | rfl | rfl | rfl | rfl | rfl | rfl | rfl | rfl | rfl | rfl | rfl | rfl |
    rfl | rfl | rfl | rfl | rfl | rfl | rfl | rfl | rfl | rfl | rfl | rfl | rfl | rfl
  all_goals first
    | exact call_of_none rfl htakes
    | exact call_two rfl rfl rfl int_gives htakes
    | exact call_three rfl rfl rfl pow_gives htakes
    | exact call_three rfl rfl rfl range_gives htakes
    | exact call_two rfl rfl rfl round_eq htakes
    | exact call_two rfl rfl rfl sum_gives htakes
    | exact call_of_some rfl htakes rfl (gcdFrom_gives (Nat.zero_le _) args)

end SafeExpr.Machine
