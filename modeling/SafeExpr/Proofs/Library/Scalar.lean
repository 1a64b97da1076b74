/-
  SafeExpr/Proofs/Library/Scalar.lean
  ===================================
  **Operators and library functions that answer with a scalar.**

  Arithmetic does, and so do most of the general functions and all of the math module,
  whatever they are given.  Where a property holds of every scalar, there is nothing more to
  say of these about it.
-/
import SafeExpr.Library.Math
import SafeExpr.Proofs.Except

namespace SafeExpr

open Except (Ensures)

/-- Neither a text nor a container. -/
inductive Value.IsScalar : Value → Prop
  | none : IsScalar none
  | bool (b : Bool) : IsScalar (bool b)
  | int (n : Int64) : IsScalar (int n)
  | float (x : Double) : IsScalar (float x)

open Value (IsScalar)

namespace Operators

/-! ### Operators on numbers -/

theorem exact_scalar (n : Int) : (exact n).Ensures IsScalar := by
  unfold exact
  split
  · exact .int _
  · trivial

theorem unary_scalar (op : UnaryOp) (v : Value) : (unary op v).Ensures IsScalar := by
  unfold unary
  split
  · exact .bool _
  · exact exact_scalar _
  · exact .float _
  · exact .int _
  · exact .float _
  · exact .int _
  · trivial

theorem bitwise_scalar (op : BinaryOp) (a b : Int64) : (bitwise op a b).Ensures IsScalar := by
  unfold bitwise
  split
  · exact .int _
  · exact .int _
  · exact .int _
  · split
    · trivial
    · dsimp only
      split
      · exact exact_scalar _
      · exact exact_scalar _

theorem intArithmetic_scalar (op : BinaryOp) (a b : Int64) :
    (intArithmetic op a b).Ensures IsScalar := by
  unfold intArithmetic intPower
  dsimp only
  repeat' split
  all_goals first
    | exact exact_scalar _
    | exact .float _
    | trivial

theorem floatArithmetic_scalar (op : BinaryOp) (x y : Double) :
    (floatArithmetic op x y).Ensures IsScalar := by
  unfold floatArithmetic floatPower
  dsimp only
  repeat' split
  all_goals first
    | exact .float _
    | trivial

theorem numeric_scalar (op : BinaryOp) (v w : Value) : (numeric op v w).Ensures IsScalar := by
  unfold numeric
  dsimp only
  split
  · split
    · exact bitwise_scalar _ _ _
    · trivial
  · split
    · exact intArithmetic_scalar _ _ _
    · exact floatArithmetic_scalar _ _ _
    · trivial

/-- There are powers of numbers only. -/
theorem binary_pow (v w : Value) : binary .pow v w = numeric .pow v w := by
  unfold binary
  split
  · contradiction
  · contradiction
  · contradiction
  · contradiction
  · rfl
  · rfl
  · rfl

end Operators

namespace Library

/-! ### Answers of library functions -/

variable {P Q : Value → Prop} {name : String} {args : List Value}

theorem exact_scalar (function : String) (n : Int) : (exact function n).Ensures IsScalar := by
  unfold exact
  split
  · exact .int _
  · trivial

theorem applied_ensures {function : String} {r : Except OperatorError Value} (h : r.Ensures Q) :
    (applied function r).Ensures Q := by
  cases r with
  | ok v => exact h
  | error e => trivial

/-- A function answers what its definition says, or reports the fault. -/
theorem native_ensures {signature : Signature} {f : List Value → Answer} (h : (f args).Ensures Q) :
    ((native name signature f).run args).Ensures Q := by
  simp only [native]
  split
  · next heq => exact h.of_ok heq
  · trivial

theorem unary_ensures {f : Value → Answer} (h : ∀ v, P v → (f v).Ensures Q)
    (hargs : ∀ v ∈ args, P v) : (Builtins.unary name f args).Ensures Q := by
  unfold Builtins.unary
  split
  · exact h _ (hargs _ (by simp))
  · trivial

theorem binary_ensures {f : Value → Value → Answer} (h : ∀ v w, P v → P w → (f v w).Ensures Q)
    (hargs : ∀ v ∈ args, P v) : (Builtins.binary name f args).Ensures Q := by
  unfold Builtins.binary
  split
  · exact h _ _ (hargs _ (by simp)) (hargs _ (by simp))
  · trivial

theorem ternary_ensures {f : Value → Value → Value → Answer}
    (h : ∀ u v w, P u → P v → P w → (f u v w).Ensures Q)
    (hargs : ∀ v ∈ args, P v) : (Builtins.ternary name f args).Ensures Q := by
  unfold Builtins.ternary
  split
  · exact h _ _ _ (hargs _ (by simp)) (hargs _ (by simp)) (hargs _ (by simp))
  · trivial

end Library

namespace Builtins

open Library

/-! ### General functions -/

theorem abs_scalar (v : Value) : (abs v).Ensures IsScalar := by
  unfold abs
  split
  · exact exact_scalar _ _
  · exact .float _
  · trivial

theorem ord_scalar (v : Value) : (ord v).Ensures IsScalar := by
  unfold ord
  split
  · trivial
  · split
    · exact .int _
    · trivial

theorem integerOf_scalar (function : String) (x : Double) :
    (integerOf function x).Ensures IsScalar := by
  unfold integerOf
  split
  · trivial
  · split
    · trivial
    · exact exact_scalar _ _

theorem float_scalar (v : Value) : (float v).Ensures IsScalar := by
  unfold float
  split
  · exact .float _
  · split
    · exact .float _
    · trivial
  · exact .then fun _ => .float _

theorem intOfText_scalar (text : String) (base : Int64) :
    (intOfText text base).Ensures IsScalar := by
  unfold intOfText
  split
  · trivial
  · split
    · exact .int _
    · trivial

theorem int_scalar (v base : Value) : (int v base).Ensures IsScalar := by
  refine .then fun base => ?_
  split
  · exact .int _
  · trivial
  · exact intOfText_scalar _ _
  · trivial
  · split
    · exact .int _
    · exact integerOf_scalar _ _
    · trivial

theorem roundInt_scalar (n : Int64) (digits : Int) : (roundInt n digits).Ensures IsScalar := by
  unfold roundInt
  split
  · exact .int _
  · split
    · exact .int _
    · exact exact_scalar _ _

theorem round_scalar (v digits : Value) : (round v digits).Ensures IsScalar := by
  refine .then fun digits => ?_
  split
  · exact .int _
  · exact roundInt_scalar _ _
  · exact integerOf_scalar _ _
  · exact .float _
  · trivial

theorem len_scalar (v : Value) : (len v).Ensures IsScalar := by
  unfold len
  split
  · exact .int _
  · trivial

theorem powerModulo_scalar (b e m : Int64) : (powerModulo b e m).Ensures IsScalar := by
  unfold powerModulo
  split
  · trivial
  · split
    · trivial
    · exact exact_scalar _ _

theorem pow_scalar (base exponent modulus : Value) :
    (pow base exponent modulus).Ensures IsScalar := by
  unfold pow
  split
  · rw [Operators.binary_pow]
    exact applied_ensures (Operators.numeric_scalar .pow base exponent)
  · exact .then fun b => .then fun e => .then fun m => powerModulo_scalar b e m

end Builtins

namespace MathModule

open Library

/-! ### The math module -/

variable {args : List Value}

theorem ofDouble_scalar (name : String) (f : Double → Except Fault Double) :
    ((ofDouble name f).run args).Ensures IsScalar :=
  native_ensures (unary_ensures (fun _ _ => .then fun _ => .then fun _ => .float _)
    fun _ _ => trivial)

theorem testOfDouble_scalar (name : String) (test : Double → Bool) :
    ((testOfDouble name test).run args).Ensures IsScalar :=
  native_ensures (unary_ensures (fun _ _ => .then fun _ => .bool _) fun _ _ => trivial)

theorem log_scalar (x base : Value) : (log x base).Ensures IsScalar := by
  refine .then fun x => .then fun ln => ?_
  split
  · exact .float _
  · refine .then fun base => .then fun baseLn => ?_
    dsimp only
    split
    · trivial
    · exact .float _

theorem hypotFrom_scalar (total : Double) (args : List Value) :
    (hypotFrom total args).Ensures IsScalar := by
  induction args generalizing total with
  | nil => exact .float _
  | cons v rest ih =>
    unfold hypotFrom
    split
    · exact ih _
    · trivial

theorem isclose_scalar (a b relative absolute : Value) :
    (isclose a b relative absolute).Ensures IsScalar := by
  refine .then fun a => .then fun b => .then fun relative => .then fun absolute => ?_
  dsimp only
  split
  · trivial
  · split
    · exact .bool _
    · split
      · exact .bool _
      · exact .bool _

theorem toIntegral_scalar (function : String) (f : Double → Double) (v : Value) :
    (toIntegral function f v).Ensures IsScalar := by
  unfold toIntegral
  split
  · exact .int _
  · split
    · exact exact_scalar _ _
    · trivial
  · trivial

theorem gcdFrom_scalar (found : Nat) (args : List Value) :
    (gcdFrom found args).Ensures IsScalar := by
  induction args generalizing found with
  | nil => exact exact_scalar _ _
  | cons v rest ih =>
    unfold gcdFrom
    split
    · exact ih _
    · trivial

theorem factorial_scalar (v : Value) : (factorial v).Ensures IsScalar := by
  unfold factorial
  split
  · trivial
  · refine .then fun n => ?_
    dsimp only
    split
    · trivial
    · split
      · trivial
      · exact exact_scalar _ _

/-- **Every function of the math module answers with a scalar.** -/
theorem functions_scalar :
    ∀ f ∈ functions, ∀ args, (f.run args).Ensures IsScalar := by
  have hunary : ∀ {name signature f}, (∀ v, (f v).Ensures IsScalar) → ∀ args,
      ((native name signature (Builtins.unary name f)).run args).Ensures IsScalar :=
    fun h _ => native_ensures (unary_ensures (fun v _ => h v) fun _ _ => trivial)
  have hbinary : ∀ {name signature f}, (∀ v w, (f v w).Ensures IsScalar) → ∀ args,
      ((native name signature (Builtins.binary name f)).run args).Ensures IsScalar :=
    fun h _ => native_ensures (binary_ensures (fun v w _ _ => h v w) fun _ _ => trivial)
  simp only [functions, List.forall_mem_cons]
  refine ⟨?sqrt, ?exp, ?log, ?log2, ?log10, ?sin, ?cos, ?tan, ?asin, ?acos, ?atan, ?atan2,
    ?hypot, ?floor, ?ceil, ?trunc, ?fabs, ?degrees, ?radians, ?isclose, ?isfinite, ?isnan, ?gcd,
    ?factorial, List.forall_mem_nil _⟩
  case log => exact hbinary log_scalar
  case atan2 => exact hbinary fun _ _ => .then fun _ => .then fun _ => .float _
  case hypot => exact fun args => native_ensures (hypotFrom_scalar _ args)
  case floor | ceil | trunc => exact hunary (toIntegral_scalar _ _)
  case isclose =>
    intro args
    refine native_ensures ?_
    split
    · exact isclose_scalar _ _ _ _
    · trivial
  case isfinite | isnan => exact fun _ => testOfDouble_scalar _ _
  case gcd => exact fun args => native_ensures (gcdFrom_scalar 0 args)
  case factorial => exact hunary factorial_scalar
  all_goals exact fun _ => ofDouble_scalar _ _

end MathModule

end SafeExpr
