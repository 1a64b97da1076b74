/-
  SafeExpr/Library/Math.lean
  ==========================
  **The math module.**

  Constants `pi e tau inf nan`, and functions on floats and on integers.  A function
  that is not defined for its argument fails; it does not answer with a NaN.
-/
import SafeExpr.Library.Builtins
import SafeExpr.Namespace.Module

namespace SafeExpr

open Library

namespace MathModule

/-! ### Constants -/

def pi : Double := ⟨0x400921fb54442d18⟩
def e : Double := ⟨0x4005bf0a8b145769⟩
def tau : Double := ⟨0x401921fb54442d18⟩

def one : Double := .ofInt 1
def halfTurn : Double := .ofInt 180

/-! ### Functions of floats -/

/-- `r`, if the function is defined at the argument. -/
def inDomain (defined : Bool) (r : Double) : Except Fault Double :=
  if defined then .ok r else .error .mathDomain

/-- Positive, or a NaN. -/
def isPositive (x : Double) : Bool := Double.zero.lt x || x.isNaN

def sqrt (x : Double) : Except Fault Double :=
  inDomain (Double.zero.le x || x.isNaN) x.sqrt

def exp (x : Double) : Except Fault Double :=
  let r := x.lift Float.exp
  if r.isInfinite && x.isFinite then .error .mathRange else .ok r

/-- A logarithm, defined for positive numbers. -/
def logarithm (f : Float → Float) (x : Double) : Except Fault Double :=
  inDomain (isPositive x) (x.lift f)

/-- A function that is not defined at the infinities. -/
def periodic (f : Float → Float) (x : Double) : Except Fault Double :=
  inDomain (!x.isInfinite) (x.lift f)

/-- A function that is defined between minus one and one. -/
def inverse (f : Float → Float) (x : Double) : Except Fault Double :=
  inDomain ((one.neg.le x && x.le one) || x.isNaN) (x.lift f)

/-- A function of one float under its name. -/
def ofDouble (name : String) (f : Double → Except Fault Double) : NativeFunction :=
  native name (.positional 1) (Builtins.unary name fun v => do
    return .float (← f (← doubleArg name v)))

def log (x base : Value) : Answer := do
  let ln ← logarithm Float.log (← doubleArg "log" x)
  match base.given with
  | none => return .float ln
  | some base =>
    let baseLn ← logarithm Float.log (← doubleArg "log" base)
    if baseLn.eq .zero then throw .logBaseOne
    return .float (ln.div baseLn)

def atan2 (y x : Value) : Answer := do
  let y ← doubleArg "atan2" y
  let x ← doubleArg "atan2" x
  return .float (Double.lift₂ Float.atan2 y x)

/-- The length of a vector, from `total` on, one coordinate after the other. -/
def hypotFrom (total : Double) : List Value → Answer
  | [] => .ok (.float total)
  | v :: rest =>
    match doubleArg "hypot" v with
    | .ok x => hypotFrom (total.hypot x) rest
    | .error fault => .error fault

def isclose (a b relative absolute : Value) : Answer := do
  let a ← doubleArg "isclose" a
  let b ← doubleArg "isclose" b
  let relative ← optionalArg (doubleArg "isclose") relative
  let absolute ← optionalArg (doubleArg "isclose") absolute
  let relative := relative.getD (.ofRatio false 1 1000000000)
  let absolute := absolute.getD .zero
  if relative.lt .zero || absolute.lt .zero then throw .negativeTolerance
  if a.eq b then return .bool true
  if a.isInfinite || b.isInfinite then return .bool false
  let gap := (a.sub b).abs
  return .bool (gap.le (relative.mul b).abs || gap.le (relative.mul a).abs || gap.le absolute)

/-! ### Functions with integral results -/

/-- Integers pass unchanged; floats are rounded by `f` to an integer of 64 bits. -/
def toIntegral (function : String) (f : Double → Double) (v : Value) : Answer :=
  match v.asNumber with
  | some (.int n) => .ok (.int n)
  | some (.float x) =>
    if x.isFinite then exact function (f x).truncToInt else .error (.floatToInteger function x)
  | none => .error (.wrongType function "a number" v.typeName)

/-- Euclid's algorithm: each number gives way to the remainder by the next, until there is
    none. -/
def euclid (a b : Nat) : Nat :=
  if b = 0 then a else euclid b (a % b)
termination_by b
decreasing_by exact Nat.mod_lt a (Nat.pos_of_ne_zero ‹_›)

/-- The greatest common divisor of `found` and the integers. -/
def gcdFrom (found : Nat) : List Value → Answer
  | [] => exact "gcd" found
  | v :: rest =>
    match intArg "gcd" v with
    | .ok n => gcdFrom (euclid found n.toInt.natAbs) rest
    | .error fault => .error fault

def factorialOf : Nat → Nat
  | 0 => 1
  | n + 1 => (n + 1) * factorialOf n

/-- Beyond this number factorials do not fit into 64 bits. -/
def maxFactorial : Nat := 20

def factorial (v : Value) : Answer :=
  match v with
  | .float _ => .error .factorialOfFloat
  | v => do
    let n ← intArg "factorial" v
    if n < 0 then throw .factorialOfNegative
    if maxFactorial < n.toInt.toNat then throw (.overflow "factorial")
    exact "factorial" (factorialOf n.toInt.toNat)

/-- A test of one float under its name. -/
def testOfDouble (name : String) (test : Double → Bool) : NativeFunction :=
  native name (.positional 1) (Builtins.unary name fun v => do
    return .bool (test (← doubleArg name v)))

def functions : List NativeFunction :=
  let integral (name : String) (f : Double → Double) : NativeFunction :=
    native name (.positional 1) (Builtins.unary name (toIntegral name f))
  [ ofDouble "sqrt" sqrt,
    ofDouble "exp" exp,
    native "log"
      { params := [⟨"x", .required⟩, ⟨"base", .optional⟩], positionalOnly := 2 }
      (Builtins.binary "log" log),
    ofDouble "log2" (logarithm Float.log2),
    ofDouble "log10" (logarithm Float.log10),
    ofDouble "sin" (periodic Float.sin),
    ofDouble "cos" (periodic Float.cos),
    ofDouble "tan" (periodic Float.tan),
    ofDouble "asin" (inverse Float.asin),
    ofDouble "acos" (inverse Float.acos),
    ofDouble "atan" (fun x => .ok (x.lift Float.atan)),
    native "atan2" (.positional 2) (Builtins.binary "atan2" atan2),
    native "hypot" .anyNumber (hypotFrom .zero),
    integral "floor" Double.floor,
    integral "ceil" Double.ceil,
    integral "trunc" Double.trunc,
    ofDouble "fabs" (fun x => .ok x.abs),
    ofDouble "degrees" (fun x => .ok (x.mul (halfTurn.div pi))),
    ofDouble "radians" (fun x => .ok (x.mul (pi.div halfTurn))),
    native "isclose"
      { params := [⟨"a", .required⟩, ⟨"b", .required⟩, ⟨"rel_tol", .optional⟩,
          ⟨"abs_tol", .optional⟩]
        positionalOnly := 2 }
      (fun
        | [a, b, relative, absolute] => isclose a b relative absolute
        | _ => .error (.unboundParameter "isclose")),
    testOfDouble "isfinite" Double.isFinite,
    testOfDouble "isnan" Double.isNaN,
    native "gcd" .anyNumber (gcdFrom 0),
    native "factorial" (.positional 1) (Builtins.unary "factorial" factorial) ]

end MathModule

open MathModule in
/-- The math module; it exports everything that it holds. -/
def mathModule : Module :=
  let constants : Module :=
    [("pi", pi), ("e", e), ("tau", tau), ("inf", .infinity), ("nan", .nan)].foldl
      (fun m (name, x) => m.constant name (.float x)) { name := "math" }
  (functions.foldl Module.function constants).declareAll

end SafeExpr
