/-
  SafeExpr/Library/Fault.lean
  ===========================
  **How the functions of this library fail.**

  Each way to fail is a constructor; `Fault.message` is its wording.  The functions take
  apart their arguments with `intArg`, `doubleArg` and `Value.given`.
-/
import SafeExpr.Evaluation.Operators
import SafeExpr.Function.Native
import SafeExpr.Value.Render

namespace SafeExpr

inductive Fault where
  /-- An argument of another type than the function takes. -/
  | wrongType (function expected found : String)
  | value (e : ValueError)
  /-- An operator that the function applies has failed. -/
  | operator (function : String) (e : OperatorError)
  | overflow (function : String)
  | nanToInteger (function : String)
  | infinityToInteger (function : String)
  | floatToInteger (function : String) (x : Double)
  | zeroModulus
  | negativeExponent
  | noSuchCharacter
  | notOneCharacter (length : Nat)
  | notAFloat (text : String)
  | noIntegerText
  | baseOfNonString
  | badBase
  | notAnInteger (base : Int64) (text : String)
  | noLength (type : String)
  | noArguments (function : String)
  | emptySequence (function : String)
  | zeroStep
  | rangeTooLong
  | sumOfStrings
  | mathDomain
  | mathRange
  | logBaseOne
  | negativeTolerance
  | factorialOfFloat
  | factorialOfNegative
  /-- Fewer arguments than parameters; binding never leaves that. -/
  | unboundParameter (function : String)
deriving DecidableEq, Repr

namespace Fault

def message : Fault → String
  | wrongType function expected found =>
    function ++ "() expected " ++ expected ++ ", got '" ++ found ++ "'"
  | value e => e.message
  | operator function .divisionByZero => function ++ "(): division by zero"
  | operator function (.operands fault) => function ++ "(): " ++ fault.message
  | operator function (.arithmetic fault) => function ++ "(): " ++ fault.message
  | overflow function => function ++ "(): integer overflow"
  | nanToInteger function => function ++ "(): cannot convert float NaN to integer"
  | infinityToInteger function => function ++ "(): cannot convert float infinity to integer"
  | floatToInteger function x =>
    function ++ "(): cannot convert float " ++ (Value.float x).render ++ " to integer"
  | zeroModulus => "pow() 3rd argument cannot be 0"
  | negativeExponent => "pow() 2nd argument cannot be negative when 3rd argument specified"
  | noSuchCharacter => "chr() arg not in range(0x110000)"
  | notOneCharacter length =>
    "ord() expected a character, but string of length " ++ toString length ++ " found"
  | notAFloat text => "could not convert string to float: " ++ (Value.str text).render
  | noIntegerText => "int() missing string argument"
  | baseOfNonString => "int() can't convert non-string with explicit base"
  | badBase => "int() base must be >= 2 and <= 36, or 0"
  | notAnInteger base text =>
    "invalid literal for int() with base " ++ toString base.toInt ++ ": " ++
      (Value.str text).render
  | noLength type => "object of type '" ++ type ++ "' has no len()"
  | noArguments function => function ++ "() expected at least 1 argument, got 0"
  | emptySequence function => function ++ "() arg is an empty sequence"
  | zeroStep => "range() arg 3 must not be zero"
  | rangeTooLong =>
    "range() result exceeds the maximum sequence length of " ++ toString maxSequenceLength
  | sumOfStrings => "sum() can't sum strings [use ''.join(seq) instead]"
  | mathDomain => "math domain error"
  | mathRange => "math range error"
  | logBaseOne => "log(): division by zero"
  | negativeTolerance => "isclose(): tolerances must be non-negative"
  | factorialOfFloat => "factorial() only accepts integral values"
  | factorialOfNegative => "factorial() not defined for negative values"
  | unboundParameter function => function ++ "(): missing argument"

end Fault

namespace Library

/-- What a library function answers. -/
abbrev Answer := Except Fault Value

/-- A library function under its name. -/
def native (name : String) (signature : Signature) (f : List Value → Answer) :
    NativeFunction where
  name := name
  signature := signature
  supplier := .library
  run args :=
    match f args with
    | .ok v => .ok v
    | .error fault => .error { message := fault.message }

def intArg (function : String) (v : Value) : Except Fault Int64 :=
  match v.asInt with
  | some n => .ok n
  | none => .error (.wrongType function "an integer" v.typeName)

def doubleArg (function : String) (v : Value) : Except Fault Double :=
  match v.asDouble with
  | some x => .ok x
  | none => .error (.wrongType function "a number" v.typeName)

/-- An argument that may be omitted, taken apart if it is there. -/
def optionalArg {α : Type} (read : Value → Except Fault α) (v : Value) :
    Except Fault (Option α) :=
  match v.given with
  | some v => some <$> read v
  | none => .ok none

def itemsArg (v : Value) : Except Fault (List Value) :=
  match v.items with
  | .ok items => .ok items
  | .error e => .error (.value e)

/-- An exact result as a value, if it fits into 64 bits. -/
def exact (function : String) (n : Int) : Answer :=
  match fitInt64 n with
  | some m => .ok (.int m)
  | none => .error (.overflow function)

/-- An operator applied within a function. -/
def applied (function : String) (r : Except OperatorError Value) : Answer :=
  match r with
  | .ok v => .ok v
  | .error e => .error (.operator function e)

end Library

end SafeExpr
