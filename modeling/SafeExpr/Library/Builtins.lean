/-
  SafeExpr/Library/Builtins.lean
  ==============================
  **The general functions.**

  `abs all any bin bool chr float hex int len max min oct ord pow range round sorted str
  sum`: those that every namespace has unless it declines them.  Each is a function on
  values of its own (`Builtins.abs`, …); `builtins` gives them names and signatures.
-/
import SafeExpr.Library.Fault
import SafeExpr.Parse.Literal
import SafeExpr.Text.Blank
import SafeExpr.Value.Sort

namespace SafeExpr

open Library

namespace Builtins

/-! ### Numbers -/

def abs (v : Value) : Answer :=
  match v.asNumber with
  | some (.int n) => exact "abs" n.toInt.natAbs
  | some (.float x) => .ok (.float x.abs)
  | none => .error (.wrongType "abs" "a number" v.typeName)

/-- Sign, then the mark of the radix, then the digits of the absolute value. -/
def radixText (mark : String) (radix : Nat) (n : Int64) : String :=
  (if n < 0 then "-" else "") ++ mark ++ String.ofList (Nat.toDigits radix n.toInt.natAbs)

def inRadix (function mark : String) (radix : Nat) (v : Value) : Answer := do
  return .str (radixText mark radix (← intArg function v))

/-- `b ^ e` modulo `m` by squaring, times `r`; `fuel` bounds the bits of `e`. -/
def powerLoop (m : Int) : Nat → Int → Nat → Int → Int
  | 0, _, _, r => r
  | fuel + 1, b, e, r =>
    if e = 0 then r
    else powerLoop m fuel (b * b % m) (e / 2) (if e % 2 = 1 then r * b % m else r)

/-- Modular exponentiation; the result has the sign of the modulus. -/
def powerModulo (b e m : Int64) : Answer :=
  if m = 0 then .error .zeroModulus
  else if e < 0 then .error .negativeExponent
  else
    let r := powerLoop m.toInt 64 (b.toInt % m.toInt) e.toInt.toNat 1
    exact "pow" (if m < 0 && 0 < r then r + m.toInt else r)

def pow (base exponent modulus : Value) : Answer :=
  match modulus.given with
  | none => applied "pow" (Operators.binary .pow base exponent)
  | some modulus => do
    let b ← intArg "pow" base
    let e ← intArg "pow" exponent
    let m ← intArg "pow" modulus
    powerModulo b e m

/-- The integer that a double holds, if it is one of 64 bits. -/
def integerOf (function : String) (x : Double) : Answer :=
  if x.isNaN then .error (.nanToInteger function)
  else if x.isInfinite then .error (.infinityToInteger function)
  else exact function x.truncToInt

/-- `n` rounded to a multiple of `scale`, a tie to the even multiple. -/
def roundToMultiple (n scale : Int) : Int :=
  let q := n / scale
  let r := n % scale
  let q := if scale < 2 * r || (2 * r = scale && q % 2 ≠ 0) then q + 1 else q
  q * scale

/-- Powers of ten up to this one fit into 64 bits. -/
def maxIntPlaces : Nat := 18

/-- An integer rounded to places before the point. -/
def roundInt (n : Int64) (digits : Int) : Answer :=
  if 0 ≤ digits then .ok (.int n)
  else if (maxIntPlaces : Int) < -digits then .ok (.int 0)
  else exact "round" (roundToMultiple n.toInt (Nat.pow 10 (-digits).toNat))

/-- A double rounded to places behind the point, by way of a power of ten. -/
def roundDouble (x : Double) (digits : Int) : Double :=
  if !x.isFinite then x
  else
    let scale := Double.powerOfTen (max (-308) (min digits 308))
    let r := (x.mul scale).roundEven.div scale
    if r.isFinite then r else x

def round (v digits : Value) : Answer := do
  let digits ← optionalArg (intArg "round") digits
  match v.asNumber, digits with
  | some (.int n), none => return .int n
  | some (.int n), some d => roundInt n d.toInt
  | some (.float x), none => integerOf "round" x.roundEven
  | some (.float x), some d => return .float (roundDouble x d.toInt)
  | none, _ => throw (.wrongType "round" "a number" v.typeName)

/-! ### Conversions -/

def chr (v : Value) : Answer := do
  let n ← intArg "chr" v
  if n < 0 then throw .noSuchCharacter
  match charOfCode? n.toInt.toNat with
  | some c => return .str (String.singleton c)
  | none => throw .noSuchCharacter

def ord (v : Value) : Answer :=
  match v.asString with
  | none => .error (.wrongType "ord" "a string" v.typeName)
  | some s =>
    match s.toList with
    | [c] => .ok (.int (Int64.ofNat c.toNat))
    | cs => .error (.notOneCharacter cs.length)

/-- Takes a sign off a text: is it a minus, and what is left? -/
def splitSign : List Char → Bool × List Char
  | '-' :: rest => (true, rest)
  | '+' :: rest => (false, rest)
  | cs => (false, cs)

/-- The double that a text stands for: blanks around it, one sign, `inf`, `infinity` or
    `nan` in any case, or a decimal fraction in which underscores are passed over. -/
def readFloat? (text : List Char) : Option Double :=
  let (negative, body) := splitSign (trimBlanks text)
  let sign : Double := Double.ofInt (if negative then -1 else 1)
  let word := body.map Char.toLower
  if word = "inf".toList || word = "infinity".toList then some (sign.mul .infinity)
  else if word = "nan".toList then some (sign.mul .nan)
  else if body.head? = some '+' || body.head? = some '-' then none
  else (readDouble? (withoutUnderscores body)).map sign.mul

def float (v : Value) : Answer :=
  match v.given with
  | none => .ok (.float .zero)
  | some (.str s) =>
    match readFloat? s.toList with
    | some x => .ok (.float x)
    | none => .error (.notAFloat s)
  | some v => do return .float (← doubleArg "float" v)

/-- Does a text have two underscores in a row? -/
def hasDoubleUnderscore : List Char → Bool
  | '_' :: '_' :: _ => true
  | _ :: rest => hasDoubleUnderscore rest
  | [] => false

/-- The radix and the digits of an integer text without its sign.  A mark of the radix is
    taken off if the base is that one, or zero. -/
def splitMark (base : Nat) (body : List Char) : Nat × List Char :=
  let marked : Option (Nat × List Char) :=
    match body with
    | '0' :: 'x' :: ds => some (16, ds)
    | '0' :: 'o' :: ds => some (8, ds)
    | '0' :: 'b' :: ds => some (2, ds)
    | _ => none
  match marked with
  | some (radix, ds) =>
    if base = 0 || base = radix then (radix, ds) else (base, body)
  | none => (if base = 0 then 10 else base, body)

/-- The integer that a text stands for in a base; in base zero the text says which.
    Underscores may stand between digits. -/
def readInt? (base : Nat) (text : List Char) : Option Int64 :=
  let (negative, body) := splitSign (trimBlanks text)
  let (radix, ds) := splitMark base (body.map Char.toLower)
  let misplaced := ds.head? = some '_' || ds.getLast? = some '_' || hasDoubleUnderscore ds
  if misplaced then none
  else
    (readNat? radix (withoutUnderscores ds)).bind fun n =>
      fitInt64 (if negative then -(n : Int) else n)

def intOfText (text : String) (base : Int64) : Answer :=
  if base ≠ 0 ∧ ¬ (2 ≤ base ∧ base ≤ 36) then .error .badBase
  else
    match readInt? base.toInt.toNat text.toList with
    | some n => .ok (.int n)
    | none => .error (.notAnInteger base text)

def int (v base : Value) : Answer := do
  let base ← optionalArg (intArg "int") base
  match v.given, base with
  | none, none => return .int 0
  | none, some _ => throw .noIntegerText
  | some (.str s), base => intOfText s (base.getD 10)
  | some _, some _ => throw .baseOfNonString
  | some v, none =>
    match v.asNumber with
    | some (.int n) => return .int n
    | some (.float x) => integerOf "int" x.trunc
    | none => throw (.wrongType "int" "a string or a number" v.typeName)

/-- The text of a value; of an omitted one, or of `None`, the empty text. -/
def str (v : Value) : Answer := .ok (.str ((v.given.map Value.plain).getD ""))

/-! ### Iterables -/

def len (v : Value) : Answer :=
  match v.length? with
  | some n => .ok (.int (Int64.ofNat n))
  | none => .error (.noLength v.typeName)

def all (v : Value) : Answer := do return .bool ((← itemsArg v).all Value.truthy)

def any (v : Value) : Answer := do return .bool ((← itemsArg v).any Value.truthy)

/-- The first item that no later one comes `wanted` of. -/
def best (wanted : Ordering) (champion : Value) : List Value → Except ValueError Value
  | [] => .ok champion
  | v :: rest =>
    match v.compare champion with
    | .ok o => best wanted (if o = some wanted then v else champion) rest
    | .error e => .error e

/-- `min` and `max`: a single argument is iterated, several are compared. -/
def extremum (function : String) (wanted : Ordering) (args : List Value) : Answer := do
  let items ← match args with
    | [] => throw (.noArguments function)
    | [v] => itemsArg v
    | several => pure several
  match items with
  | [] => throw (.emptySequence function)
  | v :: rest =>
    match best wanted v rest with
    | .ok v => return v
    | .error e => throw (.value e)

/-- The number of integers from `start` on, `step` apart, that come before `stop`. -/
def rangeLength (start stop step : Int) : Nat :=
  if 0 < step then ((stop - start + step - 1) / step).toNat
  else ((start - stop - step - 1) / -step).toNat

/-- The integers from `start` on, `step` apart, before `stop`. -/
def rangeItems (start stop step : Int) : Answer :=
  if step = 0 then .error .zeroStep
  else
    let n := rangeLength start stop step
    if maxSequenceLength < n then .error .rangeTooLong
    else
      .ok (.list ((List.range n).map fun (i : Nat) =>
        .int (Int64.ofInt (start + (i : Int) * step))))

/-- A single argument is where to stop. -/
def range (first stop step : Value) : Answer := do
  let first ← intArg "range" first
  let stop ← optionalArg (intArg "range") stop
  let step ← optionalArg (intArg "range") step
  let step := (step.getD 1).toInt
  match stop with
  | some stop => rangeItems first.toInt stop.toInt step
  | none => rangeItems 0 first.toInt step

/-- Does `x` go strictly before `y`, in this direction?  Unordered items do not. -/
def sortsBefore (reverse : Bool) (x y : Value) : Except ValueError Bool :=
  (x.compare y).map fun o => o = some (if reverse then .gt else .lt)

/-- Equal items keep their order in both directions. -/
def sorted (v reverse : Value) : Answer := do
  let items ← itemsArg v
  match Sort.sort (sortsBefore reverse.truthy) items with
  | .ok items => return .list items
  | .error e => throw (.value e)

def sum (v start : Value) : Answer := do
  match start.given.getD (.int 0) with
  | .str _ => throw .sumOfStrings
  | start =>
    let items ← itemsArg v
    applied "sum" (items.foldlM (Operators.binary .add) start)

/-! ### Arguments by position -/

def unary (name : String) (f : Value → Answer) : List Value → Answer
  | [a] => f a
  | _ => .error (.unboundParameter name)

def binary (name : String) (f : Value → Value → Answer) : List Value → Answer
  | [a, b] => f a b
  | _ => .error (.unboundParameter name)

def ternary (name : String) (f : Value → Value → Value → Answer) : List Value → Answer
  | [a, b, c] => f a b c
  | _ => .error (.unboundParameter name)

end Builtins

open Builtins in
/-- The builtin functions, in alphabetical order. -/
def builtins : List NativeFunction :=
  let one : Signature := .positional 1
  let optionalOnly (name : String) : Signature :=
    { params := [⟨name, .optional⟩], positionalOnly := 1 }
  let oneAndOption (name option : String) : Signature :=
    { params := [⟨name, .required⟩, ⟨option, .optional⟩], positionalOnly := 1 }
  [ native "abs" one (unary "abs" abs),
    native "all" one (unary "all" all),
    native "any" one (unary "any" any),
    native "bin" one (unary "bin" (inRadix "bin" "0b" 2)),
    native "bool" (optionalOnly "x") (unary "bool" fun v => .ok (.bool v.truthy)),
    native "chr" one (unary "chr" chr),
    native "float" (optionalOnly "x") (unary "float" float),
    native "hex" one (unary "hex" (inRadix "hex" "0x" 16)),
    native "int" ((optionalOnly "x").optional "base") (binary "int" int),
    native "len" one (unary "len" len),
    native "max" .anyNumber (extremum "max" .gt),
    native "min" .anyNumber (extremum "min" .lt),
    native "oct" one (unary "oct" (inRadix "oct" "0o" 8)),
    native "ord" one (unary "ord" ord),
    native "pow"
      { params := [⟨"base", .required⟩, ⟨"exp", .required⟩, ⟨"mod", .optional⟩] }
      (ternary "pow" pow),
    native "range"
      { params := [⟨"start", .required⟩, ⟨"stop", .optional⟩, ⟨"step", .optional⟩]
        positionalOnly := 3 }
      (ternary "range" range),
    native "round" { params := [⟨"number", .required⟩, ⟨"ndigits", .optional⟩] }
      (binary "round" round),
    native "sorted" (oneAndOption "iterable" "reverse") (binary "sorted" sorted),
    native "str" (optionalOnly "object") (unary "str" str),
    native "sum" (oneAndOption "iterable" "start") (binary "sum" sum) ]

end SafeExpr
