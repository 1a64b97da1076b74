/-
  SafeExpr/Evaluation/Operators.lean
  ==================================
  **What operators do to values.**

  Integer operations are exact or report an overflow; nothing wraps around.  Division
  of integers gives a float.  Floor division and remainder belong together: the
  remainder has the sign of the divisor.  Sequences are concatenated and repeated up to
  `maxSequenceLength`, and sets have the operations of set algebra.

  An operator that fails says why (`OperatorError`); where it stands is added by the
  evaluation.
-/
import SafeExpr.Value.Basic
import SafeExpr.Number.Int64
import SafeExpr.Syntax.Operator

namespace SafeExpr

/-! ### Failures -/

/-- Operands that an operator does not take. -/
inductive OperandFault where
  | unary (op : UnaryOp) (type : String)
  | binary (op : BinaryOp) (left right : String)
  | unordered (op : CompareOp) (left right : String)
  | value (e : ValueError)
deriving DecidableEq, Repr

/-- Operands that an operator takes, but with a result outside its domain. -/
inductive ArithmeticFault where
  | overflow
  | sequenceTooLong
  | negativeShift
  | fractionalPower
  | outOfRange
deriving DecidableEq, Repr

inductive OperatorError where
  | divisionByZero
  | operands (fault : OperandFault)
  | arithmetic (fault : ArithmeticFault)
deriving DecidableEq, Repr

def OperandFault.message : OperandFault → String
  | .unary op type => "bad operand type for unary " ++ op.symbol ++ ": '" ++ type ++ "'"
  | .binary op left right =>
    "unsupported operand type(s) for " ++ op.symbol ++ ": '" ++ left ++ "' and '" ++ right ++ "'"
  | .unordered op left right =>
    "'" ++ op.symbol ++ "' not supported between instances of '" ++ left ++ "' and '" ++
      right ++ "'"
  | .value e => e.message

def ArithmeticFault.message : ArithmeticFault → String
  | .overflow => "integer overflow"
  | .sequenceTooLong =>
    "result exceeds the maximum sequence length of " ++ toString maxSequenceLength
  | .negativeShift => "negative shift count"
  | .fractionalPower => "negative number cannot be raised to a fractional power"
  | .outOfRange => "numerical result out of range"

namespace Operators

abbrev Result := Except OperatorError Value

def overflow : OperatorError := .arithmetic .overflow

/-- An exact result as a value, if it fits into 64 bits. -/
def exact (n : Int) : Result :=
  match fitInt64 n with
  | some m => .ok (.int m)
  | none => .error overflow

/-! ### One operand -/

def unary (op : UnaryOp) (v : Value) : Result :=
  match op, v.asNumber with
  | .not, _ => .ok (.bool !v.truthy)
  | .neg, some (.int n) => exact (-n.toInt)
  | .neg, some (.float x) => .ok (.float x.neg)
  | .pos, some (.int n) => .ok (.int n)
  | .pos, some (.float x) => .ok (.float x)
  | .invert, some (.int n) => .ok (.int (~~~n))
  | _, _ => .error (.operands (.unary op v.typeName))

/-! ### Sequences and sets -/

/-- `make` of a sequence of this length, unless it is too long. -/
def capped (length : Nat) (v : Value) : Result :=
  if maxSequenceLength < length then .error (.arithmetic .sequenceTooLong) else .ok v

/-- `n` copies of a list, one behind the other.  For the empty list `n` may be large. -/
def copies {α : Type} (n : Nat) : List α → List α
  | [] => []
  | x :: xs => (List.replicate n (x :: xs)).flatten

/-- A sequence repeated; a negative number of times is zero times. -/
def repeated (times : Int64) (v : Value) : Result :=
  let n := times.toInt.toNat
  let length := v.length?.getD 0 * n
  if maxSequenceLength < length then .error (.arithmetic .sequenceTooLong)
  else
    match v with
    | .str s => .ok (.str (String.ofList (copies n s.toList)))
    | .list items => .ok (.list (copies n items))
    | .tuple items => .ok (.tuple (copies n items))
    | v => .ok v

/-- Union, intersection, symmetric difference and difference.  The elements of the first
    set come first, and stand for equal ones of the second. -/
def setOperation (op : BinaryOp) (a b : List Value) : List Value :=
  let onlyFirst := a.filter fun v => !v.memberOf b
  let onlySecond := b.filter fun v => !v.memberOf a
  match op with
  | .bitAnd => a.filter fun v => v.memberOf b
  | .bitOr => a ++ onlySecond
  | .bitXor => onlyFirst ++ onlySecond
  | _ => onlyFirst

/-! ### Integers -/

/-- `&`, `|`, `^`, `<<` and `>>`. -/
def bitwise (op : BinaryOp) (a b : Int64) : Result :=
  match op with
  | .bitAnd => .ok (.int (a &&& b))
  | .bitOr => .ok (.int (a ||| b))
  | .bitXor => .ok (.int (a ^^^ b))
  | _ =>
    if b < 0 then .error (.arithmetic .negativeShift)
    else
      let n := min b.toInt.toNat 64
      match op with
      | .shl => exact (a.toInt * Int.pow 2 n)
      | _ => exact (a.toInt >>> n)

/-- `a ** b` for `b ≥ 0`.  Unless `a` is `-1`, `0` or `1`, an exponent from 64 on is too
    large. -/
def intPower (a : Int) (b : Nat) : Result :=
  if a = 0 || a = 1 || a = -1 then exact (a.pow (if b = 0 then 0 else 2 - b % 2))
  else if 64 ≤ b then .error overflow
  else exact (a.pow b)

/-- `+`, `-`, `*`, `/`, `//`, `%` and `**` on integers. -/
def intArithmetic (op : BinaryOp) (a b : Int64) : Result :=
  let x := a.toInt
  let y := b.toInt
  match op with
  | .add => exact (x + y)
  | .sub => exact (x - y)
  | .mul => exact (x * y)
  | .div =>
    if b = 0 then .error .divisionByZero
    else .ok (.float ((Double.ofInt x).div (Double.ofInt y)))
  | .floorDiv => if b = 0 then .error .divisionByZero else exact (x.fdiv y)
  | .mod => if b = 0 then .error .divisionByZero else exact (x.fmod y)
  | _ =>
    if b < 0 then
      if a = 0 then .error .divisionByZero
      else .ok (.float ((Double.ofInt x).pow (Double.ofInt y)))
    else intPower x y.toNat

/-! ### Floats -/

/-- Is one of two numbers negative and the other not? -/
def signsDiffer (x y : Double) : Bool := x.lt .zero != y.lt .zero

/-- The remainder with the sign of the divisor. -/
def floatMod (x y : Double) : Double :=
  let r := x.rem y
  if !r.eq .zero && signsDiffer r y then r.add y else r

/-- Floor division by way of the remainder, so that the two agree. -/
def floatFloorDiv (x y : Double) : Double :=
  let r := x.rem y
  let whole := (x.sub r).div y
  let q := if !r.eq .zero && signsDiffer y r then whole.sub (.ofInt 1) else whole
  if q.eq .zero then Double.zero.copySign (x.div y)
  else
    let f := q.floor
    if (Double.ofRatio false 1 2).lt (q.sub f) then f.add (.ofInt 1) else f

def floatPower (x y : Double) : Result :=
  if x.eq .zero && y.lt .zero then .error .divisionByZero
  else if x.lt .zero && y.isFinite && !y.isIntegral then
    .error (.arithmetic .fractionalPower)
  else
    let r := x.pow y
    if r.isInfinite && x.isFinite && y.isFinite then .error (.arithmetic .outOfRange)
    else .ok (.float r)

/-- `+`, `-`, `*`, `/`, `//`, `%` and `**` on floats. -/
def floatArithmetic (op : BinaryOp) (x y : Double) : Result :=
  let unlessZero (r : Double) : Result :=
    if y.eq .zero then .error .divisionByZero else .ok (.float r)
  match op with
  | .add => .ok (.float (x.add y))
  | .sub => .ok (.float (x.sub y))
  | .mul => .ok (.float (x.mul y))
  | .div => unlessZero (x.div y)
  | .floorDiv => unlessZero (floatFloorDiv x y)
  | .mod => unlessZero (floatMod x y)
  | _ => floatPower x y

/-! ### Two operands -/

def isBitOperator : BinaryOp → Bool
  | .bitAnd | .bitOr | .bitXor | .shl | .shr => true
  | _ => false

/-- Operators of sets; two of them are also operators of bools. -/
def isSetOperator : BinaryOp → Bool
  | .bitAnd | .bitOr | .bitXor | .sub => true
  | _ => false

def boolOperation (op : BinaryOp) (a b : Bool) : Bool :=
  match op with
  | .bitAnd => a && b
  | .bitOr => a || b
  | _ => a != b

def isSequence : Value → Bool
  | .str _ | .list _ | .tuple _ => true
  | _ => false

/-- Operators on values that are read as numbers. -/
def numeric (op : BinaryOp) (left right : Value) : Result :=
  let unsupported : OperatorError :=
    .operands (.binary op left.typeName right.typeName)
  if isBitOperator op then
    match left.asInt, right.asInt with
    | some a, some b => bitwise op a b
    | _, _ => .error unsupported
  else
    match left.asNumber, right.asNumber with
    | some (.int a), some (.int b) => intArithmetic op a b
    | some a, some b => floatArithmetic op a.toDouble b.toDouble
    | _, _ => .error unsupported

/-- `*` with a sequence on one side and an integer on the other is repetition. -/
def times (left right : Value) : Result :=
  match isSequence left, right.asInt, isSequence right, left.asInt with
  | true, some n, _, _ => repeated n left
  | _, _, true, some n => repeated n right
  | _, _, _, _ => numeric .mul left right

/-- The binary operators.  Concatenation counts a string in bytes. -/
def binary (op : BinaryOp) (left right : Value) : Result :=
  match op, left, right with
  | .add, .str a, .str b => capped (a.utf8ByteSize + b.utf8ByteSize) (.str (a ++ b))
  | .add, .list a, .list b => capped (a.length + b.length) (.list (a ++ b))
  | .add, .tuple a, .tuple b => capped (a.length + b.length) (.tuple (a ++ b))
  | .mul, left, right => times left right
  | op, .set a, .set b =>
    if isSetOperator op then .ok (.set (setOperation op a b))
    else numeric op (.set a) (.set b)
  | op, .bool a, .bool b =>
    if isSetOperator op && isBitOperator op then .ok (.bool (boolOperation op a b))
    else numeric op (.bool a) (.bool b)
  | op, left, right => numeric op left right

/-! ### Comparison -/

/-- `<`, `<=`, `>` and `>=`; false where the operands are unordered. -/
def ordered (op : CompareOp) (left right : Value) (accepts : Ordering → Bool) :
    Except OperatorError Bool :=
  match left.compare right with
  | .ok (some o) => .ok (accepts o)
  | .ok none => .ok false
  | .error _ => .error (.operands (.unordered op left.typeName right.typeName))

/-- One link of a comparison chain. -/
def compare (op : CompareOp) (left right : Value) : Except OperatorError Bool :=
  let membership : Except OperatorError Bool :=
    match right.contains left with
    | .ok b => .ok b
    | .error e => .error (.operands (.value e))
  match op with
  | .eq => .ok (left.eq right)
  | .ne => .ok !left.eq right
  | .lt => ordered op left right Ordering.isLT
  | .le => ordered op left right Ordering.isLE
  | .gt => ordered op left right Ordering.isGT
  | .ge => ordered op left right Ordering.isGE
  | .isIn => membership
  | .notIn => membership.map (!·)
  | .is => .ok (left.identical right)
  | .isNot => .ok !left.identical right

end Operators

end SafeExpr
