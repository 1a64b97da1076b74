/-
  SafeExpr/Value/Basic.lean
  =========================
  **What expressions evaluate to.**

  Values are finite data: scalars, and containers of values.  Functions are not values.
  Sets and dicts are lists in the order of insertion; `Value.mkSet` and `Value.mkDict`
  are the only ways to make them from arbitrary items, and keep their elements hashable
  and pairwise unequal.

  Equality is numerical across `bool`, `int` and `float`, and ignores the order of sets
  and dicts.
-/
import SafeExpr.Number.Double

namespace SafeExpr

/-- The longest string, list or tuple that an operator or a function may make. -/
def maxSequenceLength : Nat := Nat.pow 2 20

inductive Value where
  | none
  | bool (b : Bool)
  | int (n : Int64)
  | float (x : Double)
  | str (s : String)
  | list (items : List Value)
  | tuple (items : List Value)
  | dict (entries : List (Value × Value))
  | set (items : List Value)
deriving Repr, Inhabited

/-- What can go wrong with values, whatever operation they are used in. -/
inductive ValueError where
  | unhashable (type : String)
  | unorderable (left right : String)
  | notIterable (type : String)
  /-- Looking for something other than a string in a string. -/
  | notInString (type : String)
deriving DecidableEq, Repr

def ValueError.message : ValueError → String
  | .unhashable type => "unhashable type: '" ++ type ++ "'"
  | .unorderable left right =>
    "ordering not supported between instances of '" ++ left ++ "' and '" ++ right ++ "'"
  | .notIterable type => "'" ++ type ++ "' object is not iterable"
  | .notInString type => "'in <string>' requires string as left operand, not " ++ type

/-- A value as a number. -/
inductive Number where
  | int (n : Int64)
  | float (x : Double)
deriving DecidableEq, Repr

namespace Number

/-- The nearest double. -/
def toDouble : Number → Double
  | int n => .ofInt n.toInt
  | float x => x

/-- Integers are compared exactly; any other pair as doubles. -/
def eq : Number → Number → Bool
  | int a, int b => a == b
  | a, b => a.toDouble.eq b.toDouble

/-- The order of two numbers; none where a NaN is involved. -/
def compare : Number → Number → Option Ordering
  | int a, int b => some (Ord.compare a.toInt b.toInt)
  | a, b => a.toDouble.compare b.toDouble

end Number

namespace Value

/-! ### Views -/

def typeName : Value → String
  | none => "NoneType"
  | bool _ => "bool"
  | int _ => "int"
  | float _ => "float"
  | str _ => "str"
  | list _ => "list"
  | tuple _ => "tuple"
  | dict _ => "dict"
  | set _ => "set"

/-- `True` and `False` count as one and zero. -/
def asInt : Value → Option Int64
  | bool b => some (if b then 1 else 0)
  | int n => some n
  | _ => Option.none

def asNumber : Value → Option Number
  | float x => some (.float x)
  | v => v.asInt.map .int

def asDouble (v : Value) : Option Double := v.asNumber.map Number.toDouble

def asString : Value → Option String
  | str s => some s
  | _ => Option.none

def asBool : Value → Option Bool
  | bool b => some b
  | _ => Option.none

/-- What stands for an omitted argument is not there. -/
def given : Value → Option Value
  | none => Option.none
  | v => some v

def truthy : Value → Bool
  | none => false
  | bool b => b
  | int n => n != 0
  | float x => !x.isZero
  | str s => !s.isEmpty
  | list items | tuple items | set items => !items.isEmpty
  | dict entries => !entries.isEmpty

/-- The number of items; scalars have none. -/
def length? : Value → Option Nat
  | str s => some s.length
  | list items | tuple items | set items => some items.length
  | dict entries => some entries.length
  | _ => Option.none

/-- What iteration goes through: characters, elements, or keys. -/
def items : Value → Except ValueError (List Value)
  | str s => .ok (s.toList.map fun c => str (String.singleton c))
  | list items | tuple items | set items => .ok items
  | dict entries => .ok (entries.map Prod.fst)
  | v => .error (.notIterable v.typeName)

/-! ### Hashability -/

mutual

/-- Scalars can be elements of sets and keys of dicts, and so can tuples of such. -/
def isHashable : Value → Bool
  | tuple items => allHashable items
  | list _ | dict _ | set _ => false
  | _ => true

def allHashable : List Value → Bool
  | [] => true
  | v :: rest => isHashable v && allHashable rest

end

def requireHashable (v : Value) : Except ValueError Unit :=
  if v.isHashable then .ok () else .error (.unhashable v.typeName)

/-! ### Equality and membership -/

/-- Equality of values that are compared as numbers or not at all. -/
def eqNumber (a b : Value) : Bool :=
  match a.asNumber, b.asNumber with
  | some x, some y => x.eq y
  | _, _ => false

mutual

/-- `==` -/
def eq : Value → Value → Bool
  | none, none => true
  | str a, str b => a == b
  | list a, list b => eqAll a b
  | tuple a, tuple b => eqAll a b
  | set a, set b => a.length == b.length && allIn a b
  | dict a, dict b => a.length == b.length && allEntriesIn a b
  | a, b => eqNumber a b
termination_by structural v => v

/-- Item by item. -/
def eqAll : List Value → List Value → Bool
  | [], [] => true
  | x :: xs, y :: ys => eq x y && eqAll xs ys
  | _, _ => false
termination_by structural xs => xs

/-- Is every item of the first list equal to one of the second? -/
def allIn : List Value → List Value → Bool
  | [], _ => true
  | x :: xs, ys => ys.any (fun y => eq x y) && allIn xs ys
termination_by structural xs => xs

/-- Has every entry of the first list an equal one, key and value, in the second? -/
def allEntriesIn : List (Value × Value) → List (Value × Value) → Bool
  | [], _ => true
  | (k, v) :: rest, entries =>
    entries.any (fun (k', v') => eq k k' && eq v v') && allEntriesIn rest entries
termination_by structural es => es

end

/-- Is `v` equal to one of the items? -/
def memberOf (v : Value) (items : List Value) : Bool := items.any fun x => x.eq v

/-- Does `needle` occur in `hay`? -/
def occursIn (needle : List Char) : List Char → Bool
  | [] => needle.isEmpty
  | c :: rest => needle.isPrefixOf (c :: rest) || occursIn needle rest

/-- The test behind `in`. -/
def contains : Value → Value → Except ValueError Bool
  | str hay, str needle => .ok (occursIn needle.toList hay.toList)
  | str _, v => .error (.notInString v.typeName)
  | list items, v | tuple items, v => .ok (v.memberOf items)
  | set items, v => do
    v.requireHashable
    return v.memberOf items
  | dict entries, v => do
    v.requireHashable
    return v.memberOf (entries.map Prod.fst)
  | c, _ => .error (.notIterable c.typeName)

/-! ### Sets and dicts -/

/-- Adds an element to the elements of a set, unless an equal one is there. -/
def addElement (elements : List Value) (v : Value) : List Value :=
  if v.memberOf elements then elements else elements ++ [v]

/-- Gives a key its value: in its place if an equal key is there, at the end if not. -/
def putEntry : List (Value × Value) → Value → Value → List (Value × Value)
  | [], key, value => [(key, value)]
  | (k, v) :: rest, key, value =>
    if k.eq key then (k, value) :: rest else (k, v) :: putEntry rest key value

/-- The set of some items.  Of equal items the first is kept. -/
def mkSet (items : List Value) : Except ValueError Value :=
  go [] items
where
  go (elements : List Value) : List Value → Except ValueError Value
    | [] => .ok (set elements)
    | v :: rest =>
      match v.requireHashable with
      | .ok _ => go (addElement elements v) rest
      | .error e => .error e

/-- The dict of some entries.  Of equal keys the first is kept, with the last value. -/
def mkDict (entries : List (Value × Value)) : Except ValueError Value :=
  go [] entries
where
  go (made : List (Value × Value)) : List (Value × Value) → Except ValueError Value
    | [] => .ok (dict made)
    | (k, v) :: rest =>
      match k.requireHashable with
      | .ok _ => go (putEntry made k v) rest
      | .error e => .error e

/-! ### Order -/

mutual

/-- The order behind `<`, `sorted`, `min` and `max`.  Strings are ordered by code points,
    lists and tuples by the first items that differ.  Numbers may be unordered. -/
def compare : Value → Value → Except ValueError (Option Ordering)
  | str a, str b => .ok (some (Ord.compare a b))
  | list a, list b => compareAll a b
  | tuple a, tuple b => compareAll a b
  | a, b =>
    match a.asNumber, b.asNumber with
    | some x, some y => .ok (x.compare y)
    | _, _ => .error (.unorderable a.typeName b.typeName)

def compareAll : List Value → List Value → Except ValueError (Option Ordering)
  | [], [] => .ok (some .eq)
  | [], _ => .ok (some .lt)
  | _, [] => .ok (some .gt)
  | x :: xs, y :: ys => if eq x y then compareAll xs ys else compare x y

end

/-- The test behind `is`: the same type and the same value.  Floats are compared bit by
    bit. -/
def identical : Value → Value → Bool
  | float a, float b => a == b
  | a, b => a.typeName == b.typeName && a.eq b

end Value

end SafeExpr
