/-
  SafeExpr/Json/Tree.lean
  =======================
  **JSON text as a tree of its own.**

  `JsonTree.ofText?` reads a text without making values of it.  Numbers keep the kind that
  their text gives them, and an object holds its members in the order of their names, each
  name once, with the value that came last.  `JsonTree.value?` makes a value of a tree:
  what it makes of an object is the dict of the members in that order.

  The reader is laid out as the one that makes values at once.
-/
import SafeExpr.Json.Read

namespace SafeExpr

/-- A number: a whole one without sign, a whole one below zero, or a float. -/
inductive JsonNumber where
  | natural (n : Nat)
  | negative (n : Int64)
  | float (x : Double)
deriving DecidableEq, Repr

inductive JsonTree where
  | null
  | bool (b : Bool)
  | number (n : JsonNumber)
  | string (s : String)
  | array (items : List JsonTree)
  | object (members : List (String × JsonTree))

namespace JsonText

/-- The number that a text gives.  Below zero, what is no integer of 64 bits is a float, and
    so is zero with a minus sign. -/
def NumberText.number? (t : NumberText) : Option JsonNumber :=
  let n : Int := t.significand
  if t.whole then
    if t.negative then
      match fitInt64 (-n) with
      | some m => some (if n == 0 then .float Double.zero.neg else .negative m)
      | none => some (.float (Double.ofInt n).neg)
    else some (.natural t.significand)
  else
    (scaled? (.ofInt n) t.exponent).map fun x => .float (if t.negative then x.neg else x)

/-- Puts a member in its place among members in the order of their names.  A name that is
    there keeps its place. -/
def putMember {α : Type} (name : String) (x : α) : List (String × α) → List (String × α)
  | [] => [(name, x)]
  | (n, y) :: rest =>
    if name = n then (n, x) :: rest
    else if name < n then (name, x) :: (n, y) :: rest
    else (n, y) :: putMember name x rest

mutual

/-- The tree at the start of a text, and the rest; `nesting` is how deep arrays and objects
    may still nest. -/
def readTree (nesting : Nat) : Nat → List Char → Option (JsonTree × List Char)
  | 0, _ => none
  | fuel + 1, cs =>
    match skipBlanks cs with
    | 'n' :: rest => do return (.null, ← afterWord "ull" rest)
    | 't' :: rest => do return (.bool true, ← afterWord "rue" rest)
    | 'f' :: rest => do return (.bool false, ← afterWord "alse" rest)
    | '"' :: rest => do
      let (s, rest) ← readString rest
      return (.string (String.ofList s), rest)
    | '[' :: rest =>
      if nesting = 0 then none
      else match skipBlanks rest with
        | ']' :: rest => some (.array [], rest)
        | rest => readTrees (nesting - 1) [] fuel rest
    | '\x7b' :: rest =>
      if nesting = 0 then none
      else match skipBlanks rest with
        | '\x7d' :: rest => some (.object [], rest)
        | rest => readMembers (nesting - 1) [] fuel rest
    | cs => do
      let (t, rest) ← readNumber cs
      return (.number (← t.number?), rest)

/-- The items of an array behind those found, which are in reverse. -/
def readTrees (nesting : Nat) (found : List JsonTree) :
    Nat → List Char → Option (JsonTree × List Char)
  | 0, _ => none
  | fuel + 1, cs => do
    let (t, rest) ← readTree nesting fuel cs
    match skipBlanks rest with
    | ',' :: rest => readTrees nesting (t :: found) fuel rest
    | ']' :: rest => return (.array (t :: found).reverse, rest)
    | _ => none

/-- The members of an object, put among those found. -/
def readMembers (nesting : Nat) (found : List (String × JsonTree)) :
    Nat → List Char → Option (JsonTree × List Char)
  | 0, _ => none
  | fuel + 1, cs =>
    match skipBlanks cs with
    | '"' :: rest => do
      let (name, rest) ← readString rest
      match skipBlanks rest with
      | ':' :: rest => do
        let (t, rest) ← readTree nesting fuel rest
        let found := putMember (String.ofList name) t found
        match skipBlanks rest with
        | ',' :: rest => readMembers nesting found fuel rest
        | '\x7d' :: rest => return (.object found, rest)
        | _ => none
      | _ => none
    | _ => none

end

end JsonText

open JsonText

/-- The tree of a JSON text. -/
def JsonTree.ofText? (text : String) : Option JsonTree :=
  match readTree maxNesting (2 * text.length + 1) text.toList with
  | some (t, rest) => if (skipBlanks rest).isEmpty then some t else none
  | none => none

/-! ### Values of trees -/

/-- A whole number beyond 64 bits with sign is a float. -/
def JsonNumber.value : JsonNumber → Value
  | natural n =>
    match fitInt64 n with
    | some m => .int m
    | none => .float (.ofInt n)
  | negative n => .int n
  | float x => .float x

namespace JsonTree

mutual

/-- The value of a tree. -/
def value? : JsonTree → Option Value
  | null => some .none
  | bool b => some (.bool b)
  | number n => some n.value
  | string s => some (.str s)
  | array items => do return .list (← values? items)
  | object members => do (Value.mkDict (← entries? members)).toOption

def values? : List JsonTree → Option (List Value)
  | [] => some []
  | t :: rest => do
    let v ← value? t
    return v :: (← values? rest)

/-- The entries that the members make, with their names for keys. -/
def entries? : List (String × JsonTree) → Option (List (Value × Value))
  | [] => some []
  | (name, t) :: rest => do
    let v ← value? t
    return (.str name, v) :: (← entries? rest)

end

end JsonTree

end SafeExpr
