/-
  SafeExpr/Function/Signature.lean
  ================================
  **Parameters, and how the arguments of a call are matched to them.**

  A parameter is required, optional, or implied.  An implied one is never passed by the
  caller: its value is found by its name when the call is made.  Optional parameters
  that no argument fills get `None`.

  `Signature.bind` fills one slot per parameter: positional arguments first, in order;
  then keywords, by name; then what is implied or omitted.  The first thing that fails
  on this way is the error.
-/
import SafeExpr.Value.Basic

namespace SafeExpr

inductive ParamKind where
  | required
  /-- `None` when the caller omits it. -/
  | optional
  /-- Looked up by name at the call, never passed. -/
  | implied
deriving DecidableEq, Repr

structure Param where
  name : String
  kind : ParamKind
deriving DecidableEq, Repr

/-- May a caller pass it? -/
def Param.isExplicit (p : Param) : Bool := p.kind != .implied

/-- How many arguments may be passed; without a maximum where surplus ones are taken. -/
structure Arity where
  min : Nat
  max : Option Nat
deriving DecidableEq, Repr

def Arity.text (a : Arity) : String :=
  match a.max with
  | some max =>
    if max = a.min then toString max else toString a.min ++ " to " ++ toString max
  | none => "at least " ++ toString a.min

structure Signature where
  params : List Param := []
  /-- Parameters before this position cannot be passed by keyword. -/
  positionalOnly : Nat := 0
  /-- Are surplus positional arguments taken, behind the declared ones? -/
  variadic : Bool := false
deriving DecidableEq, Repr

inductive BindError where
  | tooMany (expected : Arity) (found : Nat)
  | missing (name : String)
  | unexpectedKeyword (name : String)
  | duplicateArgument (name : String)
deriving DecidableEq, Repr

def BindError.message : BindError → String
  | .tooMany expected found =>
    "takes " ++ expected.text ++ " positional arguments but " ++ toString found ++ " were given"
  | .missing name => "missing required argument '" ++ name ++ "'"
  | .unexpectedKeyword name => "got an unexpected keyword argument '" ++ name ++ "'"
  | .duplicateArgument name => "got multiple values for argument '" ++ name ++ "'"

namespace Signature

/-! ### Building -/

def param (s : Signature) (kind : ParamKind) (name : String) : Signature :=
  { s with params := s.params ++ [⟨name, kind⟩] }

def required (s : Signature) (name : String) : Signature := s.param .required name

def optional (s : Signature) (name : String) : Signature := s.param .optional name

def implied (s : Signature) (name : String) : Signature := s.param .implied name

/-- `n` required parameters, all passed by position. -/
def positional (n : Nat) : Signature :=
  { params := (List.range n).map fun i => ⟨"arg" ++ toString i, .required⟩, positionalOnly := n }

/-- No declared parameters, any number of arguments. -/
def anyNumber : Signature := { variadic := true }

/-! ### Describing -/

def impliedNames (s : Signature) : List String :=
  (s.params.filter fun p => !p.isExplicit).map Param.name

def arity (s : Signature) : Arity where
  min := (s.params.filter (·.kind = .required)).length
  max := if s.variadic then none else some (s.params.filter Param.isExplicit).length

/-- May an argument be passed as `name=…`?  A name with a leading underscore may not. -/
def acceptsKeyword (s : Signature) (name : String) : Bool :=
  !(name.toList.head? == some '_')
    && (s.params.drop s.positionalOnly).any fun p => p.name = name && p.isExplicit

/-! ### Binding -/

/-- Puts positional values into the slots of the explicit parameters.  Also returns the
    values for which there is no slot. -/
def placePositional : List Param → List Value → List (Option Value) × List Value
  | [], values => ([], values)
  | p :: params, values =>
    if p.isExplicit then
      match values with
      | v :: values =>
        let (slots, surplus) := placePositional params values
        (some v :: slots, surplus)
      | [] =>
        let (slots, surplus) := placePositional params []
        (none :: slots, surplus)
    else
      let (slots, surplus) := placePositional params values
      (none :: slots, surplus)

/-- Puts a keyword value into the slot of the first parameter of that name. -/
def placeKeyword (s : Signature) (slots : List (Option Value)) (keyword : String × Value) :
    Except BindError (List (Option Value)) :=
  let (name, value) := keyword
  if !s.acceptsKeyword name then .error (.unexpectedKeyword name)
  else
    match s.params.findIdx? (·.name = name) with
    | none => .error (.unexpectedKeyword name)
    | some i =>
      if (slots.getD i none).isSome then .error (.duplicateArgument name)
      else .ok (slots.set i (some value))

/-- Puts keyword values into their slots, one after the other. -/
def placeKeywords (s : Signature) (slots : List (Option Value)) :
    List (String × Value) → Except BindError (List (Option Value))
  | [] => .ok slots
  | keyword :: rest => do placeKeywords s (← s.placeKeyword slots keyword) rest

/-- One value for each parameter: implied values in order, then what the slots hold. -/
def completeSlots : List Param → List (Option Value) → List Value →
    Except BindError (List Value)
  | [], _, _ => .ok []
  | p :: params, slots, implied =>
    match p.kind, slots.head?.join, implied with
    | .implied, _, v :: implied => do return v :: (← completeSlots params slots.tail implied)
    | .implied, _, [] => .error (.missing p.name)
    | _, some v, implied => do return v :: (← completeSlots params slots.tail implied)
    | .optional, none, implied => do
      return .none :: (← completeSlots params slots.tail implied)
    | .required, none, _ => .error (.missing p.name)

/-- Matches the arguments of a call to the parameters.  `implied` has one value for each
    implied parameter, in the order of declaration. -/
def bind (s : Signature) (positional : List Value) (keywords : List (String × Value))
    (implied : List Value) : Except BindError (List Value) := do
  let (slots, surplus) := placePositional s.params positional
  if !s.variadic && !surplus.isEmpty then
    throw (.tooMany s.arity positional.length)
  let slots ← s.placeKeywords slots keywords
  let args ← completeSlots s.params slots implied
  return args ++ surplus

end Signature

end SafeExpr
