/-
  SafeExpr/CommandLine/Arguments.lean
  ===================================
  **What is written on the command line.**

      [-v NAME=EXPR]… [--vars-json JSON] [--no-builtins] [--debug-parse] [--] [EXPRESSION]

  Options may come in any order and on both sides of the expression; behind `--` nothing
  is an option.  A value stands behind its option as a word of its own, which must not
  look like an option, or in the same word: `--var=x=1`, `-vx=1`, `-v=x=1`.  Only `-v` may
  come more than once.
-/

namespace SafeExpr.CommandLine

/-- What one call of the program asks for. -/
structure Invocation where
  /-- Variables as `NAME=EXPR`, in order. -/
  bindings : List String := []
  /-- Variables as a JSON object. -/
  json : Option String := none
  builtins : Bool := true
  /-- Is the syntax tree shown before the result? -/
  outline : Bool := false
  /-- Without one, each line of the standard input is an expression. -/
  expression : Option String := none
deriving DecidableEq, Repr

inductive UsageError where
  | unknownOption (text : String)
  | missingValue (option : String)
  | surplusValue (option : String)
  | repeatedOption (option : String)
  | surplusArgument (text : String)
deriving DecidableEq, Repr

def UsageError.message : UsageError → String
  | .unknownOption text => "unexpected option '" ++ text ++ "'"
  | .missingValue option => "option '" ++ option ++ "' needs a value"
  | .surplusValue option => "option '" ++ option ++ "' takes no value"
  | .repeatedOption option => "option '" ++ option ++ "' cannot be used more than once"
  | .surplusArgument text => "unexpected argument '" ++ text ++ "'"

/-! ### Words -/

/-- Does a word look like an option?  A lone minus sign does not. -/
def isOption (word : String) : Bool :=
  match word.toList with
  | '-' :: _ :: _ => true
  | _ => false

inductive OptionName where
  | var | varsJson | noBuiltins | debugParse
deriving DecidableEq, Repr

def OptionName.text : OptionName → String
  | .var => "--var"
  | .varsJson => "--vars-json"
  | .noBuiltins => "--no-builtins"
  | .debugParse => "--debug-parse"

/-- Is an option followed by a value? -/
def OptionName.takesValue : OptionName → Bool
  | .var | .varsJson => true
  | .noBuiltins | .debugParse => false

/-- The value that stands in the same word as a long option: what follows the first
    equals sign. -/
def splitEquals (cs : List Char) : List Char × Option (List Char) :=
  match cs.dropWhile (· != '=') with
  | [] => (cs, none)
  | _ :: value => (cs.takeWhile (· != '='), some value)

/-- The option that a word is, and the value in the same word. -/
def readOption (word : String) : Option (OptionName × Option String) :=
  match word.toList with
  | ['-', 'v'] => some (.var, none)
  | '-' :: 'v' :: '=' :: value => some (.var, some (String.ofList value))
  | '-' :: 'v' :: value => some (.var, some (String.ofList value))
  | cs =>
    let (name, value) := splitEquals cs
    let options : List OptionName := [.var, .varsJson, .noBuiltins, .debugParse]
    (options.find? fun o => o.text.toList == name).map fun o => (o, value.map String.ofList)

/-! ### Arguments -/

/-- Takes down an option with its value, if it takes one. -/
def Invocation.withOption (i : Invocation) (name : OptionName) (value : String) :
    Except UsageError Invocation :=
  match name with
  | .var => .ok { i with bindings := i.bindings ++ [value] }
  | .varsJson =>
    if i.json.isSome then .error (.repeatedOption name.text) else .ok { i with json := some value }
  | .noBuiltins =>
    if i.builtins then .ok { i with builtins := false } else .error (.repeatedOption name.text)
  | .debugParse =>
    if i.outline then .error (.repeatedOption name.text) else .ok { i with outline := true }

/-- Takes down an expression, unless there is one. -/
def Invocation.withExpression (i : Invocation) (text : String) : Except UsageError Invocation :=
  if i.expression.isSome then .error (.surplusArgument text)
  else .ok { i with expression := some text }

/-- Reads words behind those that made `i`. -/
def readWords (i : Invocation) : List String → Except UsageError Invocation
  | [] => .ok i
  | "--" :: words => words.foldlM Invocation.withExpression i
  | word :: words =>
    if isOption word then
      match readOption word with
      | none => .error (.unknownOption word)
      | some (name, some value) =>
        if name.takesValue then do readWords (← i.withOption name value) words
        else .error (.surplusValue name.text)
      | some (name, none) =>
        if name.takesValue then
          match words with
          | value :: words =>
            if isOption value then .error (.missingValue name.text)
            else do readWords (← i.withOption name value) words
          | [] => .error (.missingValue name.text)
        else do readWords (← i.withOption name "") words
    else do readWords (← i.withExpression word) words
termination_by structural words => words

/-- Reads the words of a command line. -/
def Invocation.ofWords (words : List String) : Except UsageError Invocation := readWords {} words

end SafeExpr.CommandLine
