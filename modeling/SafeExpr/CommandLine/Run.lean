/-
  SafeExpr/CommandLine/Run.lean
  =============================
  **What the program does.**

  Expressions are evaluated against the module `math`, with or without the builtin
  functions.  Variables come from a JSON object, which is read as a tree before its members
  become values, and then from the bindings `NAME=EXPR`; a later one of the same name
  counts.  The expressions of bindings see no variables.

  `run` is a pure function of the command line and the standard input.
-/
import SafeExpr.CommandLine.Arguments
import SafeExpr.Json.Tree
import SafeExpr.Library.Math
import SafeExpr.Report.Basic
import SafeExpr.Syntax.Outline

namespace SafeExpr.CommandLine

/-- What a run leaves behind. -/
structure Outcome where
  output : String := ""
  errors : String := ""
  exitCode : Nat := 0
deriving DecidableEq, Repr

/-- A run that ends with an error. -/
def Outcome.failed (errors : String) (exitCode : Nat) : Outcome := ⟨"", errors, exitCode⟩

def usageExitCode : Nat := 2

/-! ### Variables -/

/-- The variables that members of an object stand for: each name with the value of its
    tree. -/
def bindMembers (vars : Variables) : List (String × JsonTree) → Option Variables
  | [] => some vars
  | (name, t) :: rest => do bindMembers (vars.insert name (← t.value?)) rest

/-- The variables of a JSON object. -/
def jsonVariables? (text : String) : Option Variables :=
  match JsonTree.ofText? text with
  | some (.object members) => bindMembers {} members
  | _ => none

/-- A binding cut at its first equals sign; blanks around the name do not count. -/
def splitBinding? (text : String) : Option (String × String) :=
  match splitEquals text.toList with
  | (name, some source) => some (String.ofList (trimBlanks name), String.ofList source)
  | (_, none) => none

/-- Compiles and evaluates a source. -/
def valueOf (ns : Namespace) (vars : Variables) (source : String) : Except Error Value := do
  let c ← Compiled.compile source ns defaultMaxDepth
  (c.evaluate vars {}).result.mapError .evaluation

/-- Adds a binding to variables, or says why it cannot be made. -/
def bindVariable (ns : Namespace) (vars : Variables) (text : String) :
    Except String Variables :=
  match splitBinding? text with
  | none => .error ("expected NAME=EXPR, got '" ++ text ++ "'\n")
  | some (name, source) =>
    match valueOf ns {} source with
    | .ok v => .ok (vars.insert name v)
    | .error e =>
      .error (e.report source ++ "could not evaluate variable '" ++ name ++ "'\n")

/-- The variables of a command line. -/
def variablesOf (ns : Namespace) (i : Invocation) : Except String Variables := do
  let start ← match i.json with
    | none => .ok {}
    | some text =>
      match jsonVariables? text with
      | some vars => .ok vars
      | none => .error "the variables are not a JSON object\n"
  i.bindings.foldlM (bindVariable ns) start

/-! ### Expressions -/

/-- Does one expression: the result, behind the outline of the tree if that is wanted. -/
def interpret (ns : Namespace) (vars : Variables) (outline : Bool) (source : String) :
    Outcome :=
  match Compiled.compile source ns defaultMaxDepth with
  | .error e => .failed (e.report source) 1
  | .ok c =>
    let shown := if outline then "=== Parsed Expression ===\n" ++ c.expr.outline.render ++ "\n\n" else ""
    match (c.evaluate vars {}).result with
    | .ok v => { output := shown ++ v.render ++ "\n" }
    | .error e => { output := shown, errors := (Error.evaluation e).report source, exitCode := 1 }

/-- The lines of an input without what ends them: a line feed and, before it, a carriage
    return.  `line` is the current line in reverse. -/
def inputLines (line : List Char) : List Char → List String
  | [] => if line.isEmpty then [] else [String.ofList line.reverse]
  | '\n' :: rest =>
    let whole := match line with
      | '\r' :: line => line
      | line => line
    String.ofList whole.reverse :: inputLines [] rest
  | c :: rest => inputLines (c :: line) rest

/-- Does the lines that are not blank, one after the other.  Errors do not count. -/
def interpretLines (ns : Namespace) (vars : Variables) (outline : Bool) :
    List String → Outcome
  | [] => {}
  | line :: rest =>
    if line.toList.all isBlank then interpretLines ns vars outline rest
    else
      let one := interpret ns vars outline line
      let others := interpretLines ns vars outline rest
      { output := one.output ++ others.output, errors := one.errors ++ others.errors }

/-! ### The program -/

/-- Does what a command line asks for. -/
def perform (i : Invocation) (input : String) : Outcome :=
  match Namespace.build mathModule (if i.builtins then .all else .nothing) with
  | .error e => .failed (e.message ++ "\n") 1
  | .ok ns =>
    match variablesOf ns i with
    | .error text => .failed text 1
    | .ok vars =>
      match i.expression with
      | some source => interpret ns vars i.outline source
      | none => interpretLines ns vars i.outline (inputLines [] input.toList)

/-- A run of the program with the words of a command line and a standard input. -/
def run (words : List String) (input : String) : Outcome :=
  match Invocation.ofWords words with
  | .error e => .failed (e.message ++ "\n") usageExitCode
  | .ok i => perform i input

end SafeExpr.CommandLine
