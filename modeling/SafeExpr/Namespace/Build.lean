/-
  SafeExpr/Namespace/Build.lean
  =============================
  **The names that expressions may refer to.**

  A `Namespace` is built once from the export list of a module and a choice of builtin
  functions.  Exports are checked in the order of the list, each for being a name, being
  harmless, being new, and being bound, in this order; then the chosen builtins are
  checked.  An export hides a builtin of the same name.
-/
import SafeExpr.Grammar.Expression
import SafeExpr.Library.Builtins
import SafeExpr.Namespace.Module

namespace SafeExpr

/-! ### Names -/

/-- Names that are never exposed, whatever a module exports.  The grammar is what
    contains expressions; this list only catches obvious mistakes of a host. -/
def unsafeNames : List String :=
  ["eval", "exec", "compile", "open", "__import__", "getattr", "setattr", "delattr", "vars",
   "globals", "locals", "dir", "type", "object", "super", "memoryview", "property",
   "staticmethod", "classmethod", "__build_class__", "__loader__", "input", "breakpoint",
   "help", "exit", "quit"]

def isUnsafeName (name : String) : Bool := unsafeNames.contains name

/-- Could `name` stand in an expression as a name? -/
def isIdentifier (name : String) : Bool :=
  match name.toList with
  | [] => false
  | c :: rest => isWordStart c && rest.all isWordChar && !reservedWords.contains name

/-! ### Errors -/

inductive NamespaceError where
  | missingExportList
  | unboundExport (name : String)
  | duplicateExport (name : String)
  | unsafeName (name : String)
  | invalidName (name : String)
  | unknownBuiltin (name : String)
deriving DecidableEq, Repr

def NamespaceError.message : NamespaceError → String
  | .missingExportList => "backing source declares no export list"
  | .unboundExport name => "exported name '" ++ name ++ "' is not bound in the backing source"
  | .duplicateExport name => "name '" ++ name ++ "' is exported more than once"
  | .unsafeName name => "name '" ++ name ++ "' is known to be unsafe and cannot be exposed"
  | .invalidName name => "'" ++ name ++ "' is not a valid identifier"
  | .unknownBuiltin name => "'" ++ name ++ "' is not a builtin function"

/-! ### Namespaces -/

structure Namespace where
  bindings : Table Binding
  /-- The names taken from the module, in the order of its export list. -/
  exports : List String

/-- Which builtin functions a namespace has. -/
inductive BuiltinSelection where
  | all
  | nothing
  | only (names : List String)
deriving DecidableEq, Repr

namespace Namespace

def lookup (ns : Namespace) (name : String) : Option Binding := ns.bindings.get? name

def contains (ns : Namespace) (name : String) : Bool := ns.bindings.contains name

/-- The function that a name is bound to, if it is bound to one. -/
def function? (ns : Namespace) (name : String) : Option NativeFunction :=
  match ns.lookup name with
  | some (.function f) => some f
  | _ => none

/-- Every bound name, sorted. -/
def names (ns : Namespace) : List String := ns.bindings.names

def size (ns : Namespace) : Nat := ns.bindings.size

/-- Adds one export to the bindings made so far. -/
def addExport (m : Module) (made : Table Binding) (name : String) :
    Except NamespaceError (Table Binding) :=
  if !isIdentifier name then .error (.invalidName name)
  else if isUnsafeName name then .error (.unsafeName name)
  else if made.contains name then .error (.duplicateExport name)
  else
    match m.resolve name with
    | some b => .ok (made.insert name b)
    | none => .error (.unboundExport name)

/-- The builtin function of a name. -/
def selectBuiltin (name : String) : Except NamespaceError NativeFunction :=
  if isUnsafeName name then .error (.unsafeName name)
  else
    match builtins.find? (·.name = name) with
    | some f => .ok f
    | none => .error (.unknownBuiltin name)

def selected : BuiltinSelection → Except NamespaceError (List NativeFunction)
  | .all => .ok builtins
  | .nothing => .ok []
  | .only names => names.mapM selectBuiltin

/-- Adds a builtin function, unless its name is taken. -/
def addBuiltin (made : Table Binding) (f : NativeFunction) : Table Binding :=
  if made.contains f.name then made else made.insert f.name (.function f)

def build (m : Module) (selection : BuiltinSelection) : Except NamespaceError Namespace := do
  let exports ← m.exports.elim (.error .missingExportList) .ok
  let made ← exports.foldlM (addExport m) {}
  let chosen ← selected selection
  return ⟨chosen.foldl addBuiltin made, exports⟩

end Namespace

end SafeExpr
