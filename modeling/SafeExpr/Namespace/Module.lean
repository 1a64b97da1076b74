/-
  SafeExpr/Namespace/Module.lean
  ==============================
  **What a host offers to expressions.**

  A `Module` holds bindings and the list of the names that it exports.  Only exported
  names reach a namespace.  A module that has declared no list at all is different from
  one that exports nothing.
-/
import SafeExpr.Function.Native
import SafeExpr.Namespace.Table

namespace SafeExpr

/-- What a name of a namespace refers to. -/
inductive Binding where
  | value (v : Value)
  | function (f : NativeFunction)

structure Module where
  name : String
  bindings : Table Binding := {}
  exports : Option (List String) := none

namespace Module

/-- Binds a name without exporting it. -/
def register (m : Module) (name : String) (b : Binding) : Module :=
  { m with bindings := m.bindings.insert name b }

def constant (m : Module) (name : String) (v : Value) : Module := m.register name (.value v)

/-- Binds a function under its own name. -/
def function (m : Module) (f : NativeFunction) : Module := m.register f.name (.function f)

/-- Adds names to the export list, which exists from then on. -/
def declare (m : Module) (names : List String) : Module :=
  { m with exports := some (m.exports.getD [] ++ names) }

/-- Exports exactly the names bound so far, sorted. -/
def declareAll (m : Module) : Module := { m with exports := some m.bindings.names }

def resolve (m : Module) (name : String) : Option Binding := m.bindings.get? name

end Module

end SafeExpr
