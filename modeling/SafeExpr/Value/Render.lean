/-
  SafeExpr/Value/Render.lean
  ==========================
  **Values as text, spelled the way the language spells them.**

  `write out v` puts the text of `v` behind `out`, so that long containers are written
  in one pass; `Value.render` starts from nothing.
-/
import SafeExpr.Value.Basic
import SafeExpr.Number.Notation
import SafeExpr.Text.Quoted

namespace SafeExpr.Value

mutual

/-- The text of a value behind `out`. -/
def write (out : String) : Value → String
  | none => out ++ "None"
  | bool true => out ++ "True"
  | bool false => out ++ "False"
  | int n => out ++ toString n.toInt
  | float x => out ++ x.render .value
  | str s => out ++ quoteValue s
  | list items => writeItems (out.push '[') items ++ "]"
  | tuple [item] => write (out.push '(') item ++ ",)"
  | tuple items => writeItems (out.push '(') items ++ ")"
  | set [] => out ++ "set()"
  | set items => (writeItems (out.push '\x7b') items).push '\x7d'
  | dict entries => (writeEntries (out.push '\x7b') entries).push '\x7d'

/-- The items, separated by commas. -/
def writeItems (out : String) : List Value → String
  | [] => out
  | [v] => write out v
  | v :: rest => writeItems (write out v ++ ", ") rest

/-- The entries, separated by commas. -/
def writeEntries (out : String) : List (Value × Value) → String
  | [] => out
  | [(k, v)] => write (write out k ++ ": ") v
  | (k, v) :: rest => writeEntries (write (write out k ++ ": ") v ++ ", ") rest

end

/-- The text of a value. -/
def render (v : Value) : String := v.write ""

/-- The text that `str` gives: a string is its own text. -/
def plain : Value → String
  | str s => s
  | v => v.render

end SafeExpr.Value
