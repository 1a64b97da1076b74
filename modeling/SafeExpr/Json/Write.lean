/-
  SafeExpr/Json/Write.lean
  ========================
  **Values as JSON text.**

  Lists, tuples and sets become arrays, and dicts become objects.  The name of a member is
  the key itself where that is a string, and the text of the key otherwise.  Floats that
  are no numbers become null.  No blanks are written.
-/
import SafeExpr.Value.Render

namespace SafeExpr

namespace JsonText

/-- One character of a string. -/
def stringChar (c : Char) : List Char :=
  match c with
  | '"' => ['\\', '"']
  | '\\' => ['\\', '\\']
  | '\n' => ['\\', 'n']
  | '\t' => ['\\', 't']
  | '\r' => ['\\', 'r']
  | '\x08' => ['\\', 'b']
  | '\x0c' => ['\\', 'f']
  | c =>
    if c.toNat < 0x10 then ['\\', 'u', '0', '0', '0'] ++ hexDigits c.toNat
    else if c.toNat < 0x20 then ['\\', 'u', '0', '0'] ++ hexDigits c.toNat
    else [c]

/-- A string between quotes. -/
def quote (s : String) : String :=
  String.ofList ('"' :: s.toList.flatMap stringChar ++ ['"'])

def writeFloat (x : Double) : String := if x.isFinite then x.render .json else "null"

mutual

/-- The text of a value behind `out`. -/
def write (out : String) : Value → String
  | .none => out ++ "null"
  | .bool true => out ++ "true"
  | .bool false => out ++ "false"
  | .int n => out ++ toString n.toInt
  | .float x => out ++ writeFloat x
  | .str s => out ++ quote s
  | .list items | .tuple items | .set items => (writeItems (out.push '[') items).push ']'
  | .dict entries => (writeEntries (out.push '\x7b') entries).push '\x7d'

/-- The items, separated by commas. -/
def writeItems (out : String) : List Value → String
  | [] => out
  | [v] => write out v
  | v :: rest => writeItems ((write out v).push ',') rest

/-- The members, separated by commas. -/
def writeEntries (out : String) : List (Value × Value) → String
  | [] => out
  | [(k, v)] => write ((out ++ quote k.plain).push ':') v
  | (k, v) :: rest => writeEntries ((write ((out ++ quote k.plain).push ':') v).push ',') rest

end

end JsonText

/-- The JSON text of a value. -/
def Value.toJson (v : Value) : String := JsonText.write "" v

end SafeExpr
