/-
  SafeExpr/Main.lean
  ==================
  **The command line program.**

  The standard input is read only where expressions come from it.
-/
import SafeExpr.CommandLine.Run

open SafeExpr.CommandLine

/-- Reads a stream to its end. -/
partial def readAll (stream : IO.FS.Stream) (read : String) : IO String := do
  let line ← stream.getLine
  if line.isEmpty then return read else readAll stream (read ++ line)

def main (words : List String) : IO UInt32 := do
  let input ← match Invocation.ofWords words with
    | .ok { expression := none, .. } => readAll (← IO.getStdin) ""
    | _ => pure ""
  let outcome := run words input
  IO.print outcome.output
  IO.eprint outcome.errors
  return UInt32.ofNat outcome.exitCode
