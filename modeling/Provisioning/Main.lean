/-
The command line as a program: reads the files, prints what a command shows, and writes
the file it asks for.
-/
import Provisioning.CommandLine.Run

open Provisioning CommandLine

/-- Shows an error on the error output, the outermost sentence first. -/
def showError (error : List String) : IO Unit := do
  match error with
  | [] => return
  | head :: causes =>
    IO.eprintln ("Error: " ++ head)
    unless causes.isEmpty do
      IO.eprintln "\nCaused by:"
      causes.forM fun cause => IO.eprintln ("    " ++ cause)

/-- The text of a file, if it can be read. -/
def readText (path : String) : IO (Option String) :=
  try return some (← IO.FS.readFile path) catch _ => return none

/-- Writes a file, and says whether that was possible. -/
def writeText (path text : String) : IO Bool :=
  try
    IO.FS.writeFile path text
    return true
  catch _ => return false

def main (args : List String) : IO UInt32 := do
  let paths := match Request.ofArgs args with
    | .run i => i.plan :: i.state.toList
    | _ => []
  let texts ← paths.mapM readText
  let read (path : String) : Option String :=
    ((paths.zip texts).find? fun e => e.1 = path).bind (·.2)
  let planned := CommandLine.run ⟨read, fun _ => true⟩ args
  let outcome ← match planned.written with
    | none => pure planned
    | some (path, text) => do
      if ← writeText path text then pure planned
      else pure (CommandLine.run ⟨read, fun _ => false⟩ args)
  IO.print outcome.stdout
  if outcome.code = 2 then usage.forM fun line => IO.eprintln line
  showError outcome.error
  return UInt32.ofNat outcome.code
