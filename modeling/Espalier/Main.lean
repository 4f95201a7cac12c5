import Espalier.Command.Run

set_option autoImplicit false

/-! # The program

Reads the command line and the file, and writes the outcome. -/

open Espalier

/-- The content of a file, if it can be read as text. -/
def readContent (name : String) : IO (Option String) := do
  try
    pure (some (← IO.FS.readFile name))
  catch _ => pure none

/-- The outcome of a command line. -/
def runArguments (arguments : List String) : IO Outcome := do
  match Request.ofArguments arguments with
  | .error ending => pure (.ofEnding ending)
  | .ok request => pure (request.run (← readContent request.file))

/-- Answer the command line. -/
def main (arguments : List String) : IO UInt32 := do
  let outcome ← runArguments arguments
  IO.print outcome.output
  IO.eprint outcome.errors
  pure outcome.code.toUInt32
