import ShareCovenant.Command.Report

/-!
# The program

The first argument `verify` selects the auditor, which gets the other arguments. All else goes to the
splitter.
-/

open ShareCovenant

/-- Shows an outcome. -/
def showOutcome (outcome : Outcome) : IO UInt32 := do
  IO.eprint outcome.stderr
  IO.print outcome.stdout
  return UInt32.ofNat outcome.code

def main (args : List String) : IO UInt32 := do
  let key ← IO.getEnv Command.keyVariable
  match args with
  | "verify" :: rest => showOutcome (Command.run .standard .auditor key rest)
  | _ => showOutcome (Command.run .standard .splitter key args)
