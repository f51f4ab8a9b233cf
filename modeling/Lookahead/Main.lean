import Lookahead.CommandLine
import Lookahead.Text.ControlSequence

namespace Lookahead

def fileReason : IO.Error → String
  | .noFileOrDirectory .. => "No such file or directory (os error 2)"
  | .permissionDenied .. => "Permission denied (os error 13)"
  | e => toString e

def attempt {α : Type} (act : IO α) : IO (Except String α) := do
  try
    return .ok (← act)
  catch e =>
    return .error (fileReason e)

-- Whatever a message holds, its line does not steer the terminal that shows it.
instance : Shell IO where
  readFile path := attempt (IO.FS.readFile path)
  writeFile path contents := attempt (IO.FS.writeFile path contents)
  print := IO.print
  report := IO.eprint
  log line := IO.eprint (Text.ControlSequence.strip line)

end Lookahead

open Lookahead.CommandLine

def main (args : List String) : IO UInt32 := do
  match Options.default.read args with
  | .error e =>
    IO.eprintln s!"error: {e}"
    return 2
  | .ok options => return (← options.main).toUInt32
