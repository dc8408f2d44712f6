import Footprint.Report.Command
import Footprint.Snapshot

/-!
# The command line

`<function_name> [project_path] [output_dir] [--memory]` writes the interfaces of
the functions that a function reaches.  The snapshot of the project is one line
of standard input.
-/

namespace Footprint

/-- Makes the folders and writes the files of a command, and prints its text. -/
def Outcome.commit (o : Outcome) : IO Unit := do
  for path in o.made do
    IO.FS.createDirAll path
  for (path, text) in o.written do
    IO.FS.writeFile path text
  IO.print o.printed

end Footprint

open Footprint in
/-- Runs the summary command on the snapshot. -/
def main (args : List String) : IO UInt32 := do
  let line ← (← IO.getStdin).getLine
  match Json.read? line with
  | none =>
    IO.eprintln "The snapshot cannot be read."
    return 1
  | some snapshot =>
    let here := toString (← IO.currentDir)
    match Command.summarize (Snapshot.files here snapshot) args {} with
    | .ok _ o =>
      o.commit
      return 0
    | .error e o =>
      o.commit
      IO.eprintln (e.message.getD "The analysis stopped.")
      return 1
