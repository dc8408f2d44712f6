import Footprint.Json.Writer
import Footprint.Project.Run
import Footprint.Report.MemoryText
import Footprint.Report.Summary

/-!
# The commands

`Command.summarize` analyses a project from a function, and writes the
interfaces of the functions it reaches to a file, and on demand the memory to
another.  `Command.list` analyses a whole project and prints what it found.

A command is a step on an `Outcome`, what it printed and wrote so far.  A fault
leaves what was written before.
-/

namespace Footprint

/-- What a command did. -/
structure Outcome where
  /-- The printed text. -/
  printed : String := ""
  /-- The folders that were asked for. -/
  made : List String := []
  /-- The files that were written: the name and the text. -/
  written : List (String × String) := []
deriving Repr, DecidableEq, Inhabited

/-- A step of a command. -/
abbrev CommandM := EStateM Fault Outcome

namespace Command

/-- Prints a line. -/
def printLine (s : String) : CommandM Unit :=
  modify fun o => { o with printed := o.printed ++ s ++ "\n" }

/-- Asks for a folder. -/
def makeFolder (path : String) : CommandM Unit :=
  modify fun o => { o with made := o.made ++ [path] }

/-- Writes a file. -/
def writeFile (path text : String) : CommandM Unit :=
  modify fun o => { o with written := o.written ++ [(path, text)] }

/-- A step on a value of its own, which is given back.  On a fault it is lost. -/
def evaluate {σ : Type} (s : σ) (x : EStateM Fault σ Unit) : CommandM σ :=
  match x s with
  | .ok _ s => pure s
  | .error e _ => throw e

/-- The arguments of the summary command. -/
structure Arguments where
  function : String
  project : String := "input"
  output : String := "output"
  withMemory : Bool := false
deriving Repr, DecidableEq, Inhabited

/-- The argument is an option. -/
def isOption (s : String) : Bool := Text.starts "--" s

/-- Reads the arguments: the function, and then the project and the output folder unless an option
stands in their places. -/
def Arguments.parse : List String → Except Fault Arguments
  | [] => .error .usage
  | function :: rest =>
    let place (i : Nat) (default : String) := ((rest[i]?).filter (!isOption ·)).getD default
    .ok
      { function
        project := place 0 "input"
        output := place 1 "output"
        withMemory := rest.contains "--memory" }

/-- The functions whose interfaces are written: those reached from the function that are known,
callers first, and the function itself. -/
def reported (p : Project) (order : List String) (function : String) : List String :=
  let known := order.reverse.filter fun name => p.knows (.text name)
  if known.contains function then known else known ++ [function]

/-- The interfaces of some functions. -/
def summaries (p : Project) : List String → Except Fault (List Summary)
  | [] => .ok []
  | name :: rest => do
    let first ← p.summarize (.text name)
    return first :: (← summaries p rest)

/-- Writes the memory to a file.  A fault leaves the part before it in the file. -/
def writeMemory (p : Project) (path : String) : CommandM Unit :=
  match Report.printMemory p.analysis.memory { types := p.types } with
  | .ok _ t => writeFile path t.text
  | .error e t => do
    writeFile path t.text
    throw e

/-- Writes the interfaces of the functions that a function reaches. -/
def summarize (fs : Files) (argv : List String) : CommandM Unit := do
  let args ← orFault (Arguments.parse argv)
  let p ← evaluate {} (Project.run fs args.project (some args.function))
  let order ← orFault (Project.order fs (fs.absolute args.project) args.function)
  let names := (reported p order args.function).filter fun name =>
    !p.configured.any fun l => l.key = .text name
  let found ← orFault (summaries p names)
  makeFolder args.output
  let path := FileName.join args.output ("results_" ++ args.function ++ ".json")
  writeFile path (Json.write .page (.arr (found.map Summary.toJson)))
  printLine ("Summaries for reachable functions from '" ++ args.function ++ "' written to " ++ path)
  if args.withMemory then
    let path := FileName.join args.output ("memory_" ++ args.function ++ ".txt")
    writeMemory p path
    printLine ("Memory report for '" ++ args.function ++ "' written to " ++ path)

/-- Prints what is found in the project of the first argument.  Without one nothing is done. -/
def list (fs : Files) (argv : List String) : CommandM Unit := do
  match argv with
  | [] => return ()
  | path :: _ => do
    let p ← evaluate {} (Project.run fs path none)
    let t ← evaluate { types := p.types } (Report.printProject p)
    modify fun o => { o with printed := o.printed ++ t.text }

end Command

end Footprint
