import Footprint.Report.Command
import Footprint.Sample.Project
import Footprint.Workload.Basic

/-!
# Analysing sample projects

These workloads write a sample project and then read it as a project, with the
syntax trees that the file tree has for its files.  They differ in how far they
go: the call graph, the analysis of every function, the interfaces of the
functions that the first one reaches, and the commands.
-/

namespace Footprint.Workload

/-- The first function of the chain. -/
def entryName : String := Sample.linkName 0

/-- A workload on a project, with its state at the end. -/
def onProject (fs : Files) (dir : String) (n : Nat) (entry : Option String)
    (measure : Project → Except Fault (List Measure)) : Workload :=
  let written := Sample.files dir n true
  match Project.run (Sample.write fs dir n true) dir entry {} with
  | .ok _ p =>
    { measures := measure p, written, types := p.types, memory := p.analysis.memory }
  | .error e p =>
    { measures := .error e, written, types := p.types, memory := p.analysis.memory }

/-- The number of variables in an interface. -/
def interfaceSize (s : Summary) : Nat :=
  s.parameters.length + s.state.length + s.input.length + s.output.length + s.inout.length

/-- Finds the interfaces of all functions.  The measures are their number and size. -/
def interfaces (fs : Files) (dir : String) (n : Nat) : Workload :=
  onProject fs dir n (some entryName) fun p => do
    let found ← p.functions.mapM fun f => p.summarize f.name
    return counts [found.length, total interfaceSize found]

/-- Analyses every function.  The measures are the numbers of functions and of blocks. -/
def functions (fs : Files) (dir : String) (n : Nat) : Workload :=
  onProject fs dir n none fun p =>
    .ok (counts [p.functions.length, p.analysis.memory.blocks.size])

/-- Analyses a whole project.  The measures are the numbers of globals, functions and blocks. -/
def pipeline (fs : Files) (dir : String) (n : Nat) : Workload :=
  onProject fs dir n none fun p =>
    .ok (counts [p.globalIds.length, p.functions.length, p.analysis.memory.blocks.size])

/-- The graph with two functions added that the first one does not reach: one that calls it, and
one alone. -/
def surrounded (g : CallGraph) : CallGraph :=
  (g.set "before_entry" (NameSet.ofList [entryName])).set "beside_entry" {}

/-- Finds the call graph and the order of analysis, from the graph and from the project. -/
def callGraph (fs : Files) (dir : String) (n : Nat) : Workload :=
  let written := Sample.files dir n false
  let fs := Sample.write fs dir n false
  let g := surrounded (CallGraph.ofProject fs dir)
  let edges := total (fun s => s.toList.length) g.values
  let measures := do
    let whole ← Project.order fs dir entryName
    match Order.fromRoot? g.callees edges entryName with
    | some order => return counts [g.keys.length, order.length, whole.length]
    | none => .error .endless
  { measures, written }

/-! ## Commands -/

/-- The files as a command left them. -/
def afterCommand (fs : Files) (o : Outcome) : Files :=
  o.written.foldl (fun fs (path, text) => fs.write path text) fs

/-- The measure of a command: the length of what it printed, or a negative number for the kind of
fault. -/
def commandMeasure : EStateM.Result Fault Outcome Unit → Int
  | .ok _ o => o.printed.length
  | .error .usage _ => -1
  | .error (.functionNotFound _) _ | .error (.badNumber _) _ | .error .longNumber _ => -2
  | .error _ _ => -3

/-- What a command left behind. -/
def commandOutcome : EStateM.Result Fault Outcome Unit → Outcome
  | .ok _ o => o
  | .error _ o => o

/-- The size of a file in bytes. -/
def fileSize (fs : Files) (path : String) : Except Fault Nat :=
  match fs.file? path with
  | some content => .ok content.text.utf8ByteSize
  | none => .error .missingFile

/-- Runs the commands, with good and with bad arguments.  The measures are those of the commands
and the sizes of the two files that the first one writes. -/
def commands (fs : Files) (dir : String) (n : Nat) : Workload :=
  let fs := Sample.write fs dir n true
  let out := FileName.join dir "out"
  let first := Command.summarize fs [entryName, dir, out, "--memory"] {}
  let fs' := afterCommand fs (commandOutcome first)
  let results :=
    [first, Command.list fs' [dir] {}, Command.summarize fs' [] {},
     Command.summarize fs' ["no_such_function", dir, out] {},
     Command.list fs' [Sample.sourcePath dir] {}]
  let measures := do
    let a ← fileSize fs' (FileName.join out ("results_" ++ entryName ++ ".json"))
    let b ← fileSize fs' (FileName.join out ("memory_" ++ entryName ++ ".txt"))
    return results.map (fun r => .count (commandMeasure r)) ++ counts [a, b]
  { measures, written := Sample.files dir n true ++ (commandOutcome first).written }

end Footprint.Workload
