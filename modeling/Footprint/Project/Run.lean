import Footprint.Project.Config
import Footprint.Project.Order

/-!
# Analysing a project

The declarations are collected, the structs sized, the configured functions
added and the globals laid out.  Then the functions are analysed: all of them in
the order in which they became known, or only those that the entry function can
reach, callees first.
-/

namespace Footprint.Project

/-- The order of analysis from an entry function. -/
def order (fs : Files) (project entry : String) : Except Fault (List String) :=
  let g := CallGraph.ofProject fs project
  let edges := total (fun s => s.toList.length) g.values
  match Order.fromRoot? g.callees edges entry with
  | some names => .ok names
  | none => .error .endless

/-- Analyses a function, and notes that it is done. -/
def analyse (id : Nat) : ProjectM Unit := do
  let T := (← get).types
  onAnalysis (Analysis.analyse T id)
  modify fun p =>
    match p.analysis.functions[id]? with
    | some f => { p with trace := (p.analysis.memory.blocks.size, f) :: p.trace }
    | none => p

/-- The functions that are analysed, in order. -/
def schedule (fs : Files) (project : String) (entry : Option String) : ProjectM (List Nat) := do
  let p ← get
  match entry.filter (!·.isEmpty) with
  | some name => do
    let names ← orFault (order fs project name)
    return names.filterMap fun f => p.analysis.index.get? (.text f)
  | none => return List.range p.analysis.functions.size

/-- Reads the project at an absolute path and sets the analysis up. -/
def prepare (fs : Files) (project : String) : ProjectM Unit := do
  collect fs project
  onTypes TypeTable.sizeAll
  Config.load fs project
  let p ← get
  onMemory (Memory.allocateGlobals p.types p.globalIds)
  let p ← get
  onAnalysis (Analysis.start p.types p.globalIds p.inits (List.range p.analysis.functions.size) {})

/-- Reads and analyses the project at a path. -/
def run (fs : Files) (path : String) (entry : Option String) : ProjectM Unit := do
  let project := fs.absolute path
  prepare fs project
  let ids ← schedule fs project entry
  ids.forM analyse
  onAnalysis Analysis.finish

end Footprint.Project
