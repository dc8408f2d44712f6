import Footprint.Project.Collect

/-!
# Memory listings

The blocks of the memory as text, three lines each: the variable with its type,
parent and size, the functions that read it, and the functions that write it.
Sizes are found on the way and may fail, and then the lines before stand.
-/

namespace Footprint.Report

/-- Text that is written piece by piece while sizes are found.  On a fault it holds the pieces
written before. -/
structure Printed where
  types : TypeTable
  text : String := ""
deriving Repr

/-- A step that prints. -/
abbrev PrintM := EStateM Fault Printed

/-- Adds a piece of text. -/
def print (s : String) : PrintM Unit := modify fun p => { p with text := p.text ++ s }

/-- The size of a type. -/
def sizeOf (type : String) : PrintM Nat :=
  zoom Printed.types (fun T p => { p with types := T }) (TypeTable.size type)

/-- The names of a set in one line. -/
def nameLine (s : NameSet) : String :=
  if s.isEmpty then "-" else String.intercalate ", " s.toList

/-- The lines of a block. -/
def printBlock (a : Nat) (b : Block) (v : Variable) : PrintM Unit := do
  let size ← sizeOf v.type
  print ("  M: Addr " ++ toString a ++ ": " ++ v.name ++ " (type " ++ v.type ++ ", parent=" ++
    toString b.parent ++ ", size=" ++ toString size ++ ")\n")
  print ("     R: " ++ nameLine v.readers ++ "\n")
  print ("     W: " ++ nameLine v.writers ++ "\n")

/-- The lines of the blocks that are kept, by ascending address. -/
def printBlocks (m : Memory) (keep : Variable → Bool) : List Nat → PrintM Unit
  | [] => return ()
  | a :: rest => do
    match m.block? a with
    | some b => if keep (m.varOf b.var) then printBlock a b (m.varOf b.var)
    | none => pure ()
    printBlocks m keep rest

/-- The addresses of a memory. -/
def addresses (m : Memory) : List Nat := (List.range m.blocks.size).drop 1

/-- The listing of the blocks that are not hidden. -/
def printMemory (m : Memory) : PrintM Unit := do
  print "Memory Blocks:\n\n"
  printBlocks m (fun v => !v.hidden) (addresses m)

/-! ## The listing of a project -/

/-- The lines of the global variables. -/
def printGlobals (m : Memory) : List VarId → PrintM Unit
  | [] => return ()
  | id :: rest => do
    let v := m.varOf id
    let size ← sizeOf v.type
    print ("  G: " ++ v.name ++ ": " ++ v.type ++ ", addr=" ++ toString v.address ++ ", size=" ++
      toString size ++ "\n")
    printGlobals m rest

/-- Everything that is known about an analysed project: globals, functions, structs and blocks. -/
def printProject (p : Project) : PrintM Unit := do
  let m := p.analysis.memory
  print ("Parsed " ++ toString p.globalIds.length ++ " global variables\n")
  printGlobals m p.globalIds
  print ("Parsed " ++ toString p.functions.length ++ " functions\n")
  p.functions.forM fun f => print ("  F: " ++ f.name.plain ++ " in " ++ f.source ++ "\n")
  let structs := (← get).types.structs.values
  print ("Parsed " ++ toString structs.length ++ " structs\n")
  structs.forM fun r => print ("  S: " ++ r.name ++ " (size=" ++ toString r.size ++ ")\n")
  print "\nMemory Blocks:\n"
  printBlocks m (fun _ => true) (addresses m)

end Footprint.Report
