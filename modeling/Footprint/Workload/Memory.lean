import Footprint.Memory.Marks
import Footprint.Workload.Basic

/-!
# Filling a memory

Globals of five types are laid out in turn, then parameters of all forms and a
local.  Paths into the globals are followed, every global is read and written,
and a pointer parameter becomes an array.  At the end come the cases that a
program does not have: types that are not known, a pointer to nothing, an
element whose name is taken, a place without a block, and an array whose type
was lost.

The measures are the number of blocks before the odd cases, the sum of all
addresses that were found, and the number of places at the end.
-/

namespace Footprint.Workload

/-! ## Types and variables -/

/-- The types of the globals, and a struct that is looked up by its tag alone. -/
def memoryTypes : TypeTable :=
  { structs := Table.ofList
      [("struct Inner",
        { name := "struct Inner", memberTypes := ["int", "double[3]"],
          memberNames := ["id", "v"] }),
       ("struct Outer",
        { name := "struct Outer", memberTypes := ["struct Inner[4]", "int[8]", "int *"],
          memberNames := ["items", "flags", "pp"] })]
    aliases := Table.ofList
      [("Inner", "struct Inner"), ("Outer", "struct Outer"), ("OuterArr", "struct Outer[3]")] }

/-- A struct that is added when the others have been sized. -/
def lateStruct : Record :=
  { name := "struct Unknown2", memberTypes := ["int"], memberNames := ["z"] }

/-- The global at a place: five types in turn. -/
def globalAt (i : Nat) : Variable :=
  let name := "g" ++ toString i
  match i % 5 with
  | 0 => { name, type := "int", kind := .builtin }
  | 1 => { name, type := "int *", kind := .pointer, isPointer := true }
  | 2 => { name, type := "int[8]", kind := .array }
  | 3 => { name, type := "struct Outer", kind := .record }
  | _ => { name, type := "OuterArr", kind := .array }

/-- The paths into a global that are followed. -/
def pathsInto (v : Variable) : List String :=
  let below (ways : List String) := ways.map fun way => v.name ++ way
  if v.kind = .record then below [".items", ".flags", ".pp", ".items[1].v[2]", "->flags[0]"]
  else if v.type = "OuterArr" then below ["[0].items[0].id"]
  else if v.kind = .array then below ["[3]"]
  else []

/-- A pointer parameter. -/
def pointerParam (name type : String) : Variable :=
  { name := "<f>" ++ name, type, kind := .pointer, domain := .param, isPointer := true }

/-- A pointer parameter that is used as an array of three. -/
def arrayParam (name : String) : Variable :=
  { pointerParam name "int *" with usedAsArray := true, usedLength := 3 }

/-! ## Steps -/

/-- A step whose fault does not matter. -/
def attempt {α : Type} (x : MemM α) : MemM Unit := fun m =>
  match x m with
  | .ok _ m => .ok () m
  | .error _ m => .ok () m

/-- Declares variables. -/
def declareAll (vs : List Variable) : MemM (List VarId) := vs.mapM Memory.declare

/-- The first of some variables that has a kind. -/
def firstOfKind (kind : VarKind) (ids : List VarId) : MemM Variable := do
  let m ← get
  match (ids.map m.varOf).find? fun v => v.kind = kind with
  | some v => return v
  | none => throw .noneLeft

/-- The sum of the addresses that paths lead to. -/
def sumAddresses (T : TypeTable) (paths : List String) : MemM Nat := do
  let found ← paths.mapM (Memory.resolve T)
  return total (fun a => a.getD 0) found

/-- Lays out the globals, parameters and the local, and follows the paths. -/
def fill (T : TypeTable) (n : Nat) : MemM (List VarId × Nat) := do
  let globals ← declareAll ((List.range n).map globalAt)
  Memory.allocateGlobals T globals
  let _ ← Memory.allocateParams T {} (← declareAll [pointerParam "p0" "int *", arrayParam "p1"])
  let _ ← Memory.allocateFunctionParams T {}
    (← declareAll [pointerParam "p2" "int *", arrayParam "p3"])
  let inner ← Memory.declare
    { name := "<f>loc", type := "struct Inner", kind := .record, domain := .inner }
  let _ ← Memory.allocateRoot T inner
  let vs := globals.map (← get).varOf
  let total ← sumAddresses T (vs.flatMap fun v => v.name :: pathsInto v)
  return (globals, total)

/-- Reads every global as one function and writes it as another. -/
def useAll : List VarId → MemM Unit
  | [] => return ()
  | id :: rest => do
    let a := ((← get).varOf id).address
    Memory.read a "fA"
    Memory.write a "fB"
    useAll rest

/-- Lays out variables whose types are not known, and pointers to nothing. -/
def layOutUnknown (T : TypeTable) : MemM Unit := do
  attempt (Memory.allocate T "weird" "struct Unknown" 0 none)
  attempt (Memory.allocate T "weird2" "Unknown2" 0 none)
  let _ ← Memory.allocateParams T {} (← declareAll [pointerParam "vp" "*"])
  let _ ← Memory.allocateFunctionParams T {} (← declareAll [pointerParam "vp2" "*"])

/-- Gives the name of an element of an array to the element for all, and asks for it. -/
def takeName (T : TypeTable) (v : Variable) : MemM Unit := do
  match v.parts.get? .anyElement with
  | none => return ()
  | some a => do
    modify fun m => { m with names := m.names.set (v.name ++ "[5]") a }
    let _ ← Memory.element T v.address v.name (.element 5)

/-- Takes the block away from the first part of a struct. -/
def dropPart (T : TypeTable) (v : Variable) : MemM Unit := do
  let a := v.address.toNat + 1
  modify fun m => { m with blocks := m.blocks.setIfInBounds a none }
  let _ ← Memory.resolve T (v.name ++ ".items[0]")
  Memory.addRef a "g"
  Memory.removeRef a "g"

/-- Makes an array of an array variable whose type is no array type any more. -/
def regrow (T : TypeTable) : MemM Unit := do
  let name := "<f>badarr"
  let id ← Memory.declare { name, type := "int[4]", kind := .array, domain := .inner }
  let _ ← Memory.allocateRoot T id
  Memory.change id fun v => { v with type := "int" }
  Memory.growArray T name "int" 3

/-- The whole workload on an empty memory. -/
def fillMemory (T : TypeTable) (n : Nat) : MemM (List Measure) := do
  let (globals, total) ← fill T n
  useAll globals
  Memory.growArray T "<f>p0__pointee" "int" 4
  Memory.paramToArray T "<f>p0" "int" 3
  Memory.collect
  let count := (← get).blocks.toList.countP Option.isSome
  let array ← firstOfKind .array globals
  let record ← firstOfKind .record globals
  Memory.clearRefs
  layOutUnknown { T with structs := T.structs.set lateStruct.name lateStruct }
  takeName T array
  let _ ← Memory.resolve T (array.name ++ "[ 0 ]")
  regrow T
  dropPart T record
  return counts [count, total, (← get).blocks.size]

/-- Fills a memory with `n` globals. -/
def memoryFilling (n : Nat) : Workload :=
  match TypeTable.sizeAll memoryTypes with
  | .error e T => { measures := .error e, types := T }
  | .ok _ T =>
    let types := { T with structs := T.structs.set lateStruct.name lateStruct }
    match fillMemory T n {} with
    | .ok measures m => { measures := .ok measures, types, memory := m }
    | .error e m => { measures := .error e, types, memory := m }

end Footprint.Workload
