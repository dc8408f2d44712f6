import Footprint.Memory.Allocate

/-!
# Reads and writes

A function that reads or writes a block is noted at the block's variable, and at
every pointer that points to the block or to a whole it is a part of.  At the
end `collect` gives every whole the marks of its parts.
-/

namespace Footprint.Memory

/-- The place that a position names.  Negative positions count from the end. -/
def position (m : Memory) (a : Int) : Except Fault Nat :=
  let p := if a < 0 then a + m.blocks.size else a
  if p < 0 || (m.blocks.size : Int) ≤ p then .error .outOfRange else .ok p.toNat

/-- The block at a position, which must hold one. -/
def heldAt (a : Int) : MemM (Nat × Block) := do
  let m ← get
  let p ← orFault (m.position a)
  match m.block? p with
  | some b => return (p, b)
  | none => throw .noBlock

/-- Changes the variable of the block at a position. -/
def markAt (mark : Variable → Variable) (a : Int) : MemM Unit := do
  let (_, b) ← heldAt a
  change b.var mark

/-- Changes the variable of a named pointer, if it has an address. -/
def markPointer (mark : Variable → Variable) (pointer : String) : MemM Unit := do
  match (← get).address? pointer with
  | some a => markAt mark a
  | none => return ()

/-- Changes the variables of the named pointers, those that have an address. -/
def markPointers (mark : Variable → Variable) : List String → MemM Unit
  | [] => pure ()
  | p :: rest => do
    markPointer mark p
    markPointers mark rest

/-- Notes that `f` reads the block at a position.  After a write by `f` nothing is noted. -/
def read (a : Int) (f : String) : MemM Unit := do
  let (p, b) ← heldAt a
  let m ← get
  if (m.varOf b.var).writers.contains f then return ()
  else do
    markPointers (·.markRead f) (m.refs p).toList
    markAt (·.markRead f) a

/-- Notes that `f` writes the block at a position. -/
def write (a : Int) (f : String) : MemM Unit := do
  let (p, _) ← heldAt a
  markPointers (·.markWrite f) ((← get).refs p).toList
  markAt (·.markWrite f) a

/-- The pointers that point to the block at a position or to a whole it is a part of.  A position
past the end has none. -/
def refsAt (a : Int) : MemM NameSet := do
  let m ← get
  if (m.blocks.size : Int) ≤ a then return {}
  else do
    let p ← orFault (m.position a)
    return m.refs p

/-! ## Parts and wholes -/

/-- Adds the marks of one variable to another. -/
def shareMarks (source v : Variable) : Variable :=
  { v with readers := v.readers.union source.readers, writers := v.writers.union source.writers }

/-- Adds the marks of the block at an address to the whole it is a part of. -/
def liftMarks (m : Memory) (a : Nat) : Memory :=
  match m.block? a with
  | none => m
  | some b =>
    match m.block? b.parent with
    | none => m
    | some p => m.setVar p.var (shareMarks (m.varOf b.var))

/-- Adds the block at an address to the parts of its parent. -/
def addPart (m : Memory) (parts : Array (Array Nat)) (a : Nat) : Except Fault (Array (Array Nat)) :=
  match m.block? a with
  | none => .error .noBlock
  | some b =>
    if b.parent < parts.size then .ok (parts.modify b.parent (·.push a)) else .error .outOfRange

/-- The addresses of the parts by the address of the whole, and of the roots at place zero. -/
def groupParts (m : Memory) : Except Fault (Array (Array Nat)) :=
  (List.range' 1 (m.blocks.size - 1)).foldlM m.addPart (.replicate m.blocks.size #[])

/-- Searches the parts of the block at an address, down to some depth.  When the search comes back
from a part, the whole is given the marks that the part has by then. -/
def gather (parts : Array (Array Nat)) : Nat → Memory → Nat → Memory
  | 0, m, _ => m
  | depth + 1, m, a =>
    (parts.getD a #[]).toList.foldl (fun m c => (gather parts depth m c).liftMarks c) m

/-- Gives every whole the marks of its parts: groups the blocks by parent, and searches from each
root.  No block lies deeper than there are blocks. -/
def collect : MemM Unit := do
  let m ← get
  let parts ← orFault m.groupParts
  set ((parts.getD 0 #[]).toList.foldl (gather parts m.blocks.size) m)

end Footprint.Memory
