import Footprint.Memory.Variable
import Footprint.Types.Size

/-!
# The abstract memory

The memory is a row of blocks.  The address of a block is its place in the row,
and place zero is empty, so addresses start at one.  A block belongs to a
variable and has a parent, the block of the whole that it is a part of, or zero.
It also knows the names of the pointers that point to it.

Variables stand in a row of their own, and a block refers to its variable by
place.  A variable can be declared before it has a block.

A pointer may be said to hold any whole number.  Only numbers from one to the
last address name a block.
-/

namespace Footprint

/-- The place of a variable among the variables. -/
abbrev VarId := Nat

/-- A cell of the abstract memory. -/
structure Block where
  /-- The address it was given. -/
  address : Nat
  /-- The address of the whole that the block is a part of, or zero. -/
  parent : Nat
  /-- The variable. -/
  var : VarId
  /-- The pointers that point to the block. -/
  pointers : NameSet := {}
deriving Repr, DecidableEq, Inhabited

/-- The abstract memory. -/
structure Memory where
  /-- The variables, in the order of their declaration. -/
  vars : Array Variable := #[]
  /-- The blocks by address. -/
  blocks : Array (Option Block) := #[none]
  /-- The address of the next block. -/
  next : Nat := 1
  /-- The address of each name. -/
  names : Table String Nat := {}
  /-- The blocks whose pointers changed since they were last cleared. -/
  dirty : List Nat := []
deriving Repr, DecidableEq, Inhabited

/-- A step on the memory.  What it changed before a fault stays changed. -/
abbrev MemM := EStateM Fault Memory

namespace Memory

/-- The block at an address, if there is one. -/
def block? (m : Memory) (a : Nat) : Option Block := (m.blocks[a]?).join

/-- A variable by place. -/
def varOf (m : Memory) (id : VarId) : Variable := (m.vars[id]?).getD default

/-- The address of a name. -/
def address? (m : Memory) (name : String) : Option Nat := m.names.get? name

/-- The memory with a variable changed. -/
def setVar (m : Memory) (id : VarId) (f : Variable → Variable) : Memory :=
  { m with vars := m.vars.modify id f }

/-- The memory with a block changed. -/
def setBlock (m : Memory) (a : Nat) (f : Block → Block) : Memory :=
  { m with blocks := m.blocks.modify a (Option.map f) }

/-- Marks a block as having changed pointers. -/
def touch (m : Memory) (a : Nat) : Memory :=
  if m.dirty.contains a then m else { m with dirty := a :: m.dirty }

/-! ## Steps -/

/-- Adds a variable that has no block yet. -/
def declare (v : Variable) : MemM VarId := do
  let m ← get
  set { m with vars := m.vars.push v }
  return m.vars.size

/-- Changes a variable. -/
def change (id : VarId) (f : Variable → Variable) : MemM Unit := modify fun m => m.setVar id f

/-- The place of a number that must be the address of a block. -/
def place (a : Int) : MemM Nat := do
  let m ← get
  if a ≤ 0 || (m.blocks.size : Int) ≤ a then throw (.badAddress a (m.blocks.size - 1))
  else return a.toNat

/-- The block at an address. -/
def blockAt (a : Int) : MemM (Option Block) := do
  let p ← place a
  return (← get).block? p

/-- The place and the state of the variable at an address. -/
def variableAt (a : Int) : MemM (Option (VarId × Variable)) := do
  match ← blockAt a with
  | some b => return some (b.var, (← get).varOf b.var)
  | none => return none

/-! ## Pointers to a block -/

/-- Records that a pointer points to the block at an address. -/
def addRef (a : Int) (pointer : String) : MemM Unit := do
  match ← blockAt a with
  | some _ => modify fun m =>
      (m.setBlock a.toNat fun b => { b with pointers := b.pointers.insert pointer }).touch a.toNat
  | none => return ()

/-- Records that a pointer no longer points to the block at an address. -/
def removeRef (a : Int) (pointer : String) : MemM Unit := do
  match ← blockAt a with
  | some _ => modify fun m =>
      (m.setBlock a.toNat fun b => { b with pointers := b.pointers.erase pointer }).touch a.toNat
  | none => return ()

/-- Forgets the pointers to the block at an address. -/
def clearAt (a : Nat) : MemM Unit := do
  match ← blockAt a with
  | some _ => modify fun m => m.setBlock a fun b => { b with pointers := {} }
  | none => return ()

/-- Forgets the pointers to the blocks of a list. -/
def clearEach : List Nat → MemM Unit
  | [] => pure ()
  | a :: rest => do
    clearAt a
    clearEach rest

/-- Forgets all pointers to blocks. -/
def clearRefs : MemM Unit := do
  clearEach (← get).dirty
  modify fun m => { m with dirty := [] }

/-- The pointers to the block at `a` and to the wholes that it is a part of. -/
def refs (m : Memory) (a : Nat) : NameSet :=
  if a = 0 then {}
  else
    match m.block? a with
    | none => {}
    | some b => if b.parent < a then b.pointers.union (m.refs b.parent) else b.pointers
termination_by a

end Memory

end Footprint
