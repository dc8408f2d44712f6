import Footprint.Function
import Footprint.Memory.Marks

/-!
# The state of the analysis

Functions are analysed one after the other over one memory.  Between functions
the state is an `Analysis`.  While a body is walked it is a `Walk`, which also
holds where each pointer points at that moment and what was written so far.
-/

namespace Footprint

/-- The function that a call of a name means. -/
abbrev CallIndex := Table LabelKey Nat

/-- The state between functions. -/
structure Analysis where
  memory : Memory := {}
  /-- All functions, in the order in which they became known. -/
  functions : Array Function := #[]
  index : CallIndex := {}
  /-- Where the global pointers point when a function starts. -/
  pointers : Table String (Option Int) := {}
  /-- The initialisers of the global pointers. -/
  inits : Table String Node := {}
deriving Repr, Inhabited

/-- The state while a body is walked. -/
structure Walk where
  memory : Memory
  functions : Array Function
  /-- Where each pointer points. -/
  pointers : Table String (Option Int)
  /-- The names written so far. -/
  written : NameSet := {}
deriving Repr, Inhabited

/-- What does not change while a body is walked. -/
structure Scope where
  types : TypeTable
  /-- The function that is walked. -/
  root : Nat
  /-- Its name. -/
  name : String
deriving Repr, Inhabited

/-- A step between functions. -/
abbrev AnalysisM := EStateM Fault Analysis

/-- A step in a body. -/
abbrev WalkM := EStateM Fault Walk

/-- A step on a part of the state. -/
def zoom {σ τ α : Type} (part : σ → τ) (put : τ → σ → σ) (x : EStateM Fault τ α) :
    EStateM Fault σ α := fun s =>
  match x (part s) with
  | .ok a t => .ok a (put t s)
  | .error e t => .error e (put t s)

/-- A step on the memory, between functions. -/
def Analysis.onMemory {α : Type} (x : MemM α) : AnalysisM α :=
  zoom Analysis.memory (fun m s => { s with memory := m }) x

namespace Walk

/-- A step on the memory, in a body. -/
def onMemory {α : Type} (x : MemM α) : WalkM α :=
  zoom Walk.memory (fun m s => { s with memory := m }) x

/-- The address of a name. -/
def addressOf (s : Scope) (name : String) : WalkM (Option Nat) :=
  onMemory (Memory.resolve s.types name)

/-- The variable at an address. -/
def variableAt (a : Int) : WalkM (Option (VarId × Variable)) := onMemory (Memory.variableAt a)

/-- Changes the record of the function that is walked. -/
def changeRoot (s : Scope) (f : Function → Function) : WalkM Unit :=
  modify fun w => { w with functions := w.functions.modify s.root f }

/-- The address of a name as it stands in a body: a global one, or else one of the function. -/
def addressIn (s : Scope) (name : String) : WalkM (Option Nat) := do
  match ← addressOf s name with
  | some a => return some a
  | none => addressOf s (ownedName s.name name)

/-! ## Reads and writes -/

/-- Whether a variable is read or written. -/
inductive Use where
  | read
  | write
deriving Repr, DecidableEq

/-- Notes a use of a name in the record of the function. -/
def noteName (s : Scope) (use : Use) (name : String) : WalkM Unit :=
  changeRoot s fun f =>
    match use with
    | .read => { f with reads := f.reads.insert name }
    | .write => { f with writes := f.writes.insert name }

/-- Notes a use of the block at an address.  Uses of pointers are not noted, nor reads of what the
function has written. -/
def mark (s : Scope) (use : Use) (a : Int) : WalkM Unit := do
  match ← variableAt a with
  | none => return ()
  | some (_, v) =>
    if v.isPointer then return ()
    else match use with
      | .read =>
        if (← get).written.contains v.name then return ()
        else do
          onMemory (Memory.read a s.name)
          noteName s .read v.name
      | .write => do
        onMemory (Memory.write a s.name)
        noteName s .write v.name
        modify fun w => { w with written := w.written.insert v.name }

/-- Notes a use of the variable at an address itself, pointer or not. -/
def markItself (s : Scope) (use : Use) (a : Int) : WalkM Unit := do
  match ← variableAt a with
  | none => return ()
  | some (id, v) => do
    onMemory (Memory.change id fun v =>
      match use with
      | .read => v.markRead s.name
      | .write => v.markWrite s.name)
    noteName s use v.name

/-- Notes uses of a named variable. -/
def markNamed (s : Scope) (uses : List Use) (name : String) : WalkM Unit := do
  if name.isEmpty then return ()
  else match ← addressIn s name with
    | none => return ()
    | some a => uses.forM fun use => mark s use a

/-! ## Names shared with callees -/

/-- The name before its first member or index. -/
def rootOf (name : String) : String := Text.before "[" (Text.before "." (bareName name))

/-- Notes that a name is shared with a callee: the name, its root, and the root as an own name. -/
def share (s : Scope) (name : String) : WalkM Unit := do
  if name.isEmpty then return ()
  else
    let root := rootOf name
    changeRoot s fun f =>
      let shared := f.shared.insert name
      { f with
        shared :=
          if root.isEmpty then shared else (shared.insert root).insert (ownedName s.name root) }

/-- Notes that the variable at an address is shared with a callee. -/
def shareAt (s : Scope) (a : Int) : WalkM Unit := do
  match ← variableAt a with
  | none => return ()
  | some (_, v) => share s v.name

end Walk

end Footprint
