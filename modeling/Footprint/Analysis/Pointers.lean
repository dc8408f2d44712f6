import Footprint.Analysis.State

/-!
# Pointers in a body

Where a pointer points is known under its *key*, the full name of the pointer.
A name in a body is first taken as a name of the function, then as a global
one.  A pointer that has no known target in this function may still have one
from before, which its variable remembers.
-/

namespace Footprint.Walk

/-- The full name of the pointer at a name, if there is a pointer. -/
def pointerNamed (s : Scope) (name : String) : WalkM (Option String) := do
  match ← addressOf s name with
  | none => return none
  | some a =>
    match ← variableAt a with
    | some (_, v) => return if v.isPointer then some v.name else none
    | none => return none

/-- The key of the pointer that a name in a body means. -/
def pointerKey (s : Scope) (name : String) : WalkM (Option String) := do
  if name.isEmpty then return none
  else
    let own := ownedName s.name name
    match ← pointerNamed s own with
    | some key => return some key
    | none =>
      match ← pointerNamed s name with
      | some key => return some key
      | none =>
        let w ← get
        return if w.pointers.contains own then some own
          else if w.pointers.contains name then some name
          else none

/-- The key of the pointer that an optional name means. -/
def pointerKey? (s : Scope) : Option String → WalkM (Option String)
  | some name => pointerKey s name
  | none => return none

/-- The variable of a key, if the key has an address. -/
def variableOf (s : Scope) (key : String) : WalkM (Option (VarId × Variable)) := do
  match ← addressOf s key with
  | some a => variableAt a
  | none => return none

/-- The target that a pointer variable remembers. -/
def remembered : Option (VarId × Variable) → Option Int
  | some (_, v) => if v.isPointer then v.liveTarget else none
  | none => none

/-- The target that the variable of a key remembers. -/
def rememberedTarget (s : Scope) (key : String) : WalkM (Option Int) := do
  return remembered (← variableOf s key)

/-- The target that the pointer of a key has in this body. -/
def currentTarget (key : String) : WalkM (Option Int) := do
  return ((← get).pointers.get? key).join

/-- The target of the pointer of a key. -/
def targetOf (s : Scope) (key : String) : WalkM (Option Int) := do
  if key.isEmpty then return none
  else match ← currentTarget key with
    | some a => return some a
    | none => rememberedTarget s key

/-- The target of the pointer that an optional name means. -/
def targetOfName (s : Scope) (name : Option String) : WalkM (Option Int) := do
  match ← pointerKey? s name with
  | some key => targetOf s key
  | none => return none

/-- The name of the variable that the pointer called `name` points to, or the name itself. -/
def pointedName? (s : Scope) (name : String) : WalkM (Option String) := do
  match ← targetOfName s (some name) with
  | none => return none
  | some a =>
    match ← variableAt a with
    | some (_, v) => return some v.name
    | none => return none

/-- Takes a pointer out of the record of what it pointed to. -/
def dropRef (key : String) : Option Int → WalkM Unit
  | some a => onMemory (Memory.removeRef a key)
  | none => return ()

/-- Records a pointer at what it points to. -/
def noteRef (key : String) : Option Int → WalkM Unit
  | some a => onMemory (Memory.addRef a key)
  | none => return ()

/-- Makes a pointer variable remember its target. -/
def remember (target : Option Int) : Option (VarId × Variable) → WalkM Unit
  | some (id, v) =>
    if v.isPointer then onMemory (Memory.change id fun v => { v with target }) else return ()
  | none => return ()

/-- Sets the target that the pointer of a key has in this body. -/
def setTarget (key : String) (target : Option Int) : WalkM Unit :=
  modify fun w => { w with pointers := w.pointers.set key target }

/-- Makes the pointer of a key point to a target, or nowhere. -/
def repoint (s : Scope) (key : String) (target : Option Int) : WalkM Unit := do
  let current ← currentTarget key
  let known ← variableOf s key
  dropRef key (current <|> remembered known)
  setTarget key target
  remember target known
  noteRef key target

end Footprint.Walk
