import Footprint.Memory.Basic
import Footprint.Memory.Path

/-!
# Laying out variables

A variable gets one block, and then blocks for its parts: one for each member of
a struct, and for an array the element that stands for all elements.  Other
elements get their blocks when a path first asks for them, in `resolve`.

A struct that contains itself would be laid out for ever.  The bound of
`allocateWithin` counts nested parts, and `layoutBound` is more than a layout
that ends can need.  On the way down no type can come twice, unless the names
that are already there stop the layout, and then the name at that place is no
longer than one of them.  A typedef counts twice, since it may be resolved when
a part is laid out and again when its element is.
-/

namespace Footprint.Memory

/-- Says where a part of a variable is. -/
def setPart (id : VarId) (s : Slot) (a : Nat) : MemM Unit :=
  change id fun v => { v with parts := v.parts.set s a }

/-- Lays out a part with the given name, type and parent. -/
abbrev Layout := String → String → Nat → MemM Nat

/-- The address of an element of the array at an address, laid out if it is not there.  The name of
the array is given, since names of elements are built on it. -/
def elementWith (T : TypeTable) (layout : Layout) (array : Int) (name : String) (s : Slot) :
    MemM (Option Nat) := do
  match ← variableAt array with
  | none => return none
  | some (id, v) =>
    if v.kind ≠ .array then return none
    else match v.parts.get? s with
      | some a => return some a
      | none =>
        let (base, _) ← orFault (T.element v.type)
        let child := name ++ s.suffix
        match (← get).address? child with
        | some a =>
          setPart id s a
          return some a
        | none =>
          setPart id s (← get).next
          let _ ← layout child base array.toNat
          return ((← get).varOf id).parts.get? s

/-- The memory with a block for a variable at its end, whose address the name has. -/
def withBlock (m : Memory) (name : String) (parent : Nat) (id : VarId) : Memory :=
  { m with
    blocks := m.blocks.push (some { address := m.next, parent, var := id })
    names := m.names.set name m.next
    next := m.next + 1 }

/-- Appends a block for a variable and gives the name its address. -/
def append (name : String) (parent : Nat) (id : VarId) : MemM Unit :=
  modify fun m => m.withBlock name parent id

/-- The variable of a part of the given name and decoded type. -/
def partVariable (T : TypeTable) (name type : String) (a : Nat) : Variable :=
  { name, type, kind := T.kindOf type, isPointer := T.isPointer type, address := a }

/-- Lays out the members of a struct at an address, one after the other. -/
def allocateMembers (layout : Layout) (name : String) (a : Nat) (id : VarId) :
    List (String × String) → MemM Unit
  | [] => pure ()
  | (type, member) :: rest => do
    setPart id (.member member) (← get).next
    let _ ← layout (name ++ "." ++ member) type a
    allocateMembers layout name a id rest

/-- The given variable, or else a new one for a part of the given name and decoded type. -/
def variableFor (T : TypeTable) (name type : String) (a : Nat) : Option VarId → MemM VarId
  | some id => pure id
  | none => declare (partVariable T name type a)

/-- Lays out the parts of the variable at an address, whose decoded type is given. -/
def allocateParts (T : TypeTable) (layout : Layout) (name type : String) (a : Nat) (id : VarId) :
    MemM Unit := do
  if T.isBasic type then return ()
  else if T.isArray type then
    let _ ← elementWith T layout a name .anyElement
    return ()
  else match T.recordFor? type with
    | some r => allocateMembers layout name a id r.members
    | none => throw (.unknownType type)

/-- Lays out a variable whose parts nest no deeper than the bound, and gives its address.  Without
a variable one is made for the part. -/
def allocateWithin (T : TypeTable) : Nat → String → String → Nat → Option VarId → MemM Nat
  | 0, _, _, _, _ => throw .endless
  | bound + 1, name, type, parent, given => do
    let type := T.decode type
    let a := (← get).next
    let id ← variableFor T name type a given
    append name parent id
    allocateParts T (fun n t p => allocateWithin T bound n t p none) name type a id
    return a

/-- The length of the longest name. -/
def longestName (m : Memory) : Nat := (m.names.keys.map String.length).foldl max 0

/-- More nested parts than a layout that ends can have. -/
def layoutBound (T : TypeTable) (m : Memory) (type : String) : Nat :=
  2 * ((TypeName.normalize type).length + 1) + 2 * TypeTable.textWeight T.aliases.values +
    T.memberWeight + m.longestName + 2

/-- Lays out a variable or a part. -/
def allocate (T : TypeTable) (name type : String) (parent : Nat) (given : Option VarId) :
    MemM Nat := do
  let m ← get
  allocateWithin T (layoutBound T m type) name type parent given

/-- The address of an element of an array, laid out if it is not there. -/
def element (T : TypeTable) (array : Int) (name : String) (s : Slot) : MemM (Option Nat) :=
  elementWith T (fun n t p => allocate T n t p none) array name s

/-! ## Following paths -/

/-- The element that an index text picks: a question mark for any, digits for one. -/
def slotOf (text : String) : Except Fault (Option Slot) :=
  if text = "?" then .ok (some .anyElement)
  else if Text.allDigits text then (Text.readDigits text).map fun i => some (.element i)
  else .ok none

/-- The address that steps lead to from an address.  Elements are laid out on the way. -/
def follow (T : TypeTable) : Nat → List Step → MemM (Option Nat)
  | a, [] => return some a
  | a, step :: rest => do
    match ← variableAt a with
    | none => return none
    | some (_, v) =>
      match step with
      | .broken => return none
      | .member m =>
        match v.parts.get? (.member m) with
        | some c => follow T c rest
        | none => return none
      | .index text =>
        match ← orFault (slotOf text) with
        | none => return none
        | some s =>
          match v.parts.get? s with
          | some c => follow T c rest
          | none =>
            match ← element T a v.name s with
            | some c => follow T c rest
            | none => return none

/-- The address of a name or of an access path.  Elements are laid out on the way. -/
def resolve (T : TypeTable) (name : String) : MemM (Option Nat) := do
  if name.isEmpty then return none
  else match (← get).address? name with
    | some a => return some a
    | none =>
      let (root, steps) := Path.parse name
      if root.isEmpty then return none
      else match (← get).address? root with
        | some a => follow T a steps
        | none => return none

/-! ## Lists of variables -/

/-- Lays out a declared variable and gives it its address. -/
def allocateRoot (T : TypeTable) (id : VarId) : MemM Nat := do
  let v := (← get).varOf id
  let a ← allocate T v.name v.type 0 (some id)
  change id fun v => { v with address := a }
  return a

/-- Lays out global variables, one after the other. -/
def allocateGlobals (T : TypeTable) : List VarId → MemM Unit
  | [] => pure ()
  | id :: rest => do
    let _ ← allocateRoot T id
    allocateGlobals T rest

/-- The ending of the name of the block that a pointer parameter is taken to point to. -/
def pointeeEnding : String := "__pointee"

/-- The variable that a pointer parameter is taken to point to: an array if it is used as one. -/
def pointeeVariable (T : TypeTable) (v : Variable) : Variable :=
  let base := TypeName.pointee (T.decode v.type)
  let base := if base.isEmpty then "void" else base
  let type := if v.usedAsArray then TypeName.arrayOf base (max v.usedLength 1) else base
  { name := v.name ++ pointeeEnding, type, kind := T.kindOf type, domain := v.domain,
    isPointer := T.isPointer type }

/-- Lays out what a pointer parameter is taken to point to. -/
def allocatePointee (T : TypeTable) (v : Variable) : MemM Nat := do
  let pointee := pointeeVariable T v
  let id ← declare pointee
  allocate T pointee.name pointee.type 0 (some id)

/-- Lays out one parameter.  A pointer gets a block to point to, whose address is noted. -/
def allocateParam (T : TypeTable) (noted : Table String Nat) (id : VarId) :
    MemM (Table String Nat) := do
  let _ ← allocateRoot T id
  let v := (← get).varOf id
  if v.isPointer then
    let a ← allocatePointee T v
    addRef a v.name
    return noted.set v.name a
  else return noted

/-- Lays out parameters.  The result says which block each pointer is taken to point to. -/
def allocateParams (T : TypeTable) (noted : Table String Nat) :
    List VarId → MemM (Table String Nat)
  | [] => return noted
  | id :: rest => do
    let noted ← allocateParam T noted id
    allocateParams T noted rest

/-- A pointer that is used as an array becomes an array of the length its uses need. -/
def asArray (T : TypeTable) (v : Variable) : Variable :=
  if v.isPointer && v.usedAsArray then
    { v with
      type := TypeName.arrayOf (TypeName.pointee (T.decode v.type)) (max v.usedLength 1)
      kind := .array
      isPointer := false }
  else v

/-- Lays out the parameters of a function that have no address yet, pointers that are used as
arrays as arrays. -/
def allocateFunctionParams (T : TypeTable) (noted : Table String Nat) :
    List VarId → MemM (Table String Nat)
  | [] => return noted
  | id :: rest => do
    let v := (← get).varOf id
    if v.address ≠ 0 then allocateFunctionParams T noted rest
    else do
      change id (asArray T)
      let noted ← allocateParam T noted id
      allocateFunctionParams T noted rest

/-! ## Pointers that turn out to be arrays -/

/-- Lays out the elements of an array from an index on, as many as are left. -/
def elementsFrom (T : TypeTable) (array : Nat) (name : String) (i : Nat) : Nat → MemM Unit
  | 0 => pure ()
  | left + 1 => do
    let _ ← element T array name (.element i)
    elementsFrom T array name (i + 1) left

/-- Makes the variable at an address an array, and lays out all its elements. -/
def becomeArray (T : TypeTable) (a : Nat) (id : VarId) (name base : String) (length : Int) :
    MemM Unit := do
  change id fun v =>
    { v with type := TypeName.arrayOf base length, kind := .array, isPointer := false }
  let _ ← element T a name .anyElement
  elementsFrom T a name 0 length.toNat

/-- The length of an array variable, or zero. -/
def knownLength (T : TypeTable) (v : Variable) : Nat :=
  if v.kind = .array then
    match T.element v.type with
    | .ok (_, n) => n
    | .error _ => 0
  else 0

/-- Makes the named variable an array of at least the given length. -/
def growArray (T : TypeTable) (name base : String) (length : Int) : MemM Unit := do
  if length ≤ 0 then return ()
  else match (← get).address? name with
    | none => return ()
    | some a =>
      match ← variableAt a with
      | none => return ()
      | some (id, v) =>
        if (knownLength T v : Int) < length then becomeArray T a id name base length
        else return ()

/-- The variable is the given one, or a part of it. -/
def isUnder (name : String) (v : Variable) : Bool :=
  v.name = name || Text.starts (name ++ "[") v.name || Text.starts (name ++ ".") v.name

/-- Hides a block's variable if it is the given one or a part of it. -/
def hideUnder (name : String) (m : Memory) (b : Option Block) : Memory :=
  match b with
  | none => m
  | some b =>
    if isUnder name (m.varOf b.var) then m.setVar b.var fun v => { v with hidden := true } else m

/-- Makes a pointer parameter an array, and hides what it was taken to point to. -/
def paramToArray (T : TypeTable) (name base : String) (length : Int) : MemM Unit := do
  if length ≤ 0 then return ()
  else match (← get).address? name with
    | none => return ()
    | some a =>
      match ← variableAt a with
      | none => return ()
      | some (id, _) => do
        becomeArray T a id name base length
        modify fun m => m.blocks.foldl (hideUnder (name ++ pointeeEnding)) m

end Footprint.Memory
