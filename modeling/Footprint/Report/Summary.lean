import Footprint.Project.Collect

/-!
# The interface of a function

What a function does with the variables it does not own, as roles.  A variable
that is declared in a body has no role.  Of the others, a global that is only
read is a parameter, and a global that the function reads and writes, that no
other function uses and that is not shared with a callee, is state.  Everything
else is input, output or both, as it is read or written.
-/

namespace Footprint

/-- The role of a variable in the interface of a function. -/
inductive Role where
  | parameter
  | state
  | input
  | output
  | inout
deriving Repr, DecidableEq, Inhabited

/-- A variable as the interface shows it. -/
structure Brief where
  name : String
  type : String
deriving Repr, DecidableEq, Inhabited

/-- The interface of a function: the variables of each role, by ascending address. -/
structure Summary where
  function : Label
  parameters : List Brief
  state : List Brief
  input : List Brief
  output : List Brief
  inout : List Brief
deriving Repr, Inhabited

/-- How a variable is shown: without its function, and with an arrow for a member behind a pointer
parameter.  What a pointer parameter points to is not shown as a whole. -/
def Brief.of (name type : String) : Option Brief :=
  if Text.ends Memory.pointeeEnding name then none
  else
    some { name := Text.substitute (Memory.pointeeEnding ++ ".") "->" (bareName name), type }

namespace Memory

/-- The block of the whole that the block at an address is a part of, if it is there. -/
def rootBlock? (m : Memory) (a : Nat) : Option Block :=
  match m.block? a with
  | none => none
  | some b =>
    if b.parent = 0 then some b
    else if b.parent < a then m.rootBlock? b.parent
    else none
termination_by a

/-- The domain of the whole that the block at an address is a part of. -/
def rootDomain? (m : Memory) (a : Nat) : Option Domain :=
  (m.rootBlock? a).map fun b => (m.varOf b.var).domain

/-- The role of a variable under a root of the given domain, for the function `f`. -/
def roleIn (f : String) (shared : NameSet) (root : Option Domain) (v : Variable) : Option Role :=
  let reads := v.readers.contains f
  let writes := v.writers.contains f
  let alone := v.readers.toList.all (· = f) && v.writers.toList.all (· = f)
  if root = some .inner || !(reads || writes) then none
  else if reads && !writes && root = some .global then some .parameter
  else if reads && writes && root = some .global && alone && !shared.contains v.name then
    some .state
  else if reads && !writes then some .input
  else if writes && !reads then some .output
  else some .inout

/-- The role of the block at an address for the function `f`. -/
def roleAt (m : Memory) (f : String) (shared : NameSet) (a : Nat) : Option Role :=
  (m.block? a).bind fun b => roleIn f shared (m.rootDomain? a) (m.varOf b.var)

/-- The blocks of a role as they are shown, by ascending address. -/
def briefs (m : Memory) (f : String) (shared : NameSet) (role : Role) : List Brief :=
  (List.range m.blocks.size).filterMap fun a =>
    if m.roleAt f shared a = some role then
      (m.block? a).bind fun b => Brief.of (m.varOf b.var).name (m.varOf b.var).declared
    else none

end Memory

namespace Project

/-- The interface of a function.  Only texts are names of readers and writers, so a function whose
name is a number has an empty interface. -/
def summarize (p : Project) (name : Label) : Except Fault Summary :=
  match p.functions.find? fun f => f.name.key = name.key with
  | none => .error (.functionNotFound name.plain)
  | some f =>
    let briefs (role : Role) := match name with
      | .text n => p.analysis.memory.briefs n f.shared role
      | _ => []
    .ok
      { function := name
        parameters := briefs .parameter
        state := briefs .state
        input := briefs .input
        output := briefs .output
        inout := briefs .inout }

end Project

namespace Summary

/-- A list of shown variables as data. -/
def briefsJson (bs : List Brief) : Json :=
  .arr (bs.map fun b => .obj [("name", .str b.name), ("type", .str b.type)])

/-- The interface as data. -/
def toJson (s : Summary) : Json :=
  .obj
    [("function_name", s.function.toJson),
     ("interface_semantics", .obj
       [("parameters", briefsJson s.parameters),
        ("state", briefsJson s.state),
        ("input", briefsJson s.input),
        ("output", briefsJson s.output),
        ("inout", briefsJson s.inout)])]

end Summary

end Footprint
