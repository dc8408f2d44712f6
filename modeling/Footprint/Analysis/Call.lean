import Footprint.Analysis.Access

/-!
# Calls

What a call adds to the calling function.  The callee has been analysed before,
or is configured, so its reads, its writes and its pointer assignments are
known.  Its global names mean the same in the caller.  A name under a pointer
parameter is carried over to what the caller passed for it, its *actual*.
-/

namespace Footprint.Walk

/-! ## Actuals -/

/-- What a caller passes for a pointer parameter. -/
structure Actual where
  param : Label
  /-- The address it has as the value of a pointer. -/
  target : Option Int
  /-- The access path it denotes. -/
  name : Option String
deriving Repr

/-- Adds an actual.  A second one for the same parameter takes the place of the first. -/
def putActual (x : Actual) : List Actual → List Actual
  | [] => [x]
  | y :: rest =>
    if y.param.key = x.param.key then { x with param := y.param } :: rest
    else y :: putActual x rest

/-- The actual for a parameter. -/
def actualFor? (actuals : List Actual) (param : String) : Option Actual :=
  actuals.find? fun x => x.param = .text param

/-- Notes that an optional name is shared with a callee. -/
def share? (s : Scope) : Option String → WalkM Unit
  | some name => share s name
  | none => return ()

/-- The actual of one parameter, if the parameter is a pointer or used as an array. -/
def actualOf? (s : Scope) (callee : Function) (param : Label) (argument : Node) :
    WalkM (Option Actual) := do
  match callee.vars.get? (ownedName callee.name.plain param.plain) with
  | none => return none
  | some id =>
    let v := (← get).memory.varOf id
    if v.isPointer || v.usedAsArray then
      let target ← pointerTarget s argument
      let name ← accessName s argument
      share? s name
      return some { param, target, name }
    else return none

/-- The actuals of the pointer parameters, in the order of the parameters. -/
def actualsOf (s : Scope) (callee : Function) (found : List Actual) :
    List (Label × Node) → WalkM (List Actual)
  | [] => return found
  | (param, argument) :: rest => do
    match ← actualOf? s callee param argument with
    | some x => actualsOf s callee (putActual x found) rest
    | none => actualsOf s callee found rest

/-! ## Reads and writes of the callee -/

/-- The name of the variable at an address. -/
def nameAt? (a : Int) : WalkM (Option String) := do
  match ← variableAt a with
  | some (_, v) => return some v.name
  | none => return none

/-- The use of an element under a pointer parameter.  It is a use of that element of the actual, or
of what the actual points to if there is no such element. -/
def mergeElement (s : Scope) (use : Use) (actual : Option Actual) (index : String) :
    WalkM Unit := do
  match actual.bind Actual.target with
  | none => return ()
  | some target => do
    let base ← nameAt? target
    match ((actual.bind Actual.name).filter (!·.isEmpty) <|> base).filter (!·.isEmpty) with
    | none => return ()
    | some name => do
      share s name
      match ← addressIn s (name ++ "[" ++ index ++ "]") with
      | some a => mark s use a
      | none => mark s use target

/-- The use of what a pointer parameter points to.  Without a known target it is a use of the
actual itself. -/
def mergePointee (s : Scope) (use : Use) (actual : Option Actual) : WalkM Unit := do
  let name := (actual.bind Actual.name).filter (!·.isEmpty)
  match actual.bind Actual.target with
  | some target => do
    shareAt s target
    share? s name
    mark s use target
  | none =>
    match name with
    | none => return ()
    | some n => do
      share s n
      match ← addressIn s n with
      | some a => markItself s use a
      | none => return ()

/-- The use of a parameter or of a part of one.  Only uses of actuals count: what is passed by
value belongs to the callee. -/
def mergePart (s : Scope) (use : Use) (actuals : List Actual) (name : String) : WalkM Unit := do
  let param := Text.before "." (Text.before "[" name)
  let actual := actualFor? actuals param
  match (actual.bind Actual.name).filter (!·.isEmpty) with
  | none => return ()
  | some n => do
    share s n
    match ← addressIn s (n ++ Text.dropFirst param.length name) with
    | some a => mark s use a
    | none =>
      match actual.bind Actual.target with
      | some target => mark s use target
      | none => return ()

/-- The use of a global name. -/
def mergeGlobal (s : Scope) (use : Use) (name : String) : WalkM Unit := do
  match ← addressOf s name with
  | none => return ()
  | some a => do
    share s name
    mark s use a

/-- A use by the callee, as a use by the caller. -/
def mergeUse (s : Scope) (callee : Function) (actuals : List Actual) (use : Use)
    (name : String) : WalkM Unit := do
  let start := ownerStart callee.name.plain
  let pointeeIndex := Memory.pointeeEnding ++ "["
  if Text.starts start name then
    let own := Text.dropFirst start.length name
    if Text.has pointeeIndex name then
      let param := Text.before Memory.pointeeEnding own
      let index := Text.withoutSuffix "]" ((Text.after? pointeeIndex name).getD "")
      mergeElement s use (actualFor? actuals param) index
    else if Text.ends Memory.pointeeEnding name then
      let param := Text.withoutSuffix Memory.pointeeEnding own
      mergePointee s use (actualFor? actuals param)
    else mergePart s use actuals own
  else mergeGlobal s use name

/-! ## Pointer assignments of the callee -/

/-- The name in the caller of a name under one parameter.  `none` goes on to the next parameter,
`some none` ends the search without a name.  The parameter itself has a name in the caller only as
a value. -/
def nameUnder (asValue : Bool) (actual : Actual) (argument pointee name : String) :
    Except Fault (Option (Option String)) :=
  let pointeeStart := actual.param.plain ++ Memory.pointeeEnding
  if name = pointeeStart then .ok (some (some pointee))
  else if Text.starts (pointeeStart ++ ".") name || Text.starts (pointeeStart ++ "[") name then
    .ok (some (some (pointee ++ Text.dropFirst pointeeStart.length name)))
  else match actual.param with
    | .text param =>
      if name = param then .ok (some (if asValue then some argument else none))
      else if Text.starts (param ++ ".") name || Text.starts (param ++ "[") name then
        .ok (some (some (argument ++ Text.dropFirst param.length name)))
      else .ok none
    | _ => .error .nameNotText

/-- The name of the variable at an optional address. -/
def nameAtTarget? : Option Int → WalkM (Option String)
  | some a => nameAt? a
  | none => return none

/-- The name in the caller of a name of the callee. -/
def nameInCaller (asValue : Bool) (name : String) : List Actual → WalkM (Option String)
  | [] => return none
  | actual :: rest => do
    match actual.name.filter (!·.isEmpty) with
    | none => nameInCaller asValue name rest
    | some argument => do
      let pointee ← nameAtTarget? actual.target
      match ← orFault (nameUnder asValue actual argument (pointee.getD argument) name) with
      | some found => return found
      | none => nameInCaller asValue name rest

/-- The address in the caller of the target of a pointer of the callee. -/
def targetInCaller (s : Scope) (start : String) (actuals : List Actual) (target : Option Int) :
    WalkM (Option Int) := do
  match target.filter fun a => 0 ≤ a with
  | none => return none
  | some a =>
    match ← nameAt? a with
    | none => return none
    | some name =>
      if Text.starts start name then
        addressIn? s (← nameInCaller true (Text.dropFirst start.length name) actuals)
      else return (← addressOf s name).map Int.ofNat

/-- The name in the caller of a pointer of the callee. -/
def pointerInCaller (start : String) (actuals : List Actual) (name : String) :
    WalkM (Option String) :=
  if Text.starts start name then nameInCaller false (Text.dropFirst start.length name) actuals
  else return some name

/-- A pointer that the callee leaves pointing somewhere, carried over to the caller. -/
def mergePointer (s : Scope) (callee : Function) (actuals : List Actual) (pointer : Nat)
    (target : Option Int) : WalkM Unit := do
  let start := ownerStart callee.name.plain
  match ← variableAt pointer with
  | none => return ()
  | some (_, v) =>
    if !v.isPointer then return ()
    else do
      match (← pointerInCaller start actuals v.name).filter (!·.isEmpty) with
      | none => return ()
      | some name => do
        let target ← targetInCaller s start actuals target
        let key := (← pointerKey s name).getD name
        repoint s key target

/-! ## The call -/

/-- Adds what the callee does. -/
def mergeCallee (s : Scope) (callee : Function) (arguments : List Node) : WalkM Unit := do
  let actuals ← actualsOf s callee [] (callee.params.zip arguments)
  callee.reads.toList.forM (mergeUse s callee actuals .read)
  callee.writes.toList.forM (mergeUse s callee actuals .write)
  callee.pointerEnds.entries.forM fun (pointer, target) =>
    mergePointer s callee actuals pointer target

/-- Adds what the called function does, if it is known. -/
def mergeCall (calls : CallIndex) (s : Scope) (name : String) (arguments : List Node) :
    WalkM Unit := do
  if name.isEmpty then return ()
  else match calls.get? (.text name) with
    | none => return ()
    | some id =>
      match (← get).functions[id]? with
      | none => return ()
      | some callee => mergeCallee s callee arguments

end Footprint.Walk
