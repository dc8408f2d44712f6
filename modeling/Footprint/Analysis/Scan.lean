import Footprint.Analysis.Access

/-!
# Pointer parameters used as arrays

Before a body is walked it is scanned for pointer parameters that are used as
arrays.  A parameter is, if it is indexed somewhere, or if it is passed on to a
function whose parameter is.  The largest constant index, or the length the
other function needs, gives the least length of the array.
-/

namespace Footprint

/-- The variable at the start of an access expression. -/
def Node.baseName? : Node → Option String
  | .mk i cs _ =>
    match i.kind with
    | .declRef => some i.spelling
    | .implicit | .paren | .cast | .unary | .memberRef | .subscript =>
      match cs with
      | c :: _ => baseName? c
      | [] => none
    | _ => none

namespace Scan

/-- The pointer parameters of a function, by the name they have in its body. -/
abbrev Params := Table String VarId

/-- Collects the pointer parameters among some variables. -/
def paramsOf (m : Memory) (found : Params) : List VarId → Except Fault Params
  | [] => .ok found
  | id :: rest =>
    let v := m.varOf id
    if v.domain = .param && v.isPointer then
      match Text.after? ">" v.name with
      | some name => paramsOf m (found.set name id) rest
      | none => .error .unowned
    else paramsOf m found rest

/-- A variable used as an array of at least the given length. -/
def widen (length : Int) (v : Variable) : Variable :=
  { v with usedAsArray := true, usedLength := max v.usedLength length }

/-- Notes that the variable called `base` is indexed. -/
def noteIndex (params : Params) (base : String) (index : Node) : MemM Unit := do
  match params.get? base with
  | none => return ()
  | some id => do
    Memory.change id fun v => { v with usedAsArray := true }
    match index.integerText? with
    | none => return ()
    | some text => do
      let i ← orFault (Text.readInt text)
      Memory.change id (widen (i + 1))

/-- Notes that a parameter is passed on, if the parameter of the callee is used as an array. -/
def noteArgument (params : Params) (callee : Function) (param : Label) (argument : Node) :
    MemM Unit := do
  let m ← get
  match callee.vars.get? (ownedName callee.name.plain param.plain) with
  | none => return ()
  | some id =>
    if (m.varOf id).usedAsArray then
      match argument.baseName?.bind params.get? with
      | some own => Memory.change own (widen (m.varOf id).usedLength)
      | none => return ()
    else return ()

/-- Notes that parameters are passed on to parameters of a callee that are used as arrays. -/
def notePassed (params : Params) (callee : Function) : List (Label × Node) → MemM Unit
  | [] => return ()
  | (param, argument) :: rest => do
    noteArgument params callee param argument
    notePassed params callee rest

/-- Notes the parameters that a call passes on. -/
def noteCall (callee? : String → Option Function) (params : Params) (n : Node) : MemM Unit :=
  let name := Node.calleeName n.info
  if name.isEmpty then return ()
  else match callee? name with
    | none => return ()
    | some callee => notePassed params callee (callee.params.zip n.arguments)

/-- Notes the uses of parameters as arrays that a node is, apart from those in its children. -/
def noteNode (callee? : String → Option Function) (params : Params) (n : Node) : MemM Unit :=
  match n.kind, n.children with
  | .subscript, base :: index :: _ =>
    match base.baseName?.filter (!·.isEmpty) with
    | some name => noteIndex params name index
    | none => return ()
  | .call, _ => noteCall callee? params n
  | _, _ => return ()

mutual

/-- Notes the uses of parameters as arrays in a tree. -/
def scan (callee? : String → Option Function) (params : Params) : Node → MemM Unit
  | .mk i cs d => do
    noteNode callee? params (.mk i cs d)
    scanEach callee? params cs

/-- Notes the uses of parameters as arrays in some trees, one after the other. -/
def scanEach (callee? : String → Option Function) (params : Params) : List Node → MemM Unit
  | [] => return ()
  | c :: rest => do
    scan callee? params c
    scanEach callee? params rest

end

/-- Notes which pointer parameters of a function are used as arrays in its body. -/
def scanFunction (callee? : String → Option Function) (f : Function) : MemM Unit := do
  let params ← orFault (paramsOf (← get) {} f.vars.values)
  match f.body with
  | some body => if params.entries.isEmpty then return () else scan callee? params body
  | none => return ()

end Scan

end Footprint
