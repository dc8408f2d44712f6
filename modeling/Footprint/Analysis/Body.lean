import Footprint.Analysis.Call

/-!
# Walking a body

The walk over the statements and expressions of a body.  Each node is a step on
the state, and the step of a node is put together from the steps of its
children, so that sorting the children by place sorts steps.

`walk` takes an expression as a value.  `assign` takes it as the left side of an
assignment.  `readArgument` takes it as an argument of a call.
-/

namespace Footprint.Walk

/-! ## Arguments -/

/-- Notes the reads of an argument that denotes an access path.  The name of an array alone is not
read. -/
def readNamed (s : Scope) (i : NodeInfo) (name : String) : WalkM Unit := do
  match ← addressIn s name with
  | none => return ()
  | some a =>
    match ← variableAt a with
    | none => return ()
    | some (_, v) =>
      if v.isPointer || (i.kind = .declRef && v.kind = .array) then return ()
      else mark s .read a

/-- Notes a read of what a pointer expression points to. -/
def readDeref (s : Scope) (operand : Option Node) : WalkM Unit := do
  match operand with
  | none => return ()
  | some n =>
    match ← derefTarget s n with
    | some a => mark s .read a
    | none => return ()

mutual

/-- Notes the reads of an argument of a call. -/
def readArgument (s : Scope) : Node → WalkM Unit
  | .mk i cs d =>
    match i.kind with
    | .cast => (readEach s cs).forM fun (_, step) => step
    | .implicit | .paren =>
      match cs with
      | c :: _ => readArgument s c
      | [] => return ()
    | _ =>
      if i.kind = .unary && Node.operatorOf i = "*" then readDeref s cs.head?
      else if i.kind = .unary && Node.operatorOf i = "&" then
        match cs with
        | .mk j (_ :: index :: _) _ :: _ =>
          if j.kind = .subscript then readArgument s index else return ()
        | _ => return ()
      else do
        match (← accessName s (.mk i cs d)).filter (!·.isEmpty) with
        | none => (Node.inOrder (readEach s cs)).forM id
        | some name => do
          readNamed s i name
          match i.kind with
          | .memberRef =>
            match cs with
            | c :: _ => readArgument s c
            | [] => return ()
          | .subscript =>
            match cs with
            | base :: index :: _ => do
              readArgument s base
              readArgument s index
            | _ => return ()
          | _ => (Node.inOrder (readEach s cs)).forM id

/-- The steps of some arguments, each with its place. -/
def readEach (s : Scope) : List Node → List ((Int × Int) × WalkM Unit)
  | [] => []
  | .mk i cs d :: rest => (Node.place i, readArgument s (.mk i cs d)) :: readEach s rest

end

/-- The steps at the given places. -/
def stepsAt (steps : List ((Int × Int) × WalkM Unit)) (places : List Nat) : List (WalkM Unit) :=
  places.filterMap fun p => (steps[p]?).map Prod.snd

/-! ## Declarations and uses -/

/-- What a variable is, seen from the shape of its type. -/
def kindOfShape : TypeShape → VarKind
  | .pointer => .pointer
  | .record => .record
  | .array => .array
  | .other => .builtin

/-- The type of a declaration. -/
def typeOf (i : NodeInfo) : WalkM NodeType :=
  match i.type with
  | some t => pure t
  | none => throw .untyped

/-- Lays out a local variable, unless there is one of its name. -/
def declareLocal (s : Scope) (i : NodeInfo) : WalkM Unit := do
  let name := ownedName s.name i.spelling
  match ← addressOf s name with
  | some _ => return ()
  | none => do
    let t ← typeOf i
    let id ← onMemory (Memory.declare
      { name, type := t.spelling, kind := kindOfShape t.canonical, domain := .inner,
        isPointer := t.canonical = .pointer })
    let _ ← onMemory (Memory.allocateRoot s.types id)
    return ()

/-- Notes the read of an expression that denotes an access path.  The name of an array alone is not
read. -/
def readAccess (s : Scope) (n : Node) : WalkM Unit := do
  match ← accessName s n with
  | none => return ()
  | some name =>
    match ← addressIn s name with
    | none => return ()
    | some a =>
      match ← variableAt a with
      | none => return ()
      | some (_, v) =>
        if n.kind = .declRef && v.kind = .array then return () else markNamed s [.read] name

/-- The pointer that an assignment to `*operand` changes, if what it points to is a pointer. -/
def pointerBehind (s : Scope) (operand : Option Node) : WalkM (Option String) := do
  match operand with
  | none => return none
  | some n =>
    match ← derefTarget s n with
    | none => return none
    | some a =>
      match ← variableAt a with
      | some (_, v) => return if v.isPointer then some v.name else none
      | none => return none

/-- The pointer behind the left side of an assignment, if the left side is a dereference. -/
def pointerBehindLeft (s : Scope) (left : Node) : WalkM (Option String) :=
  if left.kind = .unary && Node.operatorOf left.info = "*" then
    pointerBehind s left.children.head?
  else return none

/-- The pointer that an assignment to an expression changes, if it is a pointer assignment. -/
def assignedPointer (s : Scope) (left : Node) : WalkM (Option String) := do
  match ← pointerBehindLeft s left with
  | some key => return some key
  | none => pointerKey? s (← accessName s left)

/-- Notes the uses of an assignment to `*operand`.  Only targets set in this body count. -/
def assignDeref (s : Scope) (uses : List Use) (operand : Option Node) : WalkM Unit := do
  match operand with
  | none => return ()
  | some n =>
    match ← pointerKey? s (← pointerName s n) with
    | none => return ()
    | some key =>
      match ← currentTarget key with
      | none => return ()
      | some a => uses.forM fun use => mark s use a

/-- Notes the uses of an assignment to an access path.  Assignments to pointers are no uses. -/
def assignNamed (s : Scope) (uses : List Use) (n : Node) : WalkM Unit := do
  match ← accessName s n with
  | none => return ()
  | some name =>
    match ← pointerKey s name with
    | some _ => return ()
    | none => markNamed s uses name

/-! ## The walk -/

mutual

/-- An expression or statement as a value. -/
def walk (calls : CallIndex) (s : Scope) : Node → WalkM Unit
  | .mk i cs d =>
    let steps := walkEach calls s cs
    match i.kind with
    | .varDecl =>
      if i.spelling.isEmpty then steps.forM fun (_, step) => step
      else do
        declareLocal s i
        let t ← typeOf i
        if t.shape = .pointer then
          let key := ownedName s.name i.spelling
          setTarget key none
          walkInit calls s key cs
        else steps.forM fun (_, step) => step
    | .call => do
      (stepsAt (readEach s cs) (Node.argumentPlaces i cs.length)).forM id
      mergeCall calls s (Node.calleeName i) (Node.mk i cs d).arguments
    | .declRef => readAccess s (.mk i cs d)
    | .memberRef => do
      readAccess s (.mk i cs d)
      match cs with
      | c :: _ => walk calls s c
      | [] => return ()
    | .subscript => do
      readAccess s (.mk i cs d)
      match cs with
      | base :: index :: _ => do
        walk calls s base
        walk calls s index
      | _ => return ()
    | .unary =>
      match cs with
      | [] => return ()
      | .mk j ds e :: _ =>
        let op := Node.operatorOf i
        if op = "*" then readDeref s (some (.mk j ds e))
        else if op = "&" then
          if j.kind = .subscript then
            match ds with
            | _ :: index :: _ => walk calls s index
            | _ => return ()
          else return ()
        else if op = "++" || op = "--" then assign calls s [.read, .write] (.mk j ds e)
        else walk calls s (.mk j ds e)
    | .binary | .compoundAssign =>
      match cs with
      | left :: right :: _ =>
        let op := Node.operatorOf i
        if op = "=" then do
          match ← assignedPointer s left with
          | some key => do
            let target ← pointerTarget s right
            repoint s key target
            walk calls s right
          | none => do
            walk calls s right
            assign calls s [.write] left
        else if Node.compoundOperators.contains op then do
          assign calls s [.read, .write] left
          walk calls s right
        else do
          walk calls s left
          walk calls s right
      | _ => (Node.inOrder steps).forM id
    | _ => (Node.inOrder steps).forM id

/-- An expression as the left side of an assignment. -/
def assign (calls : CallIndex) (s : Scope) (uses : List Use) : Node → WalkM Unit
  | .mk i cs d =>
    match i.kind with
    | .implicit | .paren | .cast =>
      match cs with
      | c :: _ => assign calls s uses c
      | [] => return ()
    | .subscript =>
      match cs with
      | _ :: index :: _ => do
        walk calls s index
        assignNamed s uses (.mk i cs d)
      | _ => assignNamed s uses (.mk i cs d)
    | .unary =>
      if Node.operatorOf i = "*" then assignDeref s uses cs.head?
      else assignNamed s uses (.mk i cs d)
    | _ => assignNamed s uses (.mk i cs d)

/-- The initialiser of a pointer: the first child that is no type. -/
def walkInit (calls : CallIndex) (s : Scope) (key : String) : List Node → WalkM Unit
  | [] => return ()
  | .mk i cs d :: rest =>
    if i.kind = .typeRef then walkInit calls s key rest
    else do
      let target ← pointerTarget s (.mk i cs d)
      repoint s key target
      walk calls s (.mk i cs d)

/-- The steps of some nodes, each with its place. -/
def walkEach (calls : CallIndex) (s : Scope) : List Node → List ((Int × Int) × WalkM Unit)
  | [] => []
  | .mk i cs d :: rest => (Node.place i, walk calls s (.mk i cs d)) :: walkEach calls s rest

end

/-- Walks the children of a definition in order. -/
def walkBody (calls : CallIndex) (s : Scope) (body : Node) : WalkM Unit :=
  (Node.inOrder (walkEach calls s body.children)).forM id

end Footprint.Walk
