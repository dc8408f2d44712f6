import Footprint.Analysis.Run
import Footprint.Project.CallGraph
import Footprint.Types.Declare

/-!
# Collecting declarations

The declarations of a project are read file by file, from the top level of each
syntax tree.  Only what stands in a file of the project counts.  A global
variable is known by its name, a function by its file and name, and a struct,
union or typedef by its place, and of several the first counts.  A later
declaration of a global pointer may still bring its initialiser.
-/

namespace Footprint

/-- A project while it is read and analysed. -/
structure Project where
  types : TypeTable := {}
  analysis : Analysis := {}
  /-- The global variables by name, in the order of their declaration. -/
  globals : Table String VarId := {}
  /-- The initialisers of the global pointers. -/
  inits : Table String Node := {}
  /-- The functions that are known from a configuration. -/
  configured : List Label := []
  /-- The functions met so far, as file and name. -/
  seenFunctions : List (String × String) := []
  /-- The type declarations met so far, as file and place. -/
  seenTypes : List (String × Option Int × Option Int) := []
  /-- The functions analysed so far, the last first: the number of places in the memory right
  after it, and the record of the function. -/
  trace : List (Nat × Function) := []
deriving Repr, Inhabited

/-- A step on a project. -/
abbrev ProjectM := EStateM Fault Project

namespace Project

/-- A step on the memory. -/
def onMemory {α : Type} (x : MemM α) : ProjectM α :=
  zoom (fun p => p.analysis.memory)
    (fun m p => { p with analysis := { p.analysis with memory := m } }) x

/-- A step on the types. -/
def onTypes {α : Type} (x : TypeM α) : ProjectM α :=
  zoom Project.types (fun T p => { p with types := T }) x

/-- A step of the analysis. -/
def onAnalysis {α : Type} (x : AnalysisM α) : ProjectM α :=
  zoom Project.analysis (fun a p => { p with analysis := a }) x

/-- Adds a function. -/
def addFunction (f : Function) : ProjectM Unit :=
  modify fun p =>
    { p with analysis := { p.analysis with functions := p.analysis.functions.push f } }

/-- The type of a declaration. -/
def declaredType (n : Node) : ProjectM NodeType :=
  match n.info.type with
  | some t => pure t
  | none => throw .untyped

/-- Notes the first child of a declaration as the initialiser of a pointer. -/
def noteInit (name : String) (n : Node) : ProjectM Unit :=
  match n.children with
  | init :: _ => modify fun p => { p with inits := p.inits.set name init }
  | [] => pure ()

/-- Declares a global variable, unless there is one of its name. -/
def declareGlobal (name : String) (t : NodeType) : ProjectM Unit := do
  if (← get).globals.contains name then return ()
  else do
    let id ← onMemory (Memory.declare
      { name, type := t.spelling, kind := Walk.kindOfShape t.canonical,
        isPointer := t.canonical = .pointer })
    modify fun p => { p with globals := p.globals.set name id }

/-- Adds a global variable. -/
def addGlobal (n : Node) : ProjectM Unit := do
  if n.spelling.isEmpty then return ()
  else do
    let t ← declaredType n
    declareGlobal n.spelling t
    if t.canonical = .pointer then noteInit n.spelling n else return ()

/-- Declares the variables of the parameters of a function. -/
def declareParams (function : String) (params : List Label) (vars : Table String VarId) :
    List Node → ProjectM (List Label × Table String VarId)
  | [] => return (params.reverse, vars)
  | n :: rest =>
    if n.kind = .paramDecl && !n.spelling.isEmpty then do
      let t ← declaredType n
      let name := ownedName function n.spelling
      let id ← onMemory (Memory.declare
        { name, type := t.spelling, kind := Walk.kindOfShape t.canonical, domain := .param,
          isPointer := t.canonical = .pointer })
      declareParams function (.text n.spelling :: params) (vars.set name id) rest
    else declareParams function params vars rest

/-- Adds a function definition of the project at an absolute path. -/
def addDefinition (fs : Files) (project : String) (n : Node) : ProjectM Unit := do
  let file := fs.absolute (n.info.file.getD "")
  if (← get).seenFunctions.contains (file, n.spelling) then return ()
  else do
    modify fun p => { p with seenFunctions := (file, n.spelling) :: p.seenFunctions }
    let (params, vars) ← declareParams n.spelling [] {} n.children
    addFunction
      { name := .text n.spelling, source := FileName.relative file project, params, vars,
        body := some n }

/-- Adds a struct, union or typedef. -/
def addType (fs : Files) (n : Node) : ProjectM Unit := do
  let place := (fs.absolute (n.info.file.getD ""), n.info.line, n.info.column)
  if (← get).seenTypes.contains place then return ()
  else modify fun p =>
    { p with seenTypes := place :: p.seenTypes, types := (p.types.declare n).2 }

/-- Adds a declaration of the project at an absolute path. -/
def addDeclaration (fs : Files) (project : String) (n : Node) : ProjectM Unit := do
  if !inProject fs project n then return ()
  else match n.kind with
    | .varDecl => addGlobal n
    | .functionDecl =>
      if definesFunction fs project n then addDefinition fs project n else return ()
    | .structDecl | .unionDecl | .typedefDecl => addType fs n
    | .enumDecl => modify fun p => { p with types := p.types.declareEnum n }
    | _ => return ()

/-- Adds the declarations of all source files. -/
def collect (fs : Files) (project : String) : ProjectM Unit :=
  (fs.sources project).forM fun (_, content) => content.tree.forM (addDeclaration fs project)

/-- The global variables, in the order of their declaration. -/
def globalIds (p : Project) : List VarId := p.globals.values

/-- The functions, in the order in which they became known. -/
def functions (p : Project) : List Function := p.analysis.functions.toList

/-- A function of the name is known. -/
def knows (p : Project) (name : LabelKey) : Bool := p.functions.any fun f => f.name.key = name

end Project

end Footprint
