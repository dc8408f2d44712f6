import Footprint.Analysis.Body
import Footprint.Analysis.Initial
import Footprint.Analysis.Scan

/-!
# Analysing functions

`start` sets the analysis up for the functions of a project.  `analyse` then
takes one function.  It forgets the pointers to blocks but for those of the
global initialisers, lays out the parameters, walks the body, and notes where
the pointers point at its end.  A function without a body has its configured
pointer assignments in place of a walk.
-/

namespace Footprint.Analysis

/-- Makes a pointer point to a target when a function starts. -/
def preset (name : String) (a : Int) : AnalysisM Unit := do
  modify fun s => { s with pointers := s.pointers.set name (some a) }
  onMemory (Memory.addRef a name)

/-- The target of an initialiser. -/
def initTarget (T : TypeTable) (init : Node) : AnalysisM (Option Int) := do
  onMemory (Memory.initialTarget T (← get).pointers init)

/-- Gives a global pointer the target of its initialiser. -/
def initPointer (T : TypeTable) (name : String) (init : Node) : AnalysisM Unit := do
  match ← initTarget T init with
  | some a => preset name a
  | none => return ()

/-- Gives global pointers the targets of their initialisers. -/
def initPointers (T : TypeTable) : List (String × Node) → AnalysisM Unit
  | [] => return ()
  | (name, init) :: rest => do
    initPointer T name init
    initPointers T rest

/-- Gives pointers targets that are known beforehand. -/
def presetPointers : List (String × Int) → AnalysisM Unit
  | [] => return ()
  | (name, a) :: rest => do
    preset name a
    presetPointers rest

/-- The call index with a function taken in. -/
def takeIn (known : Array Function) (calls : CallIndex) (id : Nat) : CallIndex :=
  match known[id]? with
  | some f => calls.set f.name.key id
  | none => calls

/-- The function that each name means: of several the last. -/
def indexOf (known : Array Function) (ids : List Nat) : CallIndex := ids.foldl (takeIn known) {}

/-- Sets the analysis up: the function that each name means, where the global pointers point. -/
def start (T : TypeTable) (globals : List VarId) (inits : Table String Node)
    (functions : List Nat) (presets : Table String Int) : AnalysisM Unit := do
  modify fun s =>
    let index := indexOf s.functions functions
    let pointers := globals.foldl (fun t id =>
      let v := s.memory.varOf id
      if v.isPointer then t.set v.name none else t) {}
    { s with index, pointers, inits }
  presetPointers presets.entries
  initPointers T inits.entries

/-- Records a global initialiser at the block it points to. -/
def recallPointer (T : TypeTable) (name : String) (init : Node) : AnalysisM Unit := do
  match ← initTarget T init with
  | some a => onMemory (Memory.addRef a name)
  | none => return ()

/-- Records the global initialisers at the blocks they point to. -/
def recallPointers (T : TypeTable) : List (String × Node) → AnalysisM Unit
  | [] => return ()
  | (name, init) :: rest => do
    recallPointer T name init
    recallPointers T rest

/-- The function that a name means. -/
def callee? (s : Analysis) (name : String) : Option Function :=
  (s.index.get? (.text name)).bind fun id => s.functions[id]?

/-- The address of a configured target. -/
def configuredTarget (s : Scope) (target : Option String) : WalkM (Option Int) := do
  match target.filter (!·.isEmpty) with
  | some name => return (← Walk.addressOf s name).map Int.ofNat
  | none => return none

/-- Makes a configured pointer point to a configured target. -/
def assignConfigured (s : Scope) (pointer : String) (target : Option String) : WalkM Unit := do
  match ← Walk.addressOf s pointer with
  | none => return ()
  | some a => do
    let target ← configuredTarget s target
    Walk.dropRef pointer (← Walk.currentTarget pointer)
    Walk.setTarget pointer target
    Walk.remember target (← Walk.variableAt a)
    Walk.noteRef pointer target

/-- Notes where one pointer points at the end of the function. -/
def noteEnd (s : Scope) (name : String) (target : Option Int) : WalkM Unit := do
  match ← Walk.addressOf s name with
  | none => return ()
  | some a =>
    match ← Walk.variableAt a with
    | none => return ()
    | some (_, v) =>
      if v.isPointer then
        Walk.changeRoot s fun f =>
          { f with pointerEnds := f.pointerEnds.set a (target <|> v.liveTarget) }
      else return ()

/-- Notes where pointers point at the end of the function. -/
def noteEnds (s : Scope) : List (String × Option Int) → WalkM Unit
  | [] => return ()
  | (name, target) :: rest => do
    noteEnd s name target
    noteEnds s rest

/-- What a function does, from its body or its configuration. -/
def performBody (calls : CallIndex) (s : Scope) (f : Function) : WalkM Unit :=
  match f.body with
  | some body => Walk.walkBody calls s body
  | none => f.configured.forM fun (pointer, target) => assignConfigured s pointer target

/-- What a function does, and where the pointers point after it. -/
def perform (calls : CallIndex) (s : Scope) (f : Function) : WalkM Unit := do
  performBody calls s f
  Walk.changeRoot s fun f => { f with pointerEnds := {} }
  noteEnds s (← get).pointers.entries

/-- Takes a step in a body as a step between functions.  Where pointers point and what was written
is forgotten afterwards. -/
def inBody {α : Type} (pointers : Table String (Option Int)) (x : WalkM α) : AnalysisM α :=
  fun s =>
    match x { memory := s.memory, functions := s.functions, pointers } with
    | .ok a w => .ok a { s with memory := w.memory, functions := w.functions }
    | .error e w => .error e { s with memory := w.memory, functions := w.functions }

/-- Notes which parameters of a function are used as arrays. -/
def scan (id : Nat) : AnalysisM Unit := do
  let s ← get
  match s.functions[id]? with
  | some f => onMemory (Scan.scanFunction s.callee? f)
  | none => return ()

/-- Notes which parameters of a function are used as arrays, if it has a body. -/
def scanBody (id : Nat) (f : Function) : AnalysisM Unit :=
  if f.body.isSome then scan id else return ()

/-- Where pointers point when a body starts: the pointer parameters to their own blocks. -/
def startPointers (pointers : Table String (Option Int)) (defaults : Table String Nat) :
    Table String (Option Int) :=
  defaults.entries.foldl (fun t (name, a) => t.set name (some (Int.ofNat a))) pointers

/-- Analyses a function whose record is known. -/
def analyseFunction (T : TypeTable) (id : Nat) (f : Function) : AnalysisM Unit := do
  scanBody id f
  let defaults ← onMemory (Memory.allocateFunctionParams T {} f.vars.values)
  let s ← get
  inBody (startPointers s.pointers defaults)
    (perform s.index { types := T, root := id, name := f.name.plain } f)

/-- Analyses one function. -/
def analyse (T : TypeTable) (id : Nat) : AnalysisM Unit := do
  onMemory Memory.clearRefs
  recallPointers T (← get).inits.entries
  match (← get).functions[id]? with
  | none => return ()
  | some f => analyseFunction T id f

/-- Gives every whole the marks of its parts. -/
def finish : AnalysisM Unit := onMemory Memory.collect

end Footprint.Analysis
