import Footprint.Json.Reader
import Footprint.Project.Collect

/-!
# Configured functions

Functions without a definition can be described in files of the data format,
in the folder `config` of the project or beside it.  A file is a list of
entries.  An entry has the name of the function, its arguments with their types
and whether what they point to is read or written, and the pointers it sets.  A
file that is not a list, and an entry that is not well formed, adds nothing.  A
function that is already known keeps its first description.
-/

namespace Footprint.Config

/-- An argument of a configured function. -/
structure Argument where
  name : Label
  type : String
  reads : Bool
  writes : Bool
deriving Repr

/-- The value of a field, or null. -/
def fieldOrNull (j : Json) (key : String) : Json := (j.field? key).getD .null

/-- The value is an object. -/
def isObject : Json → Bool
  | .obj _ => true
  | _ => false

/-- The items of a list. -/
def items? : Json → Option (List Json)
  | .arr items => some items
  | _ => none

/-- The items of a list under a key, which may be missing. -/
def itemsUnder? (j : Json) (key : String) : Option (List Json) :=
  match j.field? key with
  | some value => items? value
  | none => some []

/-- The name and the type of an argument, if it has both. -/
def argumentFields (j : Json) : Option (Json × Json) :=
  let name := fieldOrNull j "name"
  let type := fieldOrNull j "type"
  if isObject j && name.truthy && type.truthy then some (name, type) else none

/-- The names of the arguments, which must be scalars. -/
def namedArguments : List Json → Except Fault (List (Label × Json × Json))
  | [] => .ok []
  | j :: rest =>
    match argumentFields j with
    | none => namedArguments rest
    | some (name, type) => do
      match Label.ofJson? name with
      | none => .error .nameNotKey
      | some label => return (label, type, j) :: (← namedArguments rest)

/-- The arguments, whose types must be texts. -/
def typedArguments : List (Label × Json × Json) → Except Fault (List Argument)
  | [] => .ok []
  | (name, type, j) :: rest =>
    match type with
    | .str type => do
      let flag (key : String) := (fieldOrNull j key).truthy
      return { name, type, reads := flag "read", writes := flag "write" } ::
        (← typedArguments rest)
    | _ => .error .typeNotText

/-- What a variable of a configured type is. -/
def kindOf (T : TypeTable) (type : String) : VarKind :=
  if T.isPointer type then .pointer
  else if T.isArray type then .array
  else if T.isStruct type then .record
  else .builtin

/-- The number of stars in a type. -/
def pointerLevel (T : TypeTable) (type : String) : Nat := (T.decode type).toList.count '*'

/-- An upper-case text.  The words it is compared with are ASCII, and no character outside ASCII
has one of their letters as its upper case. -/
def upper (s : String) : String := String.ofList (s.toList.map Char.toUpper)

/-- The name of a configured target.  There is none for null, for a blank text and for the null
pointer. -/
def targetName? (j : Json) : Option String :=
  match j with
  | .null => none
  | j =>
    let name := Text.stripped j.plain
    if name.isEmpty || upper name = "NULL" || upper name = "NULLPTR" then none else some name

/-- The types of the arguments, by name. -/
abbrev ArgumentTypes := Table LabelKey String

/-- The number of stars in the type of an argument, zero for a name that is none. -/
def levelOf (T : TypeTable) (types : ArgumentTypes) (name : LabelKey) : Nat :=
  ((types.get? name).map (pointerLevel T)).getD 0

/-- One configured pointer assignment, with full names.  A pointer to a pointer stands for the
pointer behind it, and a pointer as a target for what it points to. -/
def pointerInit (T : TypeTable) (types : ArgumentTypes) (function : String) (j : Json) :
    Except Fault (Option (String × Option String)) :=
  let source := fieldOrNull j "name"
  if !isObject j || !source.truthy then .ok none
  else
    match Label.ofJson? source with
    | none => .error .nameNotKey
    | some label =>
      let pointee (level : Nat) (name : LabelKey) (full : String) :=
        if level ≤ levelOf T types name then full ++ Memory.pointeeEnding else full
      let full := pointee 2 label.key (ownedName function label.plain)
      let target := (targetName? (fieldOrNull j "target")).map fun t =>
        pointee 1 (.text t) (ownedName function t)
      .ok (some (full, target))

/-- The configured pointer assignments of an entry. -/
def pointerInits (T : TypeTable) (types : ArgumentTypes) (function : String) :
    List Json → Except Fault (List (String × Option String))
  | [] => .ok []
  | j :: rest => do
    let first ← pointerInit T types function j
    let others ← pointerInits T types function rest
    return first.toList ++ others

/-- The names under pointer arguments with a flag. -/
def flagged (T : TypeTable) (function : String) (flag : Argument → Bool) (args : List Argument) :
    NameSet :=
  NameSet.ofList ((args.filter fun a => T.isPointer a.type && flag a).map fun a =>
    ownedName function a.name.plain ++ Memory.pointeeEnding)

/-- Declares the variables of configured arguments. -/
def declareArguments (T : TypeTable) (function : String) (vars : Table String VarId) :
    List Argument → ProjectM (Table String VarId)
  | [] => return vars
  | a :: rest => do
    let name := ownedName function a.name.plain
    let id ← Project.onMemory (Memory.declare
      { name, type := a.type, kind := kindOf T a.type, domain := .param,
        isPointer := T.isPointer a.type })
    declareArguments T function (vars.set name id) rest

/-- The configured pointer assignments of an entry, which may be missing. -/
def pointerInits? (T : TypeTable) (types : ArgumentTypes) (function : String) (j : Json) :
    Except Fault (List (String × Option String)) :=
  match itemsUnder? j "ptr_init" with
  | some inits => pointerInits T types function inits
  | none => .ok []

/-- Adds the function of an entry of the given file. -/
def addEntry (file : String) (j : Json) : ProjectM Unit := do
  let p ← get
  let name := fieldOrNull j "function_name"
  let known := (Label.ofJson? name).any fun label => p.knows label.key
  match itemsUnder? j "arguments" with
  | none => return ()
  | some args =>
    if !isObject j || !name.truthy || known then return ()
    else do
      let T := p.types
      let function := name.plain
      let args ← orFault (namedArguments args >>= typedArguments)
      let types := Table.ofList (args.map fun a => (a.name.key, a.type))
      let vars ← declareArguments T function {} args
      let configured ← orFault (pointerInits? T types function j)
      match Label.ofJson? name with
      | none => throw .nameNotKey
      | some label => do
        Project.addFunction
          { name := label, source := FileName.join "config" file,
            params := args.map Argument.name, vars,
            reads := flagged T function Argument.reads args,
            writes := flagged T function Argument.writes args, configured }
        modify fun p => { p with configured := p.configured ++ [label] }

/-- The folders that configuration files are read from. -/
def folders (fs : Files) (project : String) : List String :=
  let base := if (fs.file? project).isSome then FileName.directory project else project
  [FileName.join base "config", FileName.join (FileName.directory base) "config"]

/-- The configuration files of a folder with their paths, in the order of the folder. -/
def filesIn (fs : Files) (folder : String) : List (String × String) :=
  (((fs.folder? folder).getD []).map fun (name, _) => (name, FileName.join folder name)).filter
    fun (name, _) => Text.ends ".json" name

/-- The entries of a file, if it is a list. -/
def entriesOf (fs : Files) (path : String) : List Json :=
  (((fs.file? path).bind fun content => Json.read? content.text).bind items?).getD []

/-- The configuration files of a project, each path once. -/
def configFiles (fs : Files) (project : String) : List (String × String) :=
  ((folders fs project).flatMap (filesIn fs)).foldl
    (fun found file => if found.any (fun f => f.2 = file.2) then found else found ++ [file]) []

/-- Adds the configured functions of a project. -/
def load (fs : Files) (project : String) : ProjectM Unit :=
  (configFiles fs project).forM fun (name, path) => (entriesOf fs path).forM (addEntry name)

end Footprint.Config
