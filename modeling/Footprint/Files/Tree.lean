import Footprint.Files.Name
import Footprint.Node
import Footprint.Table

/-!
# File trees

The files that a project is read from.  A file has a text, and a C file has a
syntax tree.  What a folder holds comes in the order in which it first appeared.
-/

namespace Footprint

/-- A file. -/
structure SourceFile where
  /-- The top of the syntax tree. -/
  tree : List Node := []
  text : String := ""
deriving Repr, Inhabited

/-- A file or a folder. -/
inductive Entry where
  | file (content : SourceFile)
  | folder (entries : List (String × Entry))
deriving Repr, Inhabited

/-- A file tree, and the directory that relative paths start from. -/
structure Files where
  here : String
  entries : List (String × Entry) := []
deriving Repr, Inhabited

namespace Entry

/-- What a folder holds. -/
def contents : Entry → List (String × Entry)
  | .file _ => []
  | .folder entries => entries

/-- The entry at a path below an entry. -/
def find? : List String → Entry → Option Entry
  | [], e => some e
  | part :: rest, e => (Table.lookup part e.contents).bind (find? rest)

/-- Puts something at a path below a folder, with the folders on the way.  `change` gives the new
entry from the old one. -/
def putAt (change : Option Entry → Entry) :
    List String → List (String × Entry) → List (String × Entry)
  | [], entries => entries
  | [part], entries => Table.put part (change (Table.lookup part entries)) entries
  | part :: rest, entries =>
    let below := ((Table.lookup part entries).map contents).getD []
    Table.put part (.folder (putAt change rest below)) entries

mutual

/-- The files below an entry: those of a folder first, then those of its folders. -/
def walk (path : String) : Entry → List (String × SourceFile)
  | .file _ => []
  | .folder entries => ownFiles path entries ++ walkFolders path entries

/-- The files below the folders of a list. -/
def walkFolders (path : String) : List (String × Entry) → List (String × SourceFile)
  | [] => []
  | (name, e) :: rest => walk (FileName.join path name) e ++ walkFolders path rest

/-- The files of a list. -/
def ownFiles (path : String) : List (String × Entry) → List (String × SourceFile)
  | [] => []
  | (name, .file content) :: rest => (FileName.join path name, content) :: ownFiles path rest
  | (_, .folder _) :: rest => ownFiles path rest

end

end Entry

namespace Files

/-- The absolute path. -/
def absolute (fs : Files) (p : String) : String := FileName.absolute fs.here p

/-- The entry at a path. -/
def find? (fs : Files) (p : String) : Option Entry :=
  Entry.find? (FileName.parts (fs.absolute p)) (.folder fs.entries)

/-- The file at a path. -/
def file? (fs : Files) (p : String) : Option SourceFile :=
  match fs.find? p with
  | some (.file content) => some content
  | _ => none

/-- What the folder at a path holds, if there is one. -/
def folder? (fs : Files) (p : String) : Option (List (String × Entry)) :=
  match fs.find? p with
  | some (.folder entries) => some entries
  | _ => none

/-- Adds a file.  One that is there is replaced in its place. -/
def addFile (fs : Files) (p : String) (content : SourceFile) : Files :=
  { fs with
    entries := Entry.putAt (fun _ => .file content) (FileName.parts (fs.absolute p)) fs.entries }

/-- Adds a folder, if nothing is there. -/
def addFolder (fs : Files) (p : String) : Files :=
  { fs with
    entries := Entry.putAt (fun e => e.getD (.folder [])) (FileName.parts (fs.absolute p))
      fs.entries }

/-- Writes a text to a file.  A file that is there keeps its place and its tree. -/
def write (fs : Files) (p text : String) : Files :=
  { fs with
    entries := Entry.putAt (fun e =>
      match e with
      | some (.file content) => .file { content with text }
      | _ => .file { text }) (FileName.parts (fs.absolute p)) fs.entries }

/-- The file is C source. -/
def isSource (path : String) : Bool := Text.ends ".c" path || Text.ends ".h" path

/-- The source files of the project at an absolute path: the file itself, or all below a folder. -/
def sources (fs : Files) (project : String) : List (String × SourceFile) :=
  match fs.find? project with
  | some (.file content) => [(project, content)]
  | some (.folder entries) =>
    (Entry.walk project (.folder entries)).filter fun (path, _) => isSource path
  | none => []

end Files

end Footprint
