import Footprint.Files.Tree
import Footprint.NameSet

/-!
# The call graph

Which function calls which, read off the definitions of a project.  A call
counts wherever it stands in the definition.  The callers come in the order in
which their definitions are met, the callees of each in ascending order.
-/

namespace Footprint

/-- The callees of each defined function. -/
abbrev CallGraph := Table String NameSet

/-- The node stands in a file of the project at an absolute path. -/
def inProject (fs : Files) (project : String) (n : Node) : Bool :=
  match n.info.file with
  | some file => Text.starts project (fs.absolute file)
  | none => false

/-- The node defines a function of the project that has a name. -/
def definesFunction (fs : Files) (project : String) (n : Node) : Bool :=
  n.kind = .functionDecl && n.info.isDefinition && inProject fs project n && !n.spelling.isEmpty

/-- The function definitions of the project at an absolute path, in the order in which they are
met. -/
def definitions (fs : Files) (project : String) : List Node :=
  ((fs.sources project).flatMap fun (_, content) => content.tree).filter
    (definesFunction fs project)

namespace CallGraph

mutual

/-- The names that the calls in a node use, the node included. -/
def callsIn : Node → List String
  | .mk i cs _ =>
    let name := Node.calleeName i
    if i.kind = .call && !name.isEmpty then name :: callsInEach cs else callsInEach cs

/-- The names that the calls in some nodes use. -/
def callsInEach : List Node → List String
  | [] => []
  | c :: rest => callsIn c ++ callsInEach rest

end

/-- Adds a definition to the graph. -/
def addDefinition (g : CallGraph) (n : Node) : CallGraph :=
  let known := (g.get? n.spelling).getD {}
  g.set n.spelling ((callsInEach n.children).foldl NameSet.insert known)

/-- The call graph of the project at an absolute path. -/
def ofProject (fs : Files) (project : String) : CallGraph :=
  (definitions fs project).foldl addDefinition {}

/-- The callees of a function, in ascending order. -/
def callees (g : CallGraph) (name : String) : List String :=
  ((g.get? name).map NameSet.toList).getD []

end CallGraph

end Footprint
