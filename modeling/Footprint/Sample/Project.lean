import Footprint.Files.Tree
import Footprint.Json.Writer
import Footprint.Sample.Source

/-!
# Sample projects

A sample project is a source file and, if wanted, a folder of configuration
files.  One of these describes external functions, with some entries that are
not well formed.  The others are no lists, no data text, or no configuration
files at all.
-/

namespace Footprint.Sample

/-- A configured argument. -/
def argument (name type : String) (flags : List (String × Bool)) : Json :=
  .obj ([("name", .str name), ("type", .str type)] ++ flags.map fun (key, b) => (key, .bool b))

/-- A configured argument with both of its flags. -/
def flagged (name type : String) (read write : Bool) : Json :=
  argument name type [("read", read), ("write", write)]

/-- A configured pointer assignment. -/
def pointer (name : String) (target : Json) : Json :=
  .obj [("name", .str name), ("target", target)]

/-- A configured function. -/
def entry (name : String) (arguments : List Json) (pointers : List Json) : Json :=
  .obj ([("function_name", .str name), ("arguments", .arr arguments)] ++
    if pointers.isEmpty then [] else [("ptr_init", .arr pointers)])

/-- The configuration of the external functions. -/
def config : Json :=
  .arr
    [entry "ext_rw"
      [flagged "dst" "int *" false true, flagged "src" "const int *" true false,
       flagged "plain" "int" true false, flagged "arr" "int[4]" true false,
       argument "rec" "struct Outer" [("read", true)]]
      [pointer "dst" (.str "src"), pointer "dst" (.str " "), pointer "dst" (.int 7),
       pointer "" (.str "x"), .str "bad"],
     entry "ext_pp"
      [flagged "dst" "int **" false true, flagged "src" "int *" true false]
      [pointer "dst" (.str "src"), pointer "dst" (.str "NULL"), pointer "dst" .null],
     entry "util_arr" [] [],
     entry "noop" [argument "x" "int" []] [],
     .str "bad-entry",
     .obj [("function_name", .str "bad"), ("arguments", .str "notalist")],
     entry "missing_arg" [argument "" "" [], .int 7] []]

/-- The files of the configuration folder, in the order in which they are written. -/
def configFiles : List (String × String) :=
  [("cfg.json", Json.write .line config),
   ("bad.json", "\x7bnot json"),
   ("notlist.json", Json.write .line (.obj [("a", .int 1)])),
   ("ignore.txt", "skip")]

/-- The name of the source file in a directory. -/
def sourcePath (dir : String) : String := FileName.join dir "proj.c"

/-- The name of the configuration folder in a directory. -/
def configPath (dir : String) : String := FileName.join dir "config"

/-- The folders of a sample project. -/
def folders (dir : String) (withConfig : Bool) : List String :=
  if withConfig then [configPath dir] else []

/-- The files of a sample project with a chain of `n` functions: name and text. -/
def files (dir : String) (n : Nat) (withConfig : Bool) : List (String × String) :=
  (sourcePath dir, sourceText n) ::
    if withConfig then configFiles.map fun (name, text) =>
      (FileName.join (configPath dir) name, text)
    else []

/-- A file tree with a sample project written into it. -/
def write (fs : Files) (dir : String) (n : Nat) (withConfig : Bool) : Files :=
  let fs := (folders dir withConfig).foldl Files.addFolder fs
  (files dir n withConfig).foldl (fun fs (path, text) => fs.write path text) fs

end Footprint.Sample
