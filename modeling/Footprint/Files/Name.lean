import Footprint.Text.Cut

/-!
# File names

File names are paths, texts with slashes between their parts.  A path is made absolute by
putting the current directory in front of it and taking out empty parts, points
and pairs of points.
-/

namespace Footprint.FileName

/-- The parts of a path between its slashes, empty ones included. -/
def splitSlash : List Char → List (List Char)
  | [] => [[]]
  | c :: cs =>
    if c = '/' then [] :: splitSlash cs
    else
      match splitSlash cs with
      | [] => [[c]]
      | part :: rest => (c :: part) :: rest

/-- The parts of a path that have a name. -/
def parts (p : String) : List String :=
  ((splitSlash p.toList).map String.ofList).filter fun part => !part.isEmpty

/-- The path starts at the root. -/
def isAbsolute (p : String) : Bool := Text.starts "/" p

/-- The path `q` seen from the directory `p`. -/
def join (p q : String) : String :=
  if isAbsolute q then q
  else if p.isEmpty || Text.ends "/" p then p ++ q
  else p ++ "/" ++ q

/-- Takes the next part into a list of parts, last first: a pair of points takes one out, where
there is one to take out. -/
def climb (rooted : Bool) (done : List String) (part : String) : List String :=
  if part = "." then done
  else if part = ".." then
    match done with
    | [] => if rooted then [] else [".."]
    | last :: rest => if last = ".." then ".." :: done else rest
  else part :: done

/-- The slashes that a path starts with once it is normal: two stay two, more are one. -/
def rootOf (p : String) : String :=
  if Text.starts "//" p && !Text.starts "///" p then "//"
  else if isAbsolute p then "/"
  else ""

/-- The path without empty parts, points and pairs of points, as far as they can be taken out. -/
def normalize (p : String) : String :=
  let root := rootOf p
  let kept := ((parts p).foldl (climb (!root.isEmpty)) []).reverse
  let path := root ++ String.intercalate "/" kept
  if path.isEmpty then "." else path

/-- The absolute path, seen from a current directory. -/
def absolute (here p : String) : String :=
  normalize (if isAbsolute p then p else join here p)

/-- The path up to its last slash. -/
def directory (p : String) : String :=
  let upTo := (p.toList.reverse.dropWhile (· ≠ '/')).reverse
  let kept := (upTo.reverse.dropWhile (· = '/')).reverse
  String.ofList (if kept.isEmpty then upTo else kept)

/-- What two lists have in common at their start, taken off. -/
def dropCommon : List String → List String → List String × List String
  | a :: as, b :: bs => if a = b then dropCommon as bs else (a :: as, b :: bs)
  | as, bs => (as, bs)

/-- The way from the directory `base` to `p`, both absolute. -/
def relative (p base : String) : String :=
  let (up, down) := dropCommon (parts base) (parts p)
  let way := up.map (fun _ => "..") ++ down
  if way.isEmpty then "." else String.intercalate "/" way

end Footprint.FileName
