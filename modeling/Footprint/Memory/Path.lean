import Footprint.Text.Blank

/-!
# Access paths

A name such as `a.b[3]->c` is a root and a list of steps.  A step is a member,
after a point or an arrow, or what stands between brackets.  A path that is not
well formed ends in a broken step, so that the steps before it can still be
followed.
-/

namespace Footprint

/-- A step of an access path. -/
inductive Step where
  /-- A member. -/
  | member (name : String)
  /-- The text between brackets, without the blanks around it. -/
  | index (text : String)
  /-- Anything else. -/
  | broken
deriving Repr, DecidableEq, Inhabited

namespace Path

/-- A part of a name and what follows it. -/
abbrev Split := List Char × List Char

/-- The longest part without a point, an opening bracket or an arrow, and the rest. -/
def plainPart : List Char → Split
  | [] => ([], [])
  | c :: cs =>
    if c = '.' || c = '[' || (c = '-' && cs.head? = some '>') then ([], c :: cs)
    else
      let (part, rest) := plainPart cs
      (c :: part, rest)

/-- What stands before the first closing bracket, and what follows it. -/
def bracketPart : List Char → Option Split
  | [] => none
  | c :: cs =>
    if c = ']' then some ([], cs)
    else (bracketPart cs).map fun (part, rest) => (c :: part, rest)

/-- What follows the point or arrow that a text starts with. -/
def afterMark? : List Char → Option (List Char)
  | '.' :: cs => some cs
  | '-' :: '>' :: cs => some cs
  | _ => none

/-- What follows the opening bracket that a text starts with. -/
def afterBracket? : List Char → Option (List Char)
  | '[' :: cs => some cs
  | _ => none

/-- The steps of a path, up to the first broken one.  The bound counts characters. -/
def stepsWithin : Nat → List Char → List Step
  | _, [] => []
  | 0, _ :: _ => [.broken]
  | bound + 1, c :: cs =>
    match afterMark? (c :: cs) with
    | some rest =>
      let (part, rest) := plainPart rest
      if part.isEmpty then [.broken] else .member (String.ofList part) :: stepsWithin bound rest
    | none =>
      match (afterBracket? (c :: cs)).bind bracketPart with
      | some (part, rest) => .index (String.ofList (Text.trim part)) :: stepsWithin bound rest
      | none => [.broken]

/-- The steps of a path after its root. -/
def steps (cs : List Char) : List Step := stepsWithin cs.length cs

/-- The root of a name and the steps after it. -/
def parse (name : String) : String × List Step :=
  let (root, rest) := plainPart name.toList
  (String.ofList root, steps rest)

end Path

end Footprint
