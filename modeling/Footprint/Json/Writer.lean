import Footprint.Json.Basic

/-!
# Writing data texts

Two layouts are written.  On one line, a comma and a blank divide the items and
every character outside ASCII is written as its code.  Indented, each item has
a line of its own, two blanks deeper than its list, and characters stand for
themselves.
-/

namespace Footprint.Json

/-- How a value is laid out. -/
structure Layout where
  /-- Each item on a line of its own. -/
  indented : Bool
  /-- Characters outside ASCII are written as codes. -/
  ascii : Bool

/-- On one line, in ASCII. -/
def Layout.line : Layout := ⟨false, true⟩

/-- Indented by two blanks, in any characters. -/
def Layout.page : Layout := ⟨true, false⟩

/-- A 16-bit unit as an escape. -/
def unitEscape (n : Nat) : List Char := '\\' :: 'u' :: Text.hex 4 n

/-- The code of a character, as one unit or as a pair of halves. -/
def codeEscape (n : Nat) : List Char :=
  if n < 0x10000 then unitEscape n
  else
    unitEscape (0xD800 + (n - 0x10000) / 0x400) ++ unitEscape (0xDC00 + (n - 0x10000) % 0x400)

/-- One character of a string. -/
def writeChar (ascii : Bool) (c : Char) : List Char :=
  if c = '"' then ['\\', '"']
  else if c = '\\' then ['\\', '\\']
  else if c = '\n' then ['\\', 'n']
  else if c = '\r' then ['\\', 'r']
  else if c = '\t' then ['\\', 't']
  else if c = '\x0c' then ['\\', 'f']
  else if c = '\x08' then ['\\', 'b']
  else if c.toNat < 0x20 then unitEscape c.toNat
  else if ascii && 0x7E < c.toNat then codeEscape c.toNat
  else [c]

/-- A string between quotes. -/
def writeString (ascii : Bool) (s : String) : String :=
  String.ofList ('"' :: s.toList.flatMap (writeChar ascii) ++ ['"'])

/-- The number of a value that is not whole. -/
def writeReal : Double → String
  | .nan => "NaN"
  | .infinite negative => if negative then "-Infinity" else "Infinity"
  | d => d.text

/-- A line feed and the indentation of a level. -/
def newLine (level : Nat) : String := "\n" ++ String.ofList (List.replicate (2 * level) ' ')

/-- Items between brackets, for a list or an object at the given level. -/
def enclose (l : Layout) (level : Nat) (opening closing : String) (items : List String) : String :=
  if items.isEmpty then opening ++ closing
  else if l.indented then
    opening ++ newLine (level + 1) ++ String.intercalate ("," ++ newLine (level + 1)) items ++
      newLine level ++ closing
  else opening ++ String.intercalate ", " items ++ closing

mutual

/-- A value at the given level of nesting. -/
def writeAt (l : Layout) (level : Nat) : Json → String
  | .null => "null"
  | .bool b => if b then "true" else "false"
  | .int i => toString i
  | .real d => writeReal d
  | .str s => writeString l.ascii s
  | .arr items => enclose l level "[" "]" (writeItems l level items)
  | .obj fields => enclose l level "\x7b" "\x7d" (writeFields l level fields)

/-- The items of a list. -/
def writeItems (l : Layout) (level : Nat) : List Json → List String
  | [] => []
  | j :: rest => writeAt l (level + 1) j :: writeItems l level rest

/-- The fields of an object. -/
def writeFields (l : Layout) (level : Nat) : List (String × Json) → List String
  | [] => []
  | (k, j) :: rest =>
    (writeString l.ascii k ++ ": " ++ writeAt l (level + 1) j) :: writeFields l level rest

end

/-- The text of a value. -/
def write (l : Layout) (j : Json) : String := writeAt l 0 j

end Footprint.Json
