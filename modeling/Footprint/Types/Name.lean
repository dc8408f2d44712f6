import Footprint.Text.Cut
import Footprint.Text.Number

/-!
# Type names

A type is known by its C spelling.  The *normal form* of a spelling has single
spaces between its words and no qualifiers.  Everything the analysis needs to
know about the shape of a type is read off the end of its normal form: a star
makes it a pointer, a closing bracket an array.
-/

namespace Footprint.TypeName

/-- The words that say nothing about the shape of a type. -/
def qualifiers : List String :=
  ["const", "volatile", "extern", "mutable", "register", "static", "inline"]

/-- The normal form of a spelling. -/
def normalize (t : String) : String :=
  String.intercalate " " ((Text.wordsOf t).filter fun w => !qualifiers.contains w)

/-- The spelling ends with a star. -/
def endsInStar (t : String) : Bool := t.toList.getLast? = some '*'

/-- The spelling ends with a bracket that is opened somewhere. -/
def endsInBracket (t : String) : Bool :=
  t.toList.getLast? = some ']' && t.toList.contains '['

/-- The spelling stands in parentheses. -/
def inParens (t : String) : Bool := t.toList.head? = some '(' && t.toList.getLast? = some ')'

/-- The spelling without its first and its last character. -/
def inside (t : String) : String := String.ofList (t.toList.drop 1).dropLast

/-- The spelling has none of the marks of pointers, arrays and functions. -/
def isClean (t : String) : Bool :=
  !t.toList.contains '*' && !t.toList.contains '[' && !t.toList.contains '('

/-- The element type and the length text of an array spelling, cut at its last bracket.  Without a
bracket both are the spelling less its last character. -/
def arrayParts (t : String) : String × String :=
  match Text.cutAtLast? '[' t.toList with
  | some (base, rest) =>
    (String.ofList (Text.trim base), String.ofList (Text.trim rest.dropLast))
  | none =>
    (String.ofList (Text.trim t.toList.dropLast), String.ofList (Text.trim t.toList.dropLast))

/-- The length that a length text gives.  A text that is not made of digits counts as one. -/
def arrayLength (text : String) : Except Fault Nat :=
  if Text.allDigits text then Text.readDigits text else .ok 1

/-- A star or a blank. -/
def isStarOrBlank (c : Char) : Bool := c = '*' || Text.isBlank c

/-- A spelling without the stars it ends with, and their number. -/
def splitStars (t : String) : String × Nat :=
  let reversed := t.toList.reverse
  if reversed.head? = some '*' then
    (String.ofList (Text.trim (reversed.dropWhile isStarOrBlank).reverse),
      (reversed.takeWhile isStarOrBlank).count '*')
  else (t, 0)

/-- A spelling without its last bracket, and that bracket. -/
def splitBracket (t : String) : String × String :=
  if endsInBracket t then
    match Text.cutAtLast? '[' t.toList with
    | some (base, rest) => (String.ofList (Text.trim base), String.ofList ('[' :: rest))
    | none => (t, "")
  else (t, "")

/-- The type a pointer spelling points to, when the last star is taken off. -/
def pointee (t : String) : String :=
  let t := Text.strippedRight t
  if endsInStar t then Text.stripped (Text.dropLast t) else t

/-- The spelling of an array. -/
def arrayOf (base : String) (length : Int) : String := base ++ "[" ++ toString length ++ "]"

end Footprint.TypeName
