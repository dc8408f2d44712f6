/-!
# Blanks

Texts are cut into words at white space and trimmed of it.  White space is the
Unicode property, so a no-break space or a line separator divides words as a
space does.  Everything here is a function on lists of characters, with a
wrapper on strings where the rest of the library holds strings.
-/

namespace Footprint.Text

/-- White space: the characters that divide words. -/
def isBlank (c : Char) : Bool :=
  let n := c.toNat
  (9 ≤ n && n ≤ 13) || (28 ≤ n && n ≤ 32) || n == 0x85 || n == 0xA0 || n == 0x1680 ||
    (0x2000 ≤ n && n ≤ 0x200A) || n == 0x2028 || n == 0x2029 || n == 0x202F || n == 0x205F ||
    n == 0x3000

/-- The text starts with a blank or is empty, so that a word before it ends. -/
def wordEnds : List Char → Bool
  | [] => true
  | c :: _ => isBlank c

/-- Puts a character in front of the first word. -/
def consWord (c : Char) : List (List Char) → List (List Char)
  | [] => [[c]]
  | w :: ws => (c :: w) :: ws

/-- The words of a text: its longest runs without a blank, in order. -/
def words : List Char → List (List Char)
  | [] => []
  | c :: cs =>
    if isBlank c then words cs
    else if wordEnds cs then [c] :: words cs
    else consWord c (words cs)

/-- A text without the blanks it starts with. -/
def trimLeft (cs : List Char) : List Char := cs.dropWhile isBlank

/-- A text without the blanks it ends with. -/
def trimRight (cs : List Char) : List Char := (cs.reverse.dropWhile isBlank).reverse

/-- A text without the blanks on both sides. -/
def trim (cs : List Char) : List Char := trimRight (trimLeft cs)

/-- The words of a string. -/
def wordsOf (s : String) : List String := (words s.toList).map String.ofList

/-- A string without the blanks on both sides. -/
def stripped (s : String) : String := String.ofList (trim s.toList)

/-- A string without the blanks it ends with. -/
def strippedRight (s : String) : String := String.ofList (trimRight s.toList)

end Footprint.Text
