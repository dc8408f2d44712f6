import Footprint.Fault
import Footprint.Text.Blank
import Footprint.Text.Digits

/-!
# Reading whole numbers

A whole number is a sign, which may be missing, and decimal digits of any
script, where one low line may stand between two digits.  Blanks around it do
not matter.  Leading zeros are allowed.
-/

namespace Footprint.Text

/-- The blanks around a number: white space but for the four separators below the space. -/
def isNumberBlank (c : Char) : Bool := isBlank c && !(28 ≤ c.toNat && c.toNat ≤ 31)

/-- The values of the digits of a text, with single low lines between digits passed over. -/
def digitValues? : List Char → Option (List Nat)
  | [] => none
  | [c] => (decimalValue? c).map fun d => [d]
  | c :: '_' :: rest => do
    let d ← decimalValue? c
    let ds ← digitValues? rest
    return d :: ds
  | c :: rest => do
    let d ← decimalValue? c
    let ds ← digitValues? rest
    return d :: ds

/-- The number that digits write. -/
def ofDigitValues (ds : List Nat) : Nat := ds.foldl (fun n d => n * 10 + d) 0

/-- The most digits of a number. -/
def maxDigits : Nat := 4300

/-- The whole number a text writes. -/
def readInt (s : String) : Except Fault Int :=
  let cs := s.toList.dropWhile isNumberBlank
  let cs := (cs.reverse.dropWhile isNumberBlank).reverse
  let (negative, ds) := match cs with
    | '-' :: ds => (true, ds)
    | '+' :: ds => (false, ds)
    | ds => (false, ds)
  match digitValues? ds with
  | none => .error (.badNumber s)
  | some ds =>
    if maxDigits < ds.length then .error .longNumber
    else .ok (if negative then -(ofDigitValues ds : Int) else (ofDigitValues ds : Int))

/-- The number that a text of digits writes.  Superscripts are digits and write none. -/
def readDigits (s : String) : Except Fault Nat :=
  match readInt s with
  | .ok i => .ok i.toNat
  | .error e => .error e

end Footprint.Text
