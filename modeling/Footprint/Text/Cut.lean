/-!
# Cutting texts

Cuts at a character or at a piece of text.  The functions on lists of
characters are structural.  The ones on strings are what names and type
spellings are taken apart with.
-/

namespace Footprint.Text

/-! ## Pieces of lists -/

/-- What follows `p` in a text that starts with it. -/
def afterPrefix? : List Char → List Char → Option (List Char)
  | [], cs => some cs
  | _ :: _, [] => none
  | p :: ps, c :: cs => if p = c then afterPrefix? ps cs else none

/-- The parts before and after the first place where `p` stands. -/
def cutAt? (p : List Char) : List Char → Option (List Char × List Char)
  | [] => (afterPrefix? p []).map fun rest => ([], rest)
  | c :: cs =>
    match afterPrefix? p (c :: cs) with
    | some rest => some ([], rest)
    | none => (cutAt? p cs).map fun (before, rest) => (c :: before, rest)

/-- The parts before and after the last `c`. -/
def cutAtLast? (c : Char) : List Char → Option (List Char × List Char)
  | [] => none
  | d :: cs =>
    match cutAtLast? c cs with
    | some (before, rest) => some (d :: before, rest)
    | none => if d = c then some ([], cs) else none

/-- Writes `new` for the first character of every place of `old`, scanning from the left and
going on after each place.  `skip` counts the characters of a place still to be passed over. -/
def substituteFrom (old new : List Char) : Nat → List Char → List Char
  | _, [] => []
  | skip + 1, _ :: cs => substituteFrom old new skip cs
  | 0, c :: cs =>
    match afterPrefix? old (c :: cs) with
    | some _ => new ++ substituteFrom old new (old.length - 1) cs
    | none => c :: substituteFrom old new 0 cs

/-! ## Pieces of strings -/

/-- The string starts with `p`. -/
def starts (p s : String) : Bool := (afterPrefix? p.toList s.toList).isSome

/-- The string ends with `p`. -/
def ends (p s : String) : Bool := p.toList.isSuffixOf s.toList

/-- The string has `p` somewhere in it. -/
def has (p s : String) : Bool := (cutAt? p.toList s.toList).isSome

/-- The string without the first `n` characters. -/
def dropFirst (n : Nat) (s : String) : String := String.ofList (s.toList.drop n)

/-- The string without its last character. -/
def dropLast (s : String) : String := String.ofList s.toList.dropLast

/-- What stands before the first `p`, or the whole string without one. -/
def before (p s : String) : String :=
  match cutAt? p.toList s.toList with
  | some (b, _) => String.ofList b
  | none => s

/-- What stands after the first `p`, if there is one. -/
def after? (p s : String) : Option String :=
  (cutAt? p.toList s.toList).map fun (_, rest) => String.ofList rest

/-- The string without `p` at its end, if it is there. -/
def withoutSuffix (p s : String) : String :=
  if ends p s then String.ofList (s.toList.take (s.toList.length - p.toList.length)) else s

/-- The string with every `old` replaced by `new`, from the left. -/
def substitute (old new s : String) : String :=
  String.ofList (substituteFrom old.toList new.toList 0 s.toList)

end Footprint.Text
