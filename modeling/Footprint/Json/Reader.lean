import Footprint.Json.Basic

/-!
# Reading data texts

A reader for the JSON format.  Besides the standard it takes `NaN`,
`Infinity` and `-Infinity` for numbers.  A text with a control character inside
a string, or with a whole number of more than 4300 digits, is refused.

Values nest, so the reader takes a bound on the depth.  Each level starts with
a character of its own, and the length of the text is bound enough.
-/

namespace Footprint.Json

/-- The blanks between the tokens. -/
def isGap (c : Char) : Bool := c = ' ' || c = '\t' || c = '\n' || c = '\r'

/-- The text from the next token on. -/
def skipGap (cs : List Char) : List Char := cs.dropWhile isGap

/-! ## Strings -/

/-- The value of a hexadecimal digit. -/
def hexValue? (c : Char) : Option Nat :=
  let n := c.toNat
  if 48 ≤ n && n ≤ 57 then some (n - 48)
  else if 97 ≤ n && n ≤ 102 then some (n - 87)
  else if 65 ≤ n && n ≤ 70 then some (n - 55)
  else none

/-- The number that four hexadecimal digits write, and the rest. -/
def hexUnit? : List Char → Option (Nat × List Char)
  | a :: b :: c :: d :: rest => do
    let a ← hexValue? a
    let b ← hexValue? b
    let c ← hexValue? c
    let d ← hexValue? d
    return (((a * 16 + b) * 16 + c) * 16 + d, rest)
  | _ => none

/-- A piece of a string: a character, or half of a pair that writes one. -/
inductive Unit16 where
  | char (c : Char)
  | half (n : Nat)

/-- The characters that pieces write.  Two halves that belong together are one character, and a
half alone has no character of its own. -/
def joinUnits : List Unit16 → List Char
  | [] => []
  | .char c :: rest => c :: joinUnits rest
  | [.half _] => ['�']
  | .half n :: .half m :: rest =>
    if n < 0xDC00 && 0xDC00 ≤ m then
      Char.ofNat (0x10000 + (n - 0xD800) * 0x400 + (m - 0xDC00)) :: joinUnits rest
    else '�' :: joinUnits (.half m :: rest)
  | .half _ :: .char c :: rest => '�' :: c :: joinUnits rest

/-- The letter after a backslash, for those that stand for one character. -/
def escapeValue? : Char → Option Char
  | '"' => some '"'
  | '\\' => some '\\'
  | '/' => some '/'
  | 'b' => some '\x08'
  | 'f' => some '\x0c'
  | 'n' => some '\n'
  | 'r' => some '\r'
  | 't' => some '\t'
  | _ => none

/-- The pieces of a string up to the closing quote, and the rest.  The bound counts characters. -/
def stringUnits? : Nat → List Char → Option (List Unit16 × List Char)
  | 0, _ => none
  | _ + 1, [] => none
  | bound + 1, c :: cs =>
    if c = '"' then some ([], cs)
    else if c = '\\' then
      match cs with
      | 'u' :: cs => do
        let (n, cs) ← hexUnit? cs
        let (us, cs) ← stringUnits? bound cs
        let u := if 0xD800 ≤ n && n ≤ 0xDFFF then .half n else .char (Char.ofNat n)
        return (u :: us, cs)
      | e :: cs => do
        let c ← escapeValue? e
        let (us, cs) ← stringUnits? bound cs
        return (.char c :: us, cs)
      | [] => none
    else if c.toNat < 0x20 then none
    else do
      let (us, cs) ← stringUnits? bound cs
      return (.char c :: us, cs)

/-- A string after its opening quote. -/
def string? (cs : List Char) : Option (String × List Char) := do
  let (us, rest) ← stringUnits? (cs.length + 1) cs
  return (String.ofList (joinUnits us), rest)

/-! ## Numbers -/

/-- A digit of a number in a data text. -/
def isFigure (c : Char) : Bool := '0' ≤ c && c ≤ '9'

/-- The number that digits write. -/
def figures (cs : List Char) : Nat := cs.foldl (fun n c => n * 10 + (c.toNat - 48)) 0

/-- The digits after a point, if a point with a digit stands there. -/
def fraction : List Char → List Char × List Char
  | '.' :: cs =>
    let ds := cs.takeWhile isFigure
    if ds.isEmpty then ([], '.' :: cs) else (ds, cs.dropWhile isFigure)
  | cs => ([], cs)

/-- The exponent, if a mark with a digit stands there. -/
def exponent? : List Char → Option (Int × List Char)
  | c :: cs =>
    if c = 'e' || c = 'E' then
      let (negative, ds) := match cs with
        | '-' :: ds => (true, ds)
        | '+' :: ds => (false, ds)
        | ds => (false, ds)
      let fs := ds.takeWhile isFigure
      if fs.isEmpty then none
      else
        let n : Int := figures fs
        some (if negative then -n else n, ds.dropWhile isFigure)
    else none
  | [] => none

/-- The digits before the point: a zero alone, or digits that start with none. -/
def wholePart? : List Char → Option (List Char × List Char)
  | '0' :: cs => some (['0'], cs)
  | cs =>
    let ds := cs.takeWhile isFigure
    if ds.isEmpty then none else some (ds, cs.dropWhile isFigure)

/-- The most digits of a whole number. -/
def maxFigures : Nat := 4300

/-- A number after its sign. -/
def number? (negative : Bool) (cs : List Char) : Option (Json × List Char) := do
  let (whole, cs) ← wholePart? cs
  let (part, cs) := fraction cs
  match part, exponent? cs with
  | [], none =>
    if maxFigures < whole.length then none
    else
      let n : Int := figures whole
      return (.int (if negative then -n else n), cs)
  | _, some (e, cs) =>
    return (.real (Double.ofDecimal negative (figures (whole ++ part)) (e - part.length)), cs)
  | _, none =>
    return (.real (Double.ofDecimal negative (figures (whole ++ part)) (-(part.length : Int))), cs)

/-! ## Values -/

/-- What follows a word of the format. -/
def keyword? (word : String) (value : Json) (cs : List Char) : Option (Json × List Char) :=
  let w := word.toList
  if w.isPrefixOf cs then some (value, cs.drop w.length) else none

/-- The items of a list after the first `n`, up to the closing bracket.  `item` reads one. -/
def items? (item : List Char → Option (Json × List Char)) :
    Nat → List Char → Option (List Json × List Char)
  | 0, _ => none
  | bound + 1, cs => do
    let (j, cs) ← item (skipGap cs)
    match skipGap cs with
    | ',' :: cs => do
      let (js, cs) ← items? item bound cs
      return (j :: js, cs)
    | ']' :: cs => return ([j], cs)
    | _ => none

/-- The fields of an object up to the closing brace. -/
def fields? (item : List Char → Option (Json × List Char)) :
    Nat → List Char → Option (List (String × Json) × List Char)
  | 0, _ => none
  | bound + 1, cs =>
    match skipGap cs with
    | '"' :: cs => do
      let (key, cs) ← string? cs
      match skipGap cs with
      | ':' :: cs => do
        let (j, cs) ← item (skipGap cs)
        match skipGap cs with
        | ',' :: cs => do
          let (js, cs) ← fields? item bound cs
          return ((key, j) :: js, cs)
        | '\x7d' :: cs => return ([(key, j)], cs)
        | _ => none
      | _ => none
    | _ => none

/-- A value of at most the given depth, and the rest of the text. -/
def value? : Nat → List Char → Option (Json × List Char)
  | 0, _ => none
  | depth + 1, cs =>
    match cs with
    | '"' :: cs => do
      let (s, cs) ← string? cs
      return (.str s, cs)
    | '[' :: cs =>
      match skipGap cs with
      | ']' :: cs => return (.arr [], cs)
      | cs => do
        let (js, cs) ← items? (value? depth) (cs.length + 1) cs
        return (.arr js, cs)
    | '\x7b' :: cs =>
      match skipGap cs with
      | '\x7d' :: cs => return (.obj [], cs)
      | cs => do
        let (fs, cs) ← fields? (value? depth) (cs.length + 1) cs
        return (.obj (fs.foldl (fun es (k, j) => Table.put k j es) []), cs)
    | 'n' :: _ => keyword? "null" .null cs
    | 't' :: _ => keyword? "true" (.bool true) cs
    | 'f' :: _ => keyword? "false" (.bool false) cs
    | 'N' :: _ => keyword? "NaN" (.real .nan) cs
    | 'I' :: _ => keyword? "Infinity" (.real (.infinite false)) cs
    | '-' :: 'I' :: _ => keyword? "-Infinity" (.real (.infinite true)) cs
    | '-' :: cs => number? true cs
    | cs => number? false cs

/-- The value that a whole text writes. -/
def read? (s : String) : Option Json := do
  let cs := skipGap s.toList
  let (j, rest) ← value? (cs.length + 1) cs
  if (skipGap rest).isEmpty then some j else none

end Footprint.Json
