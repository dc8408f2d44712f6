/-!
# Binary numbers and their shortest decimals

A number with a fraction or an exponent is read into the nearest number with a
significand of 53 bits, and shown with the fewest decimal digits that read back
as the same number.  All arithmetic is on natural numbers.

Reading divides exactly and rounds the quotient, a half going to the even
neighbour.  Showing takes the interval of the reals that round to the number,
and for one digit, two digits and so on tests the two neighbours of the number
on that decimal grid.  The first grid with a hit wins, and of two hits the
nearer one.
-/

namespace Footprint

/-- A binary number of 53 bits: a signed `mantissa * 2 ^ exponent`, an infinity, or none. -/
inductive Double where
  | finite (negative : Bool) (mantissa : Nat) (exponent : Int)
  | infinite (negative : Bool)
  | nan
deriving Repr, DecidableEq, Inhabited

namespace Double

/-- The least exponent. -/
def minExponent : Int := -1074

/-- The greatest exponent of a finite number. -/
def maxExponent : Int := 971

/-- A fraction, as numerator and denominator. -/
abbrev Fraction := Nat × Nat

/-- The fraction multiplied by `base ^ e`. -/
def Fraction.scale (base : Nat) (e : Int) : Fraction → Fraction
  | (n, d) => if 0 ≤ e then (n * base.pow e.toNat, d) else (n, d * base.pow (-e).toNat)

/-- `x < y`. -/
def Fraction.lt (x y : Fraction) : Bool := x.1 * y.2 < y.1 * x.2

/-- `x ≤ y`. -/
def Fraction.le (x y : Fraction) : Bool := x.1 * y.2 ≤ y.1 * x.2

/-- The nearest whole number, a half going to the even neighbour. -/
def Fraction.round : Fraction → Nat
  | (n, d) =>
    let q := n / d
    let r := n % d
    if d < 2 * r || (d = 2 * r && q % 2 = 1) then q + 1 else q

/-! ## Reading -/

/-- The exponent at which a positive fraction has a significand of 53 bits, or the least one. -/
def exponentFor : Fraction → Int
  | (n, d) =>
    let e := max ((n.log2 : Int) - d.log2 - 53) minExponent
    let (n', d') := Fraction.scale 2 (-e) (n, d)
    if n' / d' < Nat.pow 2 53 then e else e + 1

/-- The nearest binary number to a positive fraction. -/
def ofFraction (negative : Bool) (x : Fraction) : Double :=
  let e := exponentFor x
  let m := Fraction.round (Fraction.scale 2 (-e) x)
  let (m, e) := if m = Nat.pow 2 53 then (Nat.pow 2 52, e + 1) else (m, e)
  if maxExponent < e then .infinite negative else .finite negative m e

/-- The nearest binary number to `digits * 10 ^ e`.  Far outside the range the power is not
computed: more than 400 digits before the point are infinite, 400 zeros after it are zero. -/
def ofDecimal (negative : Bool) (digits : Nat) (e : Int) : Double :=
  if digits = 0 then .finite negative 0 minExponent
  else
    let places := e + (Nat.toDigits 10 digits).length
    if 400 < places then .infinite negative
    else if places < -400 then .finite negative 0 minExponent
    else ofFraction negative (Fraction.scale 10 e (digits, 1))

/-- The whole number that a binary number is, if it is one. -/
def toInt? : Double → Option Int
  | .finite negative m e =>
    let (n, d) := Fraction.scale 2 e (m, 1)
    if n % d = 0 then some (if negative then -((n / d : Nat) : Int) else (n / d : Nat)) else none
  | _ => none

/-- The number is zero, of either sign. -/
def isZero : Double → Bool
  | .finite _ m _ => m = 0
  | _ => false

/-! ## Showing -/

/-- The ends of the interval of the reals that round to `m * 2 ^ e`. -/
def neighbourhood (m : Nat) (e : Int) : Fraction × Fraction :=
  let low := if m = Nat.pow 2 52 && minExponent < e then 4 * m - 1 else 4 * m - 2
  (Fraction.scale 2 (e - 2) (low, 1), Fraction.scale 2 (e - 2) (4 * m + 2, 1))

/-- The number of decimal digits before the point, negative for zeros after it. -/
def magnitude (x : Fraction) : Int :=
  let below (i : Nat) := Fraction.lt x (Fraction.scale 10 ((i : Int) - 350) (1, 1))
  (((List.range 700).find? below).getD 0 : Nat) - 350

/-- The decimal `c * 10 ^ k` rounds to `m * 2 ^ e`. -/
def readsBack (m : Nat) (e : Int) (c : Nat) (k : Int) : Bool :=
  let (low, high) := neighbourhood m e
  let y := Fraction.scale 10 k (c, 1)
  if m % 2 = 0 then Fraction.le low y && Fraction.le y high
  else Fraction.lt low y && Fraction.lt y high

/-- The decimal of `count` digits nearest to `m * 2 ^ e`, if it reads back. -/
def onGrid (m : Nat) (e : Int) (count : Nat) : Option (Nat × Int) :=
  let x := Fraction.scale 2 e (m, 1)
  let k := magnitude x - count
  let (n, d) := Fraction.scale 10 (-k) x
  let c := n / d
  let lower := readsBack m e c k
  let upper := readsBack m e (c + 1) k
  if lower && upper then
    let r := n % d
    some (if d < 2 * r || (d = 2 * r && c % 2 = 1) then c + 1 else c, k)
  else if lower then some (c, k)
  else if upper then some (c + 1, k)
  else none

/-- The shortest decimal `c * 10 ^ k` that reads back as `m * 2 ^ e`.  Seventeen digits always
do. -/
def shortest (m : Nat) (e : Int) : Nat × Int :=
  ((List.range 17).findSome? fun i => onGrid m e (i + 1)).getD (0, 0)

/-- Digits with the point after the first `point` of them, filled up with zeros. -/
def positional (digits : List Char) (point : Int) : List Char :=
  if point ≤ 0 then '0' :: '.' :: List.replicate (-point).toNat '0' ++ digits
  else
    let whole := digits.take point.toNat
    let rest := digits.drop point.toNat
    whole ++ List.replicate (point.toNat - whole.length) '0' ++
      '.' :: (if rest.isEmpty then ['0'] else rest)

/-- One digit before the point and an exponent of at least two digits with its sign. -/
def scientific (digits : List Char) (point : Int) : List Char :=
  let e := point - 1
  let power := Nat.toDigits 10 e.natAbs
  digits.take 1 ++ (if digits.length ≤ 1 then [] else '.' :: digits.drop 1) ++
    'e' :: (if e < 0 then '-' else '+') :: (if power.length < 2 then '0' :: power else power)

/-- The text of a number: positional between a ten-thousandth and ten to the sixteenth. -/
def text : Double → String
  | .nan => "nan"
  | .infinite negative => if negative then "-inf" else "inf"
  | .finite negative m e =>
    let body :=
      if m = 0 then ['0', '.', '0']
      else
        let (c, k) := shortest m e
        let cs := Nat.toDigits 10 c
        let zeros := (cs.reverse.takeWhile (· = '0')).length
        let digits := cs.take (cs.length - zeros)
        let point := k + cs.length
        if -4 < point && point ≤ 16 then positional digits point else scientific digits point
    String.ofList (if negative then '-' :: body else body)

end Double

end Footprint
