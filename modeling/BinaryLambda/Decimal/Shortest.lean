import BinaryLambda.Decimal.Binary64

set_option autoImplicit false

/-!
# Decimal: the shortest text of a binary64 number

The text of a finite number has the fewest digits that read back as the same
number, and among those the digits nearest to it.  The reals that read back as
`mantissa · 2 ^ exponent` form an interval around it, whose ends belong to it
exactly when the mantissa is even.  For one digit, two digits and so on, the two
neighbours of the number on that decimal grid are tried: if the interval holds
any point of a grid, it holds one of these two.

The digits are written positionally, with at least one place after the point,
when the number is at least `10 ^ -4` and below `10 ^ 16`; otherwise they are
written with an exponent of at least two digits.
-/

namespace BinaryLambda.Decimal

/-- A closed or open interval of rationals with a common denominator, and the
point in it that is to be written. -/
structure Rounding where
  low : Nat
  value : Nat
  high : Nat
  denominator : Nat
  closed : Bool
  deriving Repr, Inhabited

namespace Rounding

/-- The reals that round to `mantissa · 2 ^ exponent`, in quarters of its last
place.  Below a power of two the gap is half as wide. -/
def ofBinary (mantissa : Nat) (exponent : Int) : Rounding :=
  let below := if mantissa = Nat.pow 2 52 && -1074 < exponent then 1 else 2
  let (unit, denominator) := Binary64.scaled 1 4 exponent
  { low := (4 * mantissa - below) * unit
    value := 4 * mantissa * unit
    high := (4 * mantissa + 2) * unit
    denominator := denominator
    closed := mantissa % 2 == 0 }

/-- Whether `n · 10 ^ place` lies in the interval. -/
def holds (r : Rounding) (n : Nat) (place : Int) : Bool :=
  let (point, scale) :=
    if 0 ≤ place then (n * Nat.pow 10 place.toNat * r.denominator, 1)
    else (n * r.denominator, Nat.pow 10 (-place).toNat)
  if r.closed then r.low * scale ≤ point && point ≤ r.high * scale
  else r.low * scale < point && point < r.high * scale

/-- The two neighbours of the value on the grid of `10 ^ place`, the nearer
first; a value halfway has its even neighbour first. -/
def neighbours (r : Rounding) (place : Int) : List Nat :=
  let (n, d) :=
    if 0 ≤ place then (r.value, r.denominator * Nat.pow 10 place.toNat)
    else (r.value * Nat.pow 10 (-place).toNat, r.denominator)
  let q := n / d
  if roundHalfEven n d = q then [q, q + 1] else [q + 1, q]

/-- The least power of ten above the value, as its exponent, searched upwards
from a power that is not above it. -/
def pointFrom (r : Rounding) : Nat → Int → Int
  | 0, place => place
  | fuel + 1, place =>
    let below :=
      if 0 ≤ place then r.value < Nat.pow 10 place.toNat * r.denominator
      else r.value * Nat.pow 10 (-place).toNat < r.denominator
    if below then place else pointFrom r fuel (place + 1)

/-- Where the decimal point stands: the value is below `10 ^ point` and not below
`10 ^ (point - 1)`. -/
def point (r : Rounding) : Int :=
  let bits : Int := Nat.log2 r.value - Nat.log2 r.denominator
  pointFrom r 4 (bits * 30103 / 100000 - 1)

/-- The first grid, from `count` digits on, that has a point in the interval: the
integer on the grid and the exponent of its unit. -/
def shortestFrom (r : Rounding) (point : Int) : Nat → Nat → Nat × Int
  | 0, count => ((neighbours r (point - count)).headD 0, point - count)
  | more + 1, count =>
    match (neighbours r (point - count)).find? (holds r · (point - count)) with
    | some n => (n, point - count)
    | none => shortestFrom r point more (count + 1)

/-- The shortest decimal in the interval, as an integer and the exponent of its
unit. -/
def shortest (r : Rounding) : Nat × Int := shortestFrom r (point r) 16 1

end Rounding

namespace Binary64

/-- The digits of a decimal without the zeros at their end. -/
def significant (n : Nat) : List Char :=
  ((Nat.toDigits 10 n).reverse.dropWhile (· == '0')).reverse

/-- An exponent with its sign and at least two digits. -/
def exponentText (e : Int) : List Char :=
  let digits := Nat.toDigits 10 e.natAbs
  (if e < 0 then '-' else '+') :: (List.replicate (2 - digits.length) '0' ++ digits)

/-- Lays out digits whose decimal point stands after the first `point` of them. -/
def layOut (digits : List Char) (point : Int) : List Char :=
  if -4 < point && point ≤ 16 then
    if point ≤ 0 then '0' :: '.' :: (List.replicate (-point).toNat '0' ++ digits)
    else
      let whole := digits.take point.toNat
      let padding := List.replicate (point.toNat - whole.length) '0'
      let fraction := digits.drop point.toNat
      whole ++ padding ++ '.' :: (if fraction.isEmpty then ['0'] else fraction)
  else
    let fraction := digits.drop 1
    digits.take 1 ++ (if fraction.isEmpty then [] else '.' :: fraction) ++
      'e' :: exponentText (point - 1)

/-- The shortest text of a number. -/
def text : Binary64 → String
  | .notANumber => "nan"
  | .infinite negative => if negative then "-inf" else "inf"
  | .finite negative mantissa exponent =>
    let sign := if negative then ['-'] else []
    if mantissa = 0 then String.ofList (sign ++ ['0', '.', '0'])
    else
      let (n, unit) := (Rounding.ofBinary mantissa exponent).shortest
      let point := (Nat.toDigits 10 n).length + unit
      String.ofList (sign ++ layOut (significant n) point)

end Binary64

end BinaryLambda.Decimal
