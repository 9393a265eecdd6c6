import BinaryLambda.Decimal.Integer

set_option autoImplicit false

/-!
# Decimal: the binary64 numbers

A finite binary64 number is a sign and `mantissa · 2 ^ exponent` with a mantissa
below `2 ^ 53` and an exponent between `-1074` and `971`; the mantissa has all
its 53 bits unless the exponent is the least.  Reading a decimal goes through
exact integers and rounds once, to the nearest such number, a half to the even
mantissa.
-/

namespace BinaryLambda.Decimal

/-- A binary64 number. -/
inductive Binary64 where
  | finite (negative : Bool) (mantissa : Nat) (exponent : Int)
  | infinite (negative : Bool)
  | notANumber
  deriving DecidableEq, Repr, Inhabited

/-- The integer nearest to `num / den`, a half going to the even neighbour. -/
def roundHalfEven (num den : Nat) : Nat :=
  let q := num / den
  let r := num % den
  if 2 * r < den || (2 * r == den && q % 2 == 0) then q else q + 1

namespace Binary64

/-- The quotient `num / den` times a power of two, as a quotient of integers. -/
def scaled (num den : Nat) (power : Int) : Nat × Nat :=
  if 0 ≤ power then (num * Nat.pow 2 power.toNat, den) else (num, den * Nat.pow 2 (-power).toNat)

/-- The greatest power of two that is at most `num / den`, as its exponent. -/
def logTwo (num den : Nat) : Int :=
  let k : Int := Nat.log2 num - Nat.log2 den
  let (n, d) := scaled num den (-k)
  if d ≤ n then k else k - 1

/-- The binary64 number nearest to `num / den`. -/
def nearest (negative : Bool) (num den : Nat) : Binary64 :=
  if num = 0 then .finite negative 0 (-1074)
  else
    let exponent := max (logTwo num den - 52) (-1074)
    let (n, d) := scaled num den (-exponent)
    let mantissa := roundHalfEven n d
    let (mantissa, exponent) :=
      if mantissa = Nat.pow 2 53 then (Nat.pow 2 52, exponent + 1) else (mantissa, exponent)
    if 971 < exponent then .infinite negative else .finite negative mantissa exponent

/-- The binary64 number nearest to `digits · 10 ^ power`.  Powers beyond every
binary64 number are not multiplied out. -/
def ofScientific (negative : Bool) (digits : List Char) (power : Int) : Binary64 :=
  let value := Text.digitsValue digits
  if value = 0 then nearest negative 0 1
  else if 400 < power then .infinite negative
  else if power + digits.length < -400 then nearest negative 0 1
  else if 0 ≤ power then nearest negative (value * Nat.pow 10 power.toNat) 1
  else nearest negative value (Nat.pow 10 (-power).toNat)

/-- A run of digits that may be empty. -/
def digitsOrNone? (cs : List Char) : Option (List Char) :=
  if cs.isEmpty then some [] else ungrouped? cs

/-- The exponent after the mark `e`. -/
def power? (cs : List Char) : Option Int :=
  let (negative, digits) := signed cs
  (ungrouped? digits).map fun ds =>
    if negative then -(Text.digitsValue ds : Int) else Text.digitsValue ds

/-- The number that an unsigned decimal with an optional fraction and an optional
exponent writes. -/
def unsigned? (negative : Bool) (cs : List Char) : Option Binary64 := do
  let isMark := fun c : Char => c == 'e' || c == 'E'
  let digits := cs.takeWhile (!isMark ·)
  let power ← match cs.dropWhile (!isMark ·) with
    | [] => some 0
    | _ :: written => power? written
  let whole ← digitsOrNone? (digits.takeWhile (· != '.'))
  let fraction ← digitsOrNone? ((digits.dropWhile (· != '.')).drop 1)
  if (whole ++ fraction).isEmpty then none
  else
    let significant := (whole ++ fraction).dropWhile (Text.digitValue? · == some 0)
    some (ofScientific negative significant (power - fraction.length))

/-- The number that a text writes, if it writes one. -/
def ofText? (s : String) : Option Binary64 :=
  let (negative, cs) := signed (unpadded s.toList)
  let word := String.ofList (cs.map Char.toLower)
  if word = "inf" || word = "infinity" then some (.infinite negative)
  else if word = "nan" then some .notANumber
  else unsigned? negative cs

end Binary64

end BinaryLambda.Decimal
