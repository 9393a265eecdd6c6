import BinaryLambda.Text.Blank
import BinaryLambda.Text.Digit

set_option autoImplicit false

/-!
# Decimal: integers written by hand

An integer is an optional sign followed by decimal digits of any script, where a
single underscore may stand between two digits.  White space around it is
ignored; the separators U+001C to U+001F are not white space here.
-/

namespace BinaryLambda.Decimal

open BinaryLambda.Text

/-- White space that may surround a number. -/
def isPadding (c : Char) : Bool :=
  isBlank c && !(28 ≤ c.toNat && c.toNat ≤ 31)

/-- Drops the padding at both ends. -/
def unpadded (cs : List Char) : List Char :=
  ((cs.dropWhile isPadding).reverse.dropWhile isPadding).reverse

/-- The digits of a run in which single underscores may separate digits; nothing
if the run is empty or holds anything else. -/
def ungrouped? : List Char → Option (List Char)
  | [] => none
  | [c] => if isDigit c then some [c] else none
  | c :: '_' :: cs => if isDigit c then (ungrouped? cs).map (c :: ·) else none
  | c :: cs => if isDigit c then (ungrouped? cs).map (c :: ·) else none

/-- Splits off a sign; true means a minus. -/
def signed : List Char → Bool × List Char
  | '-' :: cs => (true, cs)
  | '+' :: cs => (false, cs)
  | cs => (false, cs)

/-- The integer that a text writes, if it writes one. -/
def readInteger? (s : String) : Option Int :=
  let (negative, digits) := signed (unpadded s.toList)
  (ungrouped? digits).map fun ds =>
    if negative then -(digitsValue ds : Int) else digitsValue ds

end BinaryLambda.Decimal
